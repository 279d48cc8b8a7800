import Cartridge.Proofs.Layout.Sizes
import Cartridge.Proofs.Resolution.Memory
import Mathlib.Data.Set.Card

/-!
# Numbers of types

The types that routines refer to, pointer marks left aside, are numbered after the three built-in
ones (`Resolution.Described`). A number has 16 bits, which suffices for 32718 types and the pointers
to them. Up to there **`Resolution.numbers_of_ofRoutines`** says that each type has one number, one
number for its pointers and one size, and that no two numbers are the same.

Labels for memory and labels for types are different labels, so that the values of the latter can be
read from the list of all assignments (`Resolution.valuesOf_eq`).
-/

namespace Cartridge

/-- The label that an entry assigns, and its value. -/
def Entry.assigned? : Entry → Option (Label × Expression)
  | .directive (.labelAssign l value) => some (l, value)
  | _ => none

namespace Resolution

variable {u : Universe} {rs : List Routine} {res : Resolution} {es : List Entry} {ls : List Label}
  {l : Label} {t : TypeName}

/-! ### Values of a label -/

/-- The labels that entries assign, in order. -/
def assignedLabels (es : List Entry) : List Label := (es.filterMap (·.assigned?)).map (·.1)

/-- All values that a label is assigned, in order. -/
def valuesOf (res : Resolution) (l : Label) : List Expression :=
  ((res.assignments.filterMap (·.assigned?)).filter (·.1 == l)).map (·.2)

theorem assignedLabels_append (es es' : List Entry) :
    assignedLabels (es ++ es') = assignedLabels es ++ assignedLabels es' := by
  rw [assignedLabels, List.filterMap_append, List.map_append]
  rfl

theorem Assigns.assignedLabels_eq (h : Assigns es ls) : assignedLabels es = ls := by
  induction h with
  | nil => rfl
  | cons he _ ih =>
    obtain ⟨value, rfl⟩ := he
    exact congrArg (_ :: ·) ih

theorem length_valuesOf (res : Resolution) (l : Label) :
    (res.valuesOf l).length = (assignedLabels res.assignments).count l := by
  rw [valuesOf, List.length_map, ← List.countP_eq_length_filter, assignedLabels, List.count,
    List.countP_map]
  rfl

/-- A label that is assigned once has the value that some entry assigns to it. -/
theorem valuesOf_eq {value : Constant} (hcount : (assignedLabels res.assignments).count l = 1)
    (hmem : assign l value ∈ res.assignments) : res.valuesOf l = [.constant value] := by
  obtain ⟨v, hv⟩ := List.length_eq_one_iff.1 ((length_valuesOf res l).trans hcount)
  have hvalue : Expression.constant value ∈ res.valuesOf l := by
    refine List.mem_map.2 ⟨(l, value), List.mem_filter.2 ⟨?_, by simp⟩, rfl⟩
    exact List.mem_filterMap.2 ⟨_, hmem, rfl⟩
  rw [hv, List.mem_singleton] at hvalue
  rw [hv, hvalue]

/-! ### Types that are numbered -/

/-- The type is built in, or a routine mentions its number, that of its pointers, or its size. -/
def Described (rs : List Routine) (t : TypeName) : Prop :=
  t ∈ [TypeName.byte, .boolean, .nothing] ∨
    ∃ r ∈ rs, ∃ l, r.Mentions l ∧ l.describedType? = some t

theorem mem_numbered_iff : t ∈ numbered (referenced rs) ↔ Described rs t := by
  rw [numbered, List.mem_eraseDups, List.mem_append, List.mem_filterMap, Described]
  refine or_congr_right ⟨?_, ?_⟩
  · rintro ⟨l, hl, ht⟩
    obtain ⟨r, hr, hmentions⟩ := mem_referenced.1 hl
    exact ⟨r, hr, l, hmentions, ht⟩
  · rintro ⟨r, hr, l, hmentions, ht⟩
    exact ⟨l, mem_referenced.2 ⟨r, hr, hmentions⟩, ht⟩

/-- Types are numbered once. -/
theorem nodup_numbered (refs : List Label) : (numbered refs).Nodup := nodup_eraseDups _

theorem ncard_described (rs : List Routine) :
    {t | Described rs t}.ncard = (numbered (referenced rs)).length := by
  have hset : {t | Described rs t} = ((numbered (referenced rs)).toFinset : Set TypeName) := by
    ext t
    rw [Set.mem_ofPred_eq, List.coe_toFinset, Set.mem_ofPred_eq, mem_numbered_iff]
  rw [hset, Set.ncard_coe_finset, List.toFinset_card_of_nodup (nodup_numbered _)]

/-- The position of a type among those that are numbered. -/
def position (rs : List Routine) (t : TypeName) : Nat := (numbered (referenced rs)).idxOf t

theorem position_lt (ht : Described rs t) : position rs t < {t | Described rs t}.ncard :=
  ncard_described rs ▸ List.idxOf_lt_length_iff.2 (mem_numbered_iff.2 ht)

theorem position_inj {s : TypeName} (hs : Described rs s) (h : position rs s = position rs t) :
    s = t := (List.idxOf_inj (mem_numbered_iff.2 hs)).1 h

theorem exists_position {k : Nat} (hk : k < {t | Described rs t}.ncard) :
    ∃ t, Described rs t ∧ position rs t = k := by
  rw [ncard_described] at hk
  exact ⟨_, mem_numbered_iff.1 (List.getElem_mem hk), (nodup_numbered _).idxOf_getElem k hk⟩

/-! ### Assignments of a type -/

theorem describedType?_of_owner {m : Member} (h : l.owner? = some m) : l.describedType? = none := by
  unfold Label.owner? at h
  split at h
  · rfl
  · rfl
  · rfl
  · cases h

/-- Labels for memory describe no type. -/
theorem describedType?_of_placed {refs : List Label}
    (h : l ∈ scratch ++ (globals u refs).map (·.1) ++
      (owners rs refs).flatMap (slotLabels u refs)) : l.describedType? = none := by
  rcases List.mem_append.1 h with h | h
  · rcases List.mem_append.1 h with h | h
    · rcases List.mem_pair.1 h with rfl | rfl <;> rfl
    · obtain ⟨f, rfl⟩ := global_of_mem_globals h
      rfl
  · obtain ⟨m, hm⟩ := owner_of_mem_slots h
    exact describedType?_of_owner hm

/-- **A label of a numbered type is assigned once.** -/
theorem count_assignedLabels {bounds : RamBounds} (h : ofRoutines u bounds rs = .ok res)
    (ht : Described rs t) (hl : l ∈ typeLabels t) :
    (assignedLabels res.assignments).count l = 1 := by
  obtain ⟨placed, types, hres, hplaced, htypes, -⟩ := of_ofRoutines h
  have haliases : assignedLabels ((aliases u).map aliasEntry) = [] := by
    rw [assignedLabels, List.filterMap_eq_nil_iff.2 (List.forall_mem_map.2 fun a _ => rfl)]
    rfl
  have hdescribed : l.describedType? ≠ none ∧ l ∉ [.pointerSize .short, .pointerSize .long] := by
    simp only [typeLabels, List.mem_cons, List.not_mem_nil, or_false] at hl
    rcases hl with rfl | rfl | rfl <;> simp [Label.describedType?]
  have hplacedCount : (assignedLabels placed).count l = 0 := by
    rw [hplaced.assignedLabels_eq]
    exact List.count_eq_zero.2 fun hmem => hdescribed.1 (describedType?_of_placed hmem)
  have htypesCount : (assignedLabels types).count l = 1 := by
    rw [htypes.assignedLabels_eq, List.count_append, List.count_eq_zero.2 hdescribed.2]
    exact List.count_eq_one_of_mem (nodup_typeLabels _) (List.mem_flatMap.2
      ⟨t, mem_numbered_iff.2 ht, hl⟩)
  rw [hres, assignedLabels_append, assignedLabels_append, haliases, List.append_nil,
    List.count_append, hplacedCount, htypesCount]

/-- Number, pointer number and size go by the position of the type. -/
theorem mem_of_assignTypes (h : assignTypes u (referenced rs) = .ok es) (ht : Described rs t) :
    ∃ n, sizeOf u t = .ok n ∧
      [assignNumber (.type t) (firstTypeId + 2 * position rs t),
        assignNumber (.pointerType t) (firstTypeId + 2 * position rs t + 1),
        assignNumber (.size t) n] ⊆ es := by
  obtain ⟨parts, hparts, h⟩ := bind_eq_ok.1 h
  cases pure_eq_ok.1 h
  have hzip : (t, position rs t) ∈ (numbered (referenced rs)).zipIdx :=
    List.mem_zipIdx_iff_getElem?.2 (List.getElem?_idxOf (mem_numbered_iff.2 ht))
  obtain ⟨part, hpart, htype⟩ := exists_mem_of_mapM hparts hzip
  obtain ⟨n, hn, htype⟩ := bind_eq_ok.1 htype
  cases pure_eq_ok.1 htype
  exact ⟨n, hn, fun e he => List.mem_append_left _ (List.mem_flatten.2 ⟨_, hpart, he⟩)⟩

theorem exists_assignTypes {bounds : RamBounds} (h : ofRoutines u bounds rs = .ok res) :
    ∃ types, assignTypes u (referenced rs) = .ok types ∧ types ⊆ res.assignments := by
  obtain ⟨r₁, -, h⟩ := bind_eq_ok.1 h
  obtain ⟨r₂, -, h⟩ := bind_eq_ok.1 h
  obtain ⟨r₃, -, h⟩ := bind_eq_ok.1 h
  obtain ⟨aliasEntries, -, h⟩ := bind_eq_ok.1 h
  obtain ⟨types, htypes, h⟩ := bind_eq_ok.1 h
  cases pure_eq_ok.1 h
  exact ⟨types, htypes, List.subset_append_right ..⟩

/-! ### Numbers of 16 bits -/

/-- The number of the type at a position, computed in 16 bits. -/
def typeId (k : Nat) : UInt16 := 100 + 2 * UInt16.ofNat k

/-- **Up to the last type nothing wraps around**: neither the position, nor its double, nor the
number, nor that of the pointers. -/
theorem toNat_typeId {k : Nat} (hk : k < 32718) :
    (UInt16.ofNat k).toNat = k ∧ (2 * UInt16.ofNat k).toNat = 2 * k ∧
      (typeId k).toNat = firstTypeId + 2 * k ∧
      (typeId k ||| 1).toNat = firstTypeId + 2 * k + 1 := by
  have hcast : (UInt16.ofNat k).toNat = k := by
    rw [UInt16.toNat_ofNat']
    omega
  have hdouble : (2 * UInt16.ofNat k).toNat = 2 * k := by
    rw [UInt16.toNat_mul, hcast]
    change 2 * k % 2 ^ 16 = 2 * k
    omega
  have hid : (typeId k).toNat = firstTypeId + 2 * k := by
    rw [typeId, UInt16.toNat_add, hdouble]
    change (100 + 2 * k) % 2 ^ 16 = 100 + 2 * k
    omega
  refine ⟨hcast, hdouble, hid, ?_⟩
  -- The number is even, so that setting the last bit adds one.
  have heven : firstTypeId + 2 * k = 2 ^ 1 * (50 + k) := by
    simp only [firstTypeId]
    omega
  rw [UInt16.toNat_or, hid, heven]
  exact (Nat.two_pow_add_eq_or_of_lt (by decide) _).symm

theorem ofNat_typeId {k : Nat} (hk : k < 32718) :
    UInt16.ofNat (firstTypeId + 2 * k) = typeId k ∧
      UInt16.ofNat (firstTypeId + 2 * k + 1) = typeId k ||| 1 := by
  obtain ⟨-, -, hid, hpointer⟩ := toNat_typeId hk
  rw [← hpointer, ← hid, UInt16.ofNat_toNat, UInt16.ofNat_toNat]
  exact ⟨rfl, rfl⟩

/-- What is assigned to the labels of a type. -/
theorem valuesOf_typeLabels {bounds : RamBounds} (h : ofRoutines u bounds rs = .ok res)
    (ht : Described rs t) (hlt : position rs t < 32718) :
    res.valuesOf (.type t) = [.constant (.number (typeId (position rs t)))] ∧
      res.valuesOf (.pointerType t) = [.constant (.number (typeId (position rs t) ||| 1))] ∧
      ∃ n : UInt16, sizeOf u t = .ok n.toNat ∧
        res.valuesOf (.size t) = [.constant (.number n)] := by
  obtain ⟨types, htypes, hsubset⟩ := exists_assignTypes h
  obtain ⟨n, hn, hmem⟩ := mem_of_assignTypes htypes ht
  obtain ⟨hid, hid'⟩ := ofNat_typeId hlt
  have hvalue : ∀ l ∈ typeLabels t, ∀ n, assignNumber l n ∈ types →
      res.valuesOf l = [.constant (.number (UInt16.ofNat n))] := fun l hl n hentry =>
    valuesOf_eq (count_assignedLabels h ht hl) (hsubset hentry)
  refine ⟨?_, ?_, UInt16.ofNat n, ?_, ?_⟩
  · rw [← hid]
    exact hvalue _ (by simp [typeLabels]) _ (hmem (by simp))
  · rw [← hid']
    exact hvalue _ (by simp [typeLabels]) _ (hmem (by simp))
  · rw [hn, UInt16.toNat_ofNat_of_lt' (Nat.lt_succ_of_le (Layout.le_maxSize_of_sizeOf hn))]
  · exact hvalue _ (by simp [typeLabels]) _ (hmem (by simp))

/-! ### Numbers without clashes -/

/-- Every type has a number of its own, another one for its pointers, and a size, and each of them
is assigned once. -/
structure Numbers (u : Universe) (rs : List Routine) (res : Resolution) (id : TypeName → UInt16) :
    Prop where
  type : ∀ t, Described rs t → res.valuesOf (.type t) = [.constant (.number (id t))]
  /-- The number of the pointers is the next one. -/
  pointer : ∀ t, Described rs t →
    res.valuesOf (.pointerType t) = [.constant (.number (id t ||| 1))] ∧
      (id t ||| 1).toNat = (id t).toNat + 1
  size : ∀ t, Described rs t → ∃ n : UInt16,
    sizeOf u t = .ok n.toNat ∧ res.valuesOf (.size t) = [.constant (.number n)]
  /-- Numbers are computed from positions, and no step of it leaves 16 bits. -/
  computed : ∀ t, Described rs t → ∃ k < {t | Described rs t}.ncard,
    id t = 100 + 2 * UInt16.ofNat k ∧ (UInt16.ofNat k).toNat = k ∧
      (2 * UInt16.ofNat k).toNat = 2 * k ∧ (id t).toNat = 100 + 2 * k
  /-- The numbers are the even ones from 100 on, as many as there are types. -/
  range : ∀ n, (∃ t, Described rs t ∧ (id t).toNat = n) ↔
    ∃ k < {t | Described rs t}.ncard, n = 100 + 2 * k
  injective : ∀ s t, Described rs s → Described rs t → id s = id t → s = t
  /-- No number of a type is one of pointers. -/
  apart : ∀ s t, Described rs s → Described rs t → id s ≠ id t ||| 1

/-- **Types are numbered without clashes.** As long as there are at most 32718 types to be numbered,
each of them gets one number, one number for its pointers and one size. The numbers are the even
ones from 100 on and are all different, the pointers have the odd ones after them, and 16 bits hold
every one of them. -/
theorem numbers_of_ofRoutines {u : Universe} {bounds : RamBounds} {rs : List Routine}
    {res : Resolution} (h : ofRoutines u bounds rs = .ok res)
    (hcount : {t | Described rs t}.ncard ≤ 32718) : ∃ id, Numbers u rs res id := by
  have hlt : ∀ t, Described rs t → position rs t < 32718 := fun t ht =>
    Nat.lt_of_lt_of_le (position_lt ht) hcount
  have hvalues := fun t ht => valuesOf_typeLabels h ht (hlt t ht)
  have hwords := fun t ht => toNat_typeId (hlt t ht)
  refine ⟨fun t => typeId (position rs t), fun t ht => (hvalues t ht).1, fun t ht => ?_,
    fun t ht => (hvalues t ht).2.2, fun t ht => ?_, fun n => ⟨?_, ?_⟩, fun s t hs ht heq => ?_,
    fun s t hs ht heq => ?_⟩
  · obtain ⟨-, -, hid, hpointer⟩ := hwords t ht
    exact ⟨(hvalues t ht).2.1, by rw [hpointer, hid]⟩
  · obtain ⟨hcast, hdouble, hid, -⟩ := hwords t ht
    exact ⟨position rs t, position_lt ht, rfl, hcast, hdouble, hid⟩
  · rintro ⟨t, ht, rfl⟩
    exact ⟨position rs t, position_lt ht, (hwords t ht).2.2.1⟩
  · rintro ⟨k, hk, rfl⟩
    obtain ⟨t, ht, rfl⟩ := exists_position hk
    exact ⟨t, ht, (hwords t ht).2.2.1⟩
  · have hnumbers := congrArg UInt16.toNat heq
    rw [(hwords s hs).2.2.1, (hwords t ht).2.2.1] at hnumbers
    exact position_inj hs (by omega)
  · -- One number is even, the other one odd.
    have hnumbers := congrArg UInt16.toNat heq
    rw [(hwords s hs).2.2.1, (hwords t ht).2.2.2] at hnumbers
    omega

/-- A routine mentions a type by way of pointers only, and a built-in type again. -/
theorem numbers_of_ofRoutines_screen :
    let main : Member := ⟨⟨"Game"⟩, "Main"⟩
    let screen : TypeName := ⟨"Screen"⟩
    let rs : List Routine := [
      { method := main
        body := [.synthetic (.pushGlobal (.localSlot main 0) (.pointerType ⟨"Screen*"⟩)
          (.size ⟨"System.Byte&"⟩))]
        lifted := [.type ⟨"Screen&*"⟩] }]
    {t | Described rs t}.ncard = 4 ∧ Described rs screen ∧
      ∃ res, ofRoutines arcade ⟨0x80, 0x100, 0x10⟩ rs = .ok res ∧
        res.valuesOf (.pointerType screen) = [.constant (.number 107)] ∧
        ∃ id, Numbers arcade rs res id := by
  intro main screen rs
  have hcount : {t | Described rs t}.ncard = 4 := by
    rw [ncard_described]
    decide +kernel
  have hvalues : (ofRoutines arcade ⟨0x80, 0x100, 0x10⟩ rs).map
      (·.valuesOf (.pointerType screen)) = .ok [.constant (.number 107)] := by
    decide +kernel
  obtain ⟨res, hres, hpointer⟩ := map_eq_ok.1 hvalues
  refine ⟨hcount, mem_numbered_iff.1 (by decide +kernel), res, hres, hpointer, ?_⟩
  exact numbers_of_ofRoutines hres (by rw [hcount]; decide)

end Resolution

end Cartridge
