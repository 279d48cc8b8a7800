import Cartridge.Proofs.Layout.Table
import Mathlib.Algebra.Ring.Nat

/-!
# Sizes of types

What a type occupies can be said without computing it: a pointer has a fixed size, and so has a
built-in type; any other type occupies what its instance fields occupy together
(`Universe.Occupies`). There is such a number if every type on the way is declared and none holds
itself (`exists_occupies`), and there is at most one (`Occupies.unique`).

**`sizeOf_iff_sizable`**: a size is computed iff there is one and no type on the way is too large.
Then the fields of the layout stand one after the other, so that each byte of a value belongs to
exactly one of them (`Consecutive.existsUnique`). An error names a type on the way and what is wrong
with it (`blames_of_nested`).
-/

namespace Cartridge

namespace Universe

/-- What a value of a type takes, however much that is. -/
inductive Occupies (u : Universe) : TypeName → Nat → Prop where
  | pointer {t : TypeName} (hp : t.isPointer = true) : Occupies u t Layout.pointerSize
  | builtIn {t : TypeName} {d : TypeDecl} {size : UInt16} (hp : t.isPointer = false)
      (hd : u.findType t = .ok d) (hsize : d.primitiveSize = some size) : Occupies u t size.toNat
  | composite {t : TypeName} {d : TypeDecl} (size : TypeName → Nat) (hp : t.isPointer = false)
      (hd : u.findType t = .ok d) (hsize : d.primitiveSize = none)
      (hfields : ∀ f ∈ d.instanceFields, Occupies u f.type (size f.type)) :
      Occupies u t (d.instanceFields.map fun f => size f.type).sum

/-- Every type that a value of `t` holds is declared, does not hold itself and is not too large. -/
structure Sizable (u : Universe) (t : TypeName) : Prop where
  declared : ∀ s, Relation.ReflTransGen u.Contains t s → ∃ d, u.findType s = .ok d
  acyclic : ∀ s, Relation.ReflTransGen u.Contains t s → ¬ Relation.TransGen u.Contains s s
  bounded : ∀ s, Relation.ReflTransGen u.Contains t s → ∀ n, u.Occupies s n → n ≤ Layout.maxSize

/-- The first of the fields of a type take too much already. -/
def Oversized (u : Universe) (t : TypeName) : Prop :=
  ∃ (d : TypeDecl) (first rest : List FieldDecl) (size : TypeName → Nat),
    u.findType t = .ok d ∧ d.primitiveSize = none ∧ d.instanceFields = first ++ rest ∧
    (∀ f ∈ first, u.Occupies f.type (size f.type)) ∧
    Layout.maxSize < (first.map fun f => size f.type).sum

variable {u : Universe} {s t : TypeName}

theorem Occupies.unique {n n' : Nat} (h : u.Occupies t n) (h' : u.Occupies t n') : n = n' := by
  induction h generalizing n' with
  | pointer hp =>
    cases h' with
    | pointer => rfl
    | builtIn hp' => exact absurd (hp.symm.trans hp') (by decide)
    | composite _ hp' => exact absurd (hp.symm.trans hp') (by decide)
  | builtIn hp hd hsize =>
    cases h' with
    | pointer hp' => exact absurd (hp.symm.trans hp') (by decide)
    | builtIn _ hd' hsize' =>
      cases hd.symm.trans hd'
      cases hsize.symm.trans hsize'
      rfl
    | composite _ _ hd' hsize' =>
      cases hd.symm.trans hd'
      cases hsize.symm.trans hsize'
  | composite size hp hd hsize _ ih =>
    cases h' with
    | pointer hp' => exact absurd (hp.symm.trans hp') (by decide)
    | builtIn _ hd' hsize' =>
      cases hd.symm.trans hd'
      cases hsize.symm.trans hsize'
    | composite size' _ hd' hsize' hfields' =>
      cases hd.symm.trans hd'
      rw [List.map_congr_left fun f hf => ih f hf (hfields' f hf)]

theorem isPointer_of_reflTransGen (ht : t.isPointer = false)
    (h : Relation.ReflTransGen u.Contains t s) : s.isPointer = false := by
  cases h with
  | refl => exact ht
  | tail _ hs =>
    obtain ⟨-, -, -, hp, -⟩ := hs
    exact hp

/-- **Declared types that do not hold themselves have a size.** -/
theorem exists_occupies (chain : List TypeName) (t : TypeName)
    (hchain : ∀ s ∈ chain, Relation.TransGen u.Contains s t)
    (hdeclared : ∀ s, Relation.ReflTransGen u.Contains t s → ∃ d, u.findType s = .ok d)
    (hacyclic : ∀ s, Relation.ReflTransGen u.Contains t s → ¬ Relation.TransGen u.Contains s s) :
    ∃ n, u.Occupies t n := by
  induction chain, t using containment_induction u with
  | h chain t ih =>
    by_cases hp : t.isPointer = true
    · exact ⟨_, .pointer hp⟩
    rw [Bool.not_eq_true] at hp
    obtain ⟨d, hd⟩ := hdeclared t .refl
    cases hsize : d.primitiveSize with
    | some size => exact ⟨_, .builtIn hp hd hsize⟩
    | none =>
      have hfields : ∀ f ∈ d.instanceFields, ∃ n, u.Occupies f.type n := by
        intro f hf
        by_cases hfp : f.type.isPointer = true
        · exact ⟨_, .pointer hfp⟩
        rw [Bool.not_eq_true] at hfp
        have hft : u.Contains t f.type := ⟨d, hd, hsize, hfp, f, hf, rfl⟩
        have hbelow : ∀ s ∈ chain ++ [t], Relation.TransGen u.Contains s f.type :=
          transGen_of_chain hchain hft
        refine ih f.type hft (fun hmem => ?_) hbelow (fun s hs => hdeclared s (.head hft hs))
          fun s hs => hacyclic s (.head hft hs)
        -- What is on the chain holds the type of the field, so that this would hold itself.
        exact hacyclic f.type (.single hft) (hbelow _ hmem)
      -- One function gives the sizes of all fields; elsewhere it does not matter.
      have hsizes : ∀ s, ∃ n, (∃ n', u.Occupies s n') → u.Occupies s n := by
        intro s
        by_cases hs : ∃ n, u.Occupies s n
        · obtain ⟨n, hn⟩ := hs
          exact ⟨n, fun _ => hn⟩
        · exact ⟨0, fun hs' => absurd hs' hs⟩
      obtain ⟨size, hchosen⟩ := Classical.axiomOfChoice hsizes
      exact ⟨_, .composite size hp hd hsize fun f hf => hchosen f.type (hfields f hf)⟩

theorem Oversized.maxSize_lt {n : Nat} (h : u.Oversized t) (hn : u.Occupies t n)
    (ht : t.isPointer = false) : Layout.maxSize < n := by
  obtain ⟨d, first, rest, size, hd, hsize, hfields, hfirst, hlarge⟩ := h
  cases hn with
  | pointer hp => exact absurd (ht.symm.trans hp) (by decide)
  | builtIn _ hd' hsize' =>
    cases hd.symm.trans hd'
    cases hsize.symm.trans hsize'
  | composite size' _ hd' _ hfields' =>
    cases hd.symm.trans hd'
    rw [hfields] at hfields' ⊢
    have hsame : (first.map fun f => size f.type) = first.map fun f => size' f.type :=
      List.map_congr_left fun f hf =>
        (hfirst f hf).unique (hfields' f (List.mem_append_left _ hf))
    rw [List.map_append, List.sum_append, ← hsame]
    omega

end Universe

namespace Layout

/-! ### Places of fields -/

/-- Fields stand one after the other from `offset` on. -/
def Consecutive (offset : Nat) : List FieldLayout → Prop
  | [] => True
  | f :: fs => f.offset = offset ∧ Consecutive (offset + f.size) fs

namespace Consecutive

variable {offset k : Nat} {f : FieldLayout} {fs : List FieldLayout}

theorem offset_eq {before after : List FieldLayout}
    (h : Consecutive offset (before ++ f :: after)) :
    f.offset = offset + (before.map (·.size)).sum := by
  induction before generalizing offset with
  | nil => exact h.1
  | cons g before ih =>
    rw [ih h.2, List.map_cons, List.sum_cons, Nat.add_assoc]

theorem bounds (h : Consecutive offset fs) (hf : f ∈ fs) :
    offset ≤ f.offset ∧ f.offset + f.size ≤ offset + (fs.map (·.size)).sum := by
  obtain ⟨before, after, rfl⟩ := List.append_of_mem hf
  rw [h.offset_eq, List.map_append, List.map_cons, List.sum_append, List.sum_cons]
  omega

/-- **Every byte belongs to exactly one field.** -/
theorem existsUnique (h : Consecutive offset fs) (hk : offset ≤ k)
    (hend : k < offset + (fs.map (·.size)).sum) :
    ∃! i : Nat, ∃ f : FieldLayout, fs[i]? = some f ∧ f.offset ≤ k ∧ k < f.offset + f.size := by
  induction fs generalizing offset with
  | nil =>
    rw [List.map_nil, List.sum_nil] at hend
    omega
  | cons g fs ih =>
    obtain ⟨hg, hfs⟩ := h
    rw [List.map_cons, List.sum_cons, ← Nat.add_assoc] at hend
    -- The byte belongs to the first field or to one of the others, which start after the first.
    by_cases hlt : k < offset + g.size
    · refine ⟨0, ⟨g, rfl, by omega, by omega⟩, ?_⟩
      rintro (_ | i) ⟨f, hf, hle, -⟩
      · rfl
      · have hbounds := hfs.bounds (List.mem_of_getElem? hf)
        omega
    · obtain ⟨i, ⟨f, hf, hin⟩, hunique⟩ := ih hfs (by omega) hend
      refine ⟨i + 1, ⟨f, hf, hin⟩, ?_⟩
      rintro (_ | j) ⟨f', hf', hin'⟩
      · cases hf'
        omega
      · rw [hunique j ⟨f', hf', hin'⟩]

end Consecutive

/-- Fields of known sizes, one after the other. -/
def arrange (size : TypeName → Nat) (offset : Nat) : List FieldDecl → List FieldLayout
  | [] => []
  | f :: fs => ⟨f.name, f.type, offset, size f.type⟩ :: arrange size (offset + size f.type) fs

variable {size : TypeName → Nat} {offset : Nat} {fields : List FieldDecl}

theorem consecutive_arrange : Consecutive offset (arrange size offset fields) := by
  induction fields generalizing offset with
  | nil => trivial
  | cons f fields ih => exact ⟨rfl, ih⟩

theorem map_arrange : (arrange size offset fields).map (fun f => (f.name, f.type)) =
    fields.map fun f => (f.name, f.type) := by
  induction fields generalizing offset with
  | nil => rfl
  | cons f fields ih => rw [arrange, List.map_cons, List.map_cons, ih]

theorem map_size_arrange :
    (arrange size offset fields).map (·.size) = fields.map fun f => size f.type := by
  induction fields generalizing offset with
  | nil => rfl
  | cons f fields ih => rw [arrange, List.map_cons, List.map_cons, ih]

theorem exists_of_mem_arrange {f : FieldLayout} (hf : f ∈ arrange size offset fields) :
    ∃ g ∈ fields, f.type = g.type ∧ f.size = size g.type := by
  induction fields generalizing offset with
  | nil => cases hf
  | cons g fields ih =>
    rcases List.mem_cons.1 hf with rfl | hf
    · exact ⟨g, List.mem_cons_self, rfl, rfl⟩
    · obtain ⟨g', hg', heq⟩ := ih hf
      exact ⟨g', List.mem_cons_of_mem _ hg', heq⟩

variable {owner : TypeName} {sizeOf : TypeName → Except Error Nat}

/-- A size that has been computed. -/
def known (sizeOf : TypeName → Except Error Nat) (t : TypeName) : Nat := (sizeOf t).toOption.getD 0

theorem eq_ok_known {t : TypeName} {n : Nat} (h : sizeOf t = .ok n) :
    sizeOf t = .ok (known sizeOf t) := by
  rw [known, h]
  rfl

/-- What has been placed is arranged and does not take too much. -/
theorem eq_of_placeFields {placed : List FieldLayout × Nat} (hoffset : offset ≤ maxSize)
    (h : placeFields owner sizeOf offset fields = .ok placed) :
    placed = (arrange (known sizeOf) offset fields,
      offset + (fields.map fun f => known sizeOf f.type).sum) ∧ placed.2 ≤ maxSize := by
  induction fields generalizing offset placed with
  | nil =>
    cases pure_eq_ok.1 h
    exact ⟨rfl, hoffset⟩
  | cons f fields ih =>
    obtain ⟨n, hn, h⟩ := bind_eq_ok.1 h
    cases hn.symm.trans (eq_ok_known hn)
    split at h
    · rename_i hfits
      obtain ⟨rest, hrest, h⟩ := bind_eq_ok.1 h
      obtain ⟨rfl, hend⟩ := ih hfits hrest
      cases pure_eq_ok.1 h
      refine ⟨?_, hend⟩
      rw [List.map_cons, List.sum_cons, ← Nat.add_assoc]
      rfl
    · cases h

/-- Placing fields fails if the size of one is unknown, or if the first ones take too much. -/
theorem of_placeFields_error {e : Error} (h : placeFields owner sizeOf offset fields = .error e) :
    (∃ f ∈ fields, sizeOf f.type = .error e) ∨
      e = .layoutTooLarge owner.text ∧ ∃ first rest, fields = first ++ rest ∧
        (∀ f ∈ first, sizeOf f.type = .ok (known sizeOf f.type)) ∧
        maxSize < offset + (first.map fun f => known sizeOf f.type).sum := by
  induction fields generalizing offset with
  | nil => cases h
  | cons f fields ih =>
    rcases bind_eq_error.1 h with hn | ⟨n, hn, h⟩
    · exact .inl ⟨f, List.mem_cons_self, hn⟩
    have hf := eq_ok_known hn
    cases hn.symm.trans hf
    split at h
    · rcases bind_eq_error.1 h with hrest | ⟨rest, -, h⟩
      · rcases ih hrest with ⟨g, hg, he⟩ | ⟨he, first, rest, rfl, hfirst, hlarge⟩
        · exact .inl ⟨g, List.mem_cons_of_mem _ hg, he⟩
        · refine .inr ⟨he, f :: first, rest, rfl, List.forall_mem_cons.2 ⟨hf, hfirst⟩, ?_⟩
          rw [List.map_cons, List.sum_cons]
          omega
      · cases h
    · rename_i hlarge
      cases h
      refine .inr ⟨rfl, [f], fields, rfl, List.forall_mem_singleton.2 hf, ?_⟩
      rw [List.map_singleton, List.sum_singleton]
      omega

/-! ### Sizes in layouts -/

variable {u : Universe} {chain : List TypeName} {s t : TypeName} {l : TypeLayout} {d : TypeDecl}

/-- Sizes of fields, inside of the types on the chain. -/
def nestedSize (u : Universe) (chain : List TypeName) (t : TypeName) : Except Error Nat :=
  fieldSize (fun b => if b ∈ chain then .error (.recursiveLayout b.text) else nested u chain b) t

theorem nestedSize_pointer (hp : t.isPointer = true) : nestedSize u chain t = .ok pointerSize := by
  rw [nestedSize, fieldSize, if_pos hp]
  rfl

theorem of_nestedSize {n : Nat} (hp : t.isPointer = false) (h : nestedSize u chain t = .ok n) :
    ∃ l, nested u chain t = .ok l ∧ l.size = n := by
  rw [nestedSize, fieldSize, hp] at h
  obtain ⟨l, hl, h⟩ := bind_eq_ok.1 h
  split at hl
  · cases hl
  · exact ⟨l, hl, pure_eq_ok.1 h⟩

theorem of_nestedSize_error {e : Error} (h : nestedSize u chain t = .error e) :
    t.isPointer = false ∧
      (t ∈ chain ∧ e = .recursiveLayout t.text ∨ t ∉ chain ∧ nested u chain t = .error e) := by
  rw [nestedSize, fieldSize] at h
  by_cases hp : t.isPointer = true
  · rw [if_pos hp] at h
    cases h
  rw [if_neg hp] at h
  refine ⟨by simpa using hp, ?_⟩
  rcases bind_eq_error.1 h with hl | ⟨l, -, h⟩
  · split at hl
    · cases hl
      exact .inl ⟨‹_›, rfl⟩
    · exact .inr ⟨‹_›, hl⟩
  · cases h

theorem nested_eq_of_composite (hd : u.findType t = .ok d) (hsize : d.primitiveSize = none)
    (chain : List TypeName) :
    nested u chain t = (placeFields t (nestedSize u (chain ++ [t])) 0 d.instanceFields).map
      fun placed => ⟨t, placed.1, placed.2⟩ := by
  rw [nested_eq]
  simp only [build, hd, hsize]
  rfl

theorem nested_eq_of_builtIn {size : UInt16} (hd : u.findType t = .ok d)
    (hsize : d.primitiveSize = some size) (chain : List TypeName) :
    nested u chain t = .ok ⟨t, [], size.toNat⟩ := by
  rw [nested_eq]
  simp only [build, hd, hsize]
  rfl

/-- What there is to say about a layout. -/
theorem of_nested (h : nested u chain t = .ok l) : ∃ d, u.findType t = .ok d ∧
    ((∃ size : UInt16, d.primitiveSize = some size ∧ l = ⟨t, [], size.toNat⟩) ∨
      d.primitiveSize = none ∧ ∃ size : TypeName → Nat,
        (∀ f ∈ d.instanceFields, nestedSize u (chain ++ [t]) f.type = .ok (size f.type)) ∧
        l = ⟨t, arrange size 0 d.instanceFields, (d.instanceFields.map fun f => size f.type).sum⟩ ∧
        l.size ≤ maxSize) := by
  cases hd : u.findType t with
  | error e => cases h.symm.trans (nested_of_findType hd chain)
  | ok d =>
    refine ⟨d, rfl, ?_⟩
    cases hsize : d.primitiveSize with
    | some size =>
      cases h.symm.trans (nested_eq_of_builtIn hd hsize chain)
      exact .inl ⟨size, rfl, rfl⟩
    | none =>
      rw [nested_eq_of_composite hd hsize] at h
      obtain ⟨placed, hplaced, rfl⟩ := map_eq_ok.1 h
      obtain ⟨rfl, hend⟩ := eq_of_placeFields (Nat.zero_le _) hplaced
      refine .inr ⟨rfl, known (nestedSize u (chain ++ [t])), fun f hf => ?_, ?_, hend⟩
      · obtain ⟨n, hn⟩ := exists_of_placeFields hplaced f hf
        exact eq_ok_known hn
      · rw [Nat.zero_add]

theorem occupies_of_nestedSize {n : Nat} (h : nestedSize u chain t = .ok n)
    (hnested : t.isPointer = false → ∀ l, nested u chain t = .ok l → u.Occupies t l.size) :
    u.Occupies t n := by
  by_cases hp : t.isPointer = true
  · cases h.symm.trans (nestedSize_pointer hp)
    exact .pointer hp
  · rw [Bool.not_eq_true] at hp
    obtain ⟨l, hl, rfl⟩ := of_nestedSize hp h
    exact hnested hp l hl

/-- **The size in a layout is what the type occupies.** -/
theorem occupies_of_nested (ht : t.isPointer = false) (h : nested u chain t = .ok l) :
    u.Occupies t l.size ∧ l.size ≤ maxSize := by
  induction chain, t using Universe.containment_induction u generalizing l with
  | h chain t ih =>
    obtain ⟨d, hd, ⟨size, hsize, rfl⟩ | ⟨hsize, size, hsizes, hl, hend⟩⟩ := of_nested h
    · exact ⟨.builtIn ht hd hsize, Nat.le_of_lt_succ size.toNat_lt⟩
    · refine ⟨?_, hend⟩
      rw [hl]
      refine .composite size ht hd hsize fun f hf => ?_
      refine occupies_of_nestedSize (hsizes f hf) fun hp l' hl' => ?_
      have hft : u.Contains t f.type := ⟨d, hd, hsize, hp, f, hf, rfl⟩
      exact (ih f.type hft (exists_of_nested h hft).1 hp hl').1

theorem exists_of_reflTransGen (h : nested u chain t = .ok l)
    (hs : Relation.ReflTransGen u.Contains t s) : ∃ chain' l', nested u chain' s = .ok l' := by
  induction hs with
  | refl => exact ⟨chain, l, h⟩
  | tail _ hs ih =>
    obtain ⟨chain', l', hl'⟩ := ih
    exact ⟨_, (exists_of_nested hl' hs).2⟩

/-- **What has a layout has a size.** -/
theorem sizable_of_nested (ht : t.isPointer = false) (h : nested u chain t = .ok l) :
    u.Sizable t where
  declared s hs := by
    obtain ⟨chain', l', hl'⟩ := exists_of_reflTransGen h hs
    obtain ⟨d, hd, -⟩ := of_nested hl'
    exact ⟨d, hd⟩
  acyclic s hs hcycle := by
    obtain ⟨chain', l', hl'⟩ := exists_of_reflTransGen h hs
    exact not_mem_of_nested hl' hcycle (List.mem_append_right _ (List.mem_singleton_self s))
  bounded s hs n hn := by
    obtain ⟨chain', l', hl'⟩ := exists_of_reflTransGen h hs
    obtain ⟨hsize, hend⟩ := occupies_of_nested (Universe.isPointer_of_reflTransGen ht hs) hl'
    rw [hn.unique hsize]
    exact hend

/-- What an error says is wrong with a type. -/
inductive Blames (u : Universe) (s : TypeName) : Error → Prop where
  | missing {e : Error} (h : u.findType s = .error e) : Blames u s (.missingType s.text)
  | cyclic (h : Relation.TransGen u.Contains s s) : Blames u s (.recursiveLayout s.text)
  | tooLarge (h : u.Oversized s) : Blames u s (.layoutTooLarge s.text)

/-- **An error names a type on the way and what is wrong with it.** -/
theorem blames_of_nested {e : Error} (ht : t.isPointer = false)
    (hchain : ∀ s ∈ chain, Relation.TransGen u.Contains s t) (h : nested u chain t = .error e) :
    ∃ s, Relation.ReflTransGen u.Contains t s ∧ Blames u s e := by
  induction chain, t using Universe.containment_induction u generalizing e with
  | h chain t ih =>
    cases hd : u.findType t with
    | error e' =>
      cases h.symm.trans (nested_of_findType hd chain)
      rw [Universe.eq_of_findType_error ht hd]
      exact ⟨t, .refl, .missing hd⟩
    | ok d =>
      cases hsize : d.primitiveSize with
      | some size => cases h.symm.trans (nested_eq_of_builtIn hd hsize chain)
      | none =>
        rw [nested_eq_of_composite hd hsize, map_eq_error] at h
        rcases of_placeFields_error h with
          ⟨f, hf, herr⟩ | ⟨rfl, first, rest, hfields, hfirst, hlarge⟩
        · obtain ⟨hp, herr⟩ := of_nestedSize_error herr
          have hft : u.Contains t f.type := ⟨d, hd, hsize, hp, f, hf, rfl⟩
          have hbelow := Universe.transGen_of_chain hchain hft
          rcases herr with ⟨hmem, rfl⟩ | ⟨hmem, herr⟩
          · exact ⟨f.type, .single hft, .cyclic (hbelow _ hmem)⟩
          · obtain ⟨s, hs, hblames⟩ := ih f.type hft hmem hp hbelow herr
            exact ⟨s, .head hft hs, hblames⟩
        · rw [Nat.zero_add] at hlarge
          refine ⟨t, .refl, .tooLarge ⟨d, first, rest, known _, hd, hsize, hfields, ?_, hlarge⟩⟩
          intro f hf
          exact occupies_of_nestedSize (hfirst f hf) fun hp _ hl => (occupies_of_nested hp hl).1

theorem blames_of_direct {e : Error} (ht : t.isPointer = false) (h : direct u t = .error e) :
    ∃ s, Relation.ReflTransGen u.Contains t s ∧ Blames u s e :=
  blames_of_nested ht (List.forall_mem_nil _) h

/-- **A type has a layout iff it has a size.** -/
theorem exists_direct_iff (ht : t.isPointer = false) :
    (∃ l, direct u t = .ok l) ↔ u.Sizable t := by
  constructor
  · rintro ⟨l, hl⟩
    exact sizable_of_nested ht (show nested u [] t = .ok l from hl)
  · intro hsizable
    cases hl : direct u t with
    | ok l => exact ⟨l, rfl⟩
    | error e =>
      obtain ⟨s, hs, hblames⟩ := blames_of_direct ht hl
      cases hblames with
      | missing h =>
        obtain ⟨d, hd⟩ := hsizable.declared s hs
        cases h.symm.trans hd
      | cyclic h => exact absurd h (hsizable.acyclic s hs)
      | tooLarge h =>
        obtain ⟨n, hn⟩ := Universe.exists_occupies [] s nofun
          (fun b hb => hsizable.declared b (hs.trans hb))
          fun b hb => hsizable.acyclic b (hs.trans hb)
        have hlarge := h.maxSize_lt hn (Universe.isPointer_of_reflTransGen ht hs)
        exact absurd (hsizable.bounded s hs n hn) (Nat.not_le.2 hlarge)

end Layout

/-- The layout of a type that consists of its fields. -/
structure TypeLayout.Describes (l : TypeLayout) (u : Universe) (d : TypeDecl) : Prop where
  fields : l.fields.map (fun f => (f.name, f.type)) =
    d.instanceFields.map fun f => (f.name, f.type)
  sizes : ∀ f ∈ l.fields, sizeOf u f.type = .ok f.size ∧ (f.type.isPointer = true → f.size = 1)
  offsets : ∀ before f after, l.fields = before ++ f :: after →
    f.offset = (before.map (·.size)).sum
  size : l.size = (l.fields.map (·.size)).sum
  inside : ∀ f ∈ l.fields, f.offset + f.size ≤ l.size
  /-- Every byte belongs to exactly one field. -/
  tiled : ∀ k < l.size, ∃! i : Nat, ∃ f : FieldLayout,
    l.fields[i]? = some f ∧ f.offset ≤ k ∧ k < f.offset + f.size

namespace Layout

variable {u : Universe} {chain : List TypeName} {t : TypeName} {l : TypeLayout} {d : TypeDecl}

theorem sizeOf_of_nestedSize {n : Nat} (h : nestedSize u chain t = .ok n) : sizeOf u t = .ok n := by
  rw [sizeOf_eq_direct, fieldSize]
  by_cases hp : t.isPointer = true
  · rw [if_pos hp, ← h, nestedSize_pointer hp]
    rfl
  · rw [if_neg hp]
    obtain ⟨l, hl, rfl⟩ := of_nestedSize (by simpa using hp) h
    exact bind_eq_ok.2 ⟨l, nested_of_nested hl fun _ _ => List.not_mem_nil, rfl⟩

theorem le_maxSize_of_sizeOf {n : Nat} (h : sizeOf u t = .ok n) : n ≤ maxSize := by
  rw [sizeOf_eq_direct, fieldSize] at h
  split at h
  · cases h
    exact (by decide : pointerSize ≤ maxSize)
  · next hp =>
    obtain ⟨l, hl, h⟩ := bind_eq_ok.1 h
    cases pure_eq_ok.1 h
    exact (occupies_of_nested (by simpa using hp) hl).2

/-- **A layout puts the fields of the type one after the other.** -/
theorem describes_of_direct (h : direct u t = .ok l) (hd : u.findType t = .ok d)
    (hsize : d.primitiveSize = none) : l.Describes u d := by
  obtain ⟨size, hsizes, rfl⟩ : ∃ size : TypeName → Nat,
      (∀ f ∈ d.instanceFields, nestedSize u [t] f.type = .ok (size f.type)) ∧ l =
        ⟨t, arrange size 0 d.instanceFields, (d.instanceFields.map fun f => size f.type).sum⟩ := by
    obtain ⟨d', hd', ⟨n, hn, -⟩ | ⟨-, size, hsizes, hl, -⟩⟩ := of_nested h
    · cases hd.symm.trans hd'
      cases hsize.symm.trans hn
    · cases hd.symm.trans hd'
      exact ⟨size, hsizes, hl⟩
  have hplaces : Consecutive 0 (arrange size 0 d.instanceFields) := consecutive_arrange
  have hsum : (d.instanceFields.map fun f => size f.type).sum =
      ((arrange size 0 d.instanceFields).map (·.size)).sum := by
    rw [map_size_arrange]
  refine ⟨map_arrange, fun f hf => ?_, fun before f after hsplit => ?_, hsum, fun f hf => ?_,
    fun k hk => ?_⟩
  · obtain ⟨g, hg, htype, hn⟩ := exists_of_mem_arrange hf
    rw [htype, hn]
    refine ⟨sizeOf_of_nestedSize (hsizes g hg), fun hp => ?_⟩
    exact Except.ok.inj ((hsizes g hg).symm.trans (nestedSize_pointer hp))
  · change arrange size 0 d.instanceFields = _ at hsplit
    rw [hsplit] at hplaces
    rw [hplaces.offset_eq, Nat.zero_add]
  · change _ ≤ (d.instanceFields.map fun f => size f.type).sum
    have hbounds := hplaces.bounds hf
    omega
  · change k < (d.instanceFields.map fun f => size f.type).sum at hk
    exact hplaces.existsUnique (Nat.zero_le k) (by omega)

end Layout

/-- **A size is computed iff there is one.** The computation comes to an end: it can be cut off at a
depth that depends on the number of types only. It succeeds iff every type on the way is declared,
does not hold itself and is not too large. Then the fields of the layout take up a value from its
start to its end. Otherwise a type on the way is to blame. -/
theorem sizeOf_iff_sizable (u : Universe) (t : TypeName) (ht : t.isPointer = false) :
    (∀ out, Layout.cutOff u out (u.types.length + 2) [] t = layoutOf u t) ∧
    ((∃ n, sizeOf u t = .ok n) ↔ u.Sizable t) ∧
    (∀ n, sizeOf u t = .ok n → u.Occupies t n ∧ ∃ l, layoutOf u t = .ok l ∧ l.type = t ∧
      l.size = n ∧ ∀ d, u.findType t = .ok d → d.primitiveSize = none → l.Describes u d) ∧
    ∀ e, sizeOf u t = .error e →
      ∃ s, Relation.ReflTransGen u.Contains t s ∧ Layout.Blames u s e := by
  have hsizeOf : sizeOf u t = (Layout.direct u t).map (·.size) := by
    rw [sizeOf_eq_direct, Layout.fieldSize, ht]
    rfl
  refine ⟨fun out => ?_, ?_, fun n hn => ?_, fun e he => ?_⟩
  · rw [layoutOf_eq_direct]
    exact Layout.cutOff_eq_direct u out t
  · rw [← Layout.exists_direct_iff ht, hsizeOf]
    constructor
    · rintro ⟨n, hn⟩
      obtain ⟨l, hl, -⟩ := map_eq_ok.1 hn
      exact ⟨l, hl⟩
    · rintro ⟨l, hl⟩
      exact ⟨l.size, map_eq_ok.2 ⟨l, hl, rfl⟩⟩
  · rw [hsizeOf] at hn
    obtain ⟨l, hl, rfl⟩ := map_eq_ok.1 hn
    have hnested : Layout.nested u [] t = .ok l := hl
    have htype : l.type = t := by
      obtain ⟨d, hd, ⟨size, hsize, rfl⟩ | ⟨hsize, size, hsizes, rfl, hend⟩⟩ :=
        Layout.of_nested hnested
      · rfl
      · rfl
    exact ⟨(Layout.occupies_of_nested ht hnested).1, l, (layoutOf_eq_direct u t).trans hl,
      htype, rfl, fun d => Layout.describes_of_direct hl⟩
  · rw [hsizeOf, map_eq_error] at he
    exact Layout.blames_of_direct ht he

/-- A sprite holds a position, a truth value and a pointer. -/
theorem sizeOf_iff_sizable_sprite :
    let u : Universe := ⟨[{
      name := "Game", entryPoint := none
      types :=
        [{ name := .byte, primitiveSize := some 1 },
         { name := .boolean, primitiveSize := some 1 },
         { name := ⟨"Game.Position"⟩
           fields := [{ name := "x", type := .byte }, { name := "y", type := .byte }] },
         { name := ⟨"Game.Sprite"⟩
           fields :=
             [{ name := "visible", type := .boolean },
              { name := "position", type := ⟨"Game.Position"⟩ },
              { name := "frame", type := ⟨"System.Byte*"⟩ },
              { name := "count", type := .byte, isStatic := true }] }] }]⟩
    let sprite : TypeName := ⟨"Game.Sprite"⟩
    sprite.isPointer = false ∧ u.Sizable sprite ∧ u.Occupies sprite 4 ∧
      ∃ l, layoutOf u sprite = .ok l ∧ l.size = 4 := by
  intro u sprite
  have hp : sprite.isPointer = false := by decide
  have hsize : sizeOf u sprite = .ok 4 := by decide +kernel
  obtain ⟨-, hiff, hlayout, -⟩ := sizeOf_iff_sizable u sprite hp
  obtain ⟨hoccupies, l, hl, -, hl4, -⟩ := hlayout 4 hsize
  exact ⟨hp, hiff.1 ⟨4, hsize⟩, hoccupies, l, hl, hl4⟩

end Cartridge
