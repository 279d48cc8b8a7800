import Cartridge.Resolution
import Cartridge.Proofs.Selection
import Mathlib.Data.List.DropRight

/-!
# What resolution assigns

`Resolution.ofRoutines` assigns labels in a fixed order, which **`Resolution.of_ofRoutines`** writes
out: scratch memory, static fields, the slots of methods, then aliases, then types and the sizes of
pointers. `Resolution.exists_assign` reads from it that every label which stands for memory or for
a number has an assignment under its name, if it is declared.
-/

namespace Cartridge

/-! ### Type names -/

namespace TypeName

theorem symbol_elementType (t : TypeName) : t.elementType.symbol = t.symbol := by
  rw [symbol, symbol, elementType_elementType]

end TypeName

/-! ### Assignments -/

namespace Resolution

/-- The entries assign the labels, one by one. -/
def Assigns (es : List Entry) (ls : List Label) : Prop :=
  List.Forall₂ (fun e l => ∃ value, e = assign l value) es ls

variable {u : Universe} {es es' : List Entry} {ls ls' : List Label}

namespace Assigns

theorem append (h : Assigns es ls) (h' : Assigns es' ls') : Assigns (es ++ es') (ls ++ ls') := by
  induction h with
  | nil => exact h'
  | cons he _ ih => exact .cons he ih

theorem of_mem (h : Assigns es ls) {e : Entry} (he : e ∈ es) : ∃ l value, e = assign l value := by
  induction h with
  | nil => cases he
  | @cons e' l es ls he' _ ih =>
    rcases List.mem_cons.1 he with rfl | he
    · exact ⟨l, he'⟩
    · exact ih he

theorem exists_mem (h : Assigns es ls) {l : Label} (hl : l ∈ ls) :
    ∃ value, assign l value ∈ es := by
  induction h with
  | nil => cases hl
  | @cons e l' es ls he _ ih =>
    rcases List.mem_cons.1 hl with rfl | hl
    · obtain ⟨value, rfl⟩ := he
      exact ⟨value, List.mem_cons_self ..⟩
    · obtain ⟨value, hmem⟩ := ih hl
      exact ⟨value, List.mem_cons_of_mem _ hmem⟩

end Assigns

/-- The second resolution has the assignments of the first and then those of the labels. -/
def Extends (r r' : Resolution) (ls : List Label) : Prop :=
  ∃ es, r'.assignments = r.assignments ++ es ∧ Assigns es ls

theorem extends_of_place {r r' : Resolution} {l : Label} {size : Nat}
    (h : r.place l size = .ok r') : Extends r r' [l] := by
  obtain ⟨⟨address, ram⟩, -, h⟩ := bind_eq_ok.1 h
  cases pure_eq_ok.1 h
  exact ⟨_, rfl, .cons ⟨_, rfl⟩ .nil⟩

/-- A step that assigns some labels, repeated, assigns all of them in turn. -/
theorem extends_of_foldlM {α : Type} {step : Resolution → α → Except Error Resolution}
    {labels : α → List Label}
    (hstep : ∀ r a r', step r a = .ok r' → Extends r r' (labels a)) {as : List α}
    {r r' : Resolution} (h : as.foldlM step r = .ok r') : Extends r r' (as.flatMap labels) := by
  induction as generalizing r with
  | nil =>
    cases pure_eq_ok.1 h
    exact ⟨[], (List.append_nil _).symm, .nil⟩
  | cons a as ih =>
    rw [List.foldlM_cons] at h
    obtain ⟨mid, hmid, h⟩ := bind_eq_ok.1 h
    obtain ⟨es, hes, hls⟩ := hstep r a mid hmid
    obtain ⟨es', hes', hls'⟩ := ih h
    exact ⟨es ++ es', by rw [hes', hes, List.append_assoc], hls.append hls'⟩

theorem extends_of_placeAll {r r' : Resolution} {slots : List (Label × TypeName)}
    (h : r.placeAll u slots = .ok r') : Extends r r' (slots.map (·.1)) := by
  rw [List.map_eq_flatMap]
  refine extends_of_foldlM (fun r slot r' h => ?_) h
  obtain ⟨size, -, h⟩ := bind_eq_ok.1 h
  exact extends_of_place h

/-- The labels of the slots of a method that are referred to. -/
def slotLabels (u : Universe) (referenced : List Label) (m : Member) : List Label :=
  match u.findMethod m with
  | .ok d => ((slots m d).filter fun slot => referenced.contains slot.1).map (·.1)
  | .error _ => []

theorem extends_of_placeSlots {refs : List Label} {m : Member} {r r' : Resolution}
    (h : placeSlots u refs r m = .ok r') : Extends r r' (slotLabels u refs m) := by
  obtain ⟨d, hd, h⟩ := bind_eq_ok.1 h
  rw [slotLabels, hd]
  exact extends_of_placeAll h

/-- The labels that describe a type. -/
def typeLabels (t : TypeName) : List Label := [.type t, .pointerType t, .size t]

theorem assigns_of_assignTypes {refs : List Label} (h : assignTypes u refs = .ok es) :
    Assigns es
      ((numbered refs).flatMap typeLabels ++ [.pointerSize .short, .pointerSize .long]) := by
  obtain ⟨parts, hparts, h⟩ := bind_eq_ok.1 h
  cases pure_eq_ok.1 h
  have hflat : ∀ {ts : List (TypeName × Nat)} {parts : List (List Entry)},
      List.Forall₂ (fun p part => assignType u p.1 p.2 = .ok part) ts parts →
        Assigns parts.flatten (ts.flatMap fun p => typeLabels p.1) := by
    intro ts parts hall
    induction hall with
    | nil => exact .nil
    | cons hpart _ ih =>
      obtain ⟨size, -, hpart⟩ := bind_eq_ok.1 hpart
      cases pure_eq_ok.1 hpart
      exact Assigns.append (.cons ⟨_, rfl⟩ (.cons ⟨_, rfl⟩ (.cons ⟨_, rfl⟩ .nil))) ih
  have htypes := hflat (mapM_eq_ok.1 hparts)
  rw [← List.flatMap_map, List.zipIdx_map_fst] at htypes
  exact htypes.append (.cons ⟨_, rfl⟩ (.cons ⟨_, rfl⟩ .nil))

/-- The assignment of an alias. -/
def aliasEntry (a : String × Member × FieldDecl) : Entry :=
  .directive (.aliasAssign a.1 (.global a.2.1))

/-- Aliases are distinct and begin with the mark of aliases. -/
theorem of_assignAliases {taken : List (String × Member)}
    {as : List (String × Member × FieldDecl)} (h : assignAliases taken as = .ok es) :
    es = as.map aliasEntry ∧ (as.map (·.1)).Nodup ∧
      ∀ a ∈ as, aliasMark.toList <+: a.1.toList ∧ a.1 ∉ taken.map (·.1) := by
  induction as generalizing taken es with
  | nil =>
    cases h
    exact ⟨rfl, List.nodup_nil, fun a ha => by cases ha⟩
  | cons a as ih =>
    obtain ⟨name, field, d⟩ := a
    unfold assignAliases at h
    split at h
    · cases h
    · split at h
      · cases h
      · rename_i hmark
        split at h
        · cases h
        · rename_i hfree
          obtain ⟨rest, hrest, h⟩ := bind_eq_ok.1 h
          cases pure_eq_ok.1 h
          obtain ⟨rfl, hnodup, hall⟩ := ih hrest
          -- The rest is assigned with this name taken, so that it is not there again.
          have hname : name ∉ as.map (·.1) := by
            intro hmem
            obtain ⟨a, ha, rfl⟩ := List.mem_map.1 hmem
            exact (hall a ha).2 (List.mem_cons_self ..)
          refine ⟨rfl, List.nodup_cons.2 ⟨hname, hnodup⟩, fun a ha => ?_⟩
          rcases List.mem_cons.1 ha with rfl | ha
          · refine ⟨by simpa using hmark, fun hmem => ?_⟩
            obtain ⟨t, ht, rfl⟩ := List.mem_map.1 hmem
            exact absurd (List.lookup_eq_none_iff.1 hfree t ht) (by simp)
          · exact ⟨(hall a ha).1, fun hmem => (hall a ha).2 (List.mem_cons_of_mem _ hmem)⟩

/-- **What resolution assigns.** -/
theorem of_ofRoutines {bounds : RamBounds} {routines : List Routine} {res : Resolution}
    (h : ofRoutines u bounds routines = .ok res) :
    ∃ placed types, res.assignments = placed ++ (aliases u).map aliasEntry ++ types ∧
      Assigns placed (scratch ++ (globals u (referenced routines)).map (·.1) ++
        (owners routines (referenced routines)).flatMap (slotLabels u (referenced routines))) ∧
      Assigns types ((numbered (referenced routines)).flatMap typeLabels ++
        [.pointerSize .short, .pointerSize .long]) ∧
      ((aliases u).map (·.1)).Nodup ∧ ∀ a ∈ aliases u, aliasMark.toList <+: a.1.toList := by
  obtain ⟨r₁, h₁, h⟩ := bind_eq_ok.1 h
  obtain ⟨r₂, h₂, h⟩ := bind_eq_ok.1 h
  obtain ⟨r₃, h₃, h⟩ := bind_eq_ok.1 h
  obtain ⟨aliasEntries, haliases, h⟩ := bind_eq_ok.1 h
  obtain ⟨typeEntries, htypes, h⟩ := bind_eq_ok.1 h
  cases pure_eq_ok.1 h
  have hscratch : Extends ⟨[], .empty bounds⟩ r₁ (scratch.flatMap fun l => [l]) :=
    extends_of_foldlM (fun r l r' h => extends_of_place h) h₁
  obtain ⟨es₁, hes₁, hls₁⟩ := hscratch
  obtain ⟨es₂, hes₂, hls₂⟩ := extends_of_placeAll h₂
  obtain ⟨es₃, hes₃, hls₃⟩ := extends_of_foldlM (fun r m r' h => extends_of_placeSlots h) h₃
  obtain ⟨rfl, hnodup, hmark⟩ := of_assignAliases haliases
  refine ⟨es₁ ++ es₂ ++ es₃, typeEntries, ?_, (hls₁.append hls₂).append hls₃,
    assigns_of_assignTypes htypes, hnodup, fun a ha => (hmark a ha).1⟩
  rw [hes₃, hes₂, hes₁, List.nil_append]

/-! ### Referenced labels are assigned -/

theorem mem_globals {refs : List Label} {f : Member} (hl : .global f ∈ refs)
    (hd : (Label.global f).Declared u) (hplain : f.declaringType.isPointer = false) :
    .global f ∈ (globals u refs).map (·.1) := by
  obtain ⟨-, d, hfind, hram⟩ := hd
  obtain ⟨t, ht, htype, hmem, hname⟩ := Universe.of_findField hfind
  have hmember : t.member d.name = f := by
    rw [TypeDecl.member, htype, hname, TypeName.elementType_of_not_isPointer hplain]
  have hneeds : needsMemory refs t d = true := by
    rw [needsMemory, hram, hmember]
    simp [hl]
  refine List.mem_map.2 ⟨(.global f, d.type), List.mem_flatMap.2 ⟨t, ht, ?_⟩, rfl⟩
  refine List.mem_map.2 ⟨d, ?_, by rw [hmember]⟩
  exact List.mem_mergeSort.2 (List.mem_filter.2 ⟨hmem, hneeds⟩)

theorem mem_owners_slotLabels {routines : List Routine} {refs : List Label} {l : Label} {m : Member}
    {d : MethodDecl} (hl : l ∈ refs) (hm : l.owner? = some m) (hd : u.findMethod m = .ok d)
    (hslot : l ∈ (slots m d).map (·.1)) :
    l ∈ (owners routines refs).flatMap (slotLabels u refs) := by
  have howner : m ∈ owners routines refs :=
    List.mem_eraseDups.2 (List.mem_append_right _ (List.mem_filterMap.2 ⟨l, hl, hm⟩))
  refine List.mem_flatMap.2 ⟨m, howner, ?_⟩
  obtain ⟨slot, hmem, rfl⟩ := List.mem_map.1 hslot
  rw [slotLabels, hd]
  exact List.mem_map.2 ⟨slot, List.mem_filter.2 ⟨hmem, by simpa using hl⟩, rfl⟩

theorem mem_indexed {α : Type} {xs : List α} {k : UInt16} (hk : k.toNat < xs.length)
    (label : UInt16 → Label) (type : α → TypeName) :
    label k ∈ (xs.zipIdx.map fun p => (label (UInt16.ofNat p.2), type p.1)).map (·.1) := by
  have hmem : (xs[k.toNat], k.toNat) ∈ xs.zipIdx :=
    List.mem_zipIdx_iff_getElem?.2 (List.getElem?_eq_getElem hk)
  rw [List.map_map]
  refine List.mem_map.2 ⟨_, hmem, ?_⟩
  rw [Function.comp_apply, UInt16.ofNat_toNat]

theorem argument_mem_slots (m : Member) {d : MethodDecl} {k : UInt16}
    (hk : k.toNat < d.parameters.length) : .argument m k ∈ (slots m d).map (·.1) := by
  rw [slots, List.map_append, List.map_append]
  exact List.mem_append_left _ (List.mem_append_left _ (mem_indexed hk (.argument m) (·.type)))

theorem localSlot_mem_slots (m : Member) {d : MethodDecl} {k : UInt16}
    (hk : k.toNat < d.locals.length) : .localSlot m k ∈ (slots m d).map (·.1) := by
  rw [slots, List.map_append, List.map_append]
  exact List.mem_append_left _ (List.mem_append_right _ (mem_indexed hk (.localSlot m) id))

theorem returnValue_mem_slots (m : Member) (d : MethodDecl) :
    .returnValue m ∈ (slots m d).map (·.1) := by
  rw [slots, List.map_append]
  exact List.mem_append_right _ (List.mem_singleton_self _)

theorem mem_numbered {refs : List Label} {l : Label} {t : TypeName} (hl : l ∈ refs)
    (ht : l.describedType? = some t) {l' : Label} (hl' : l' ∈ typeLabels t) :
    l' ∈ (numbered refs).flatMap typeLabels := by
  refine List.mem_flatMap.2 ⟨t, ?_, hl'⟩
  exact List.mem_eraseDups.2 (List.mem_append_right _ (List.mem_filterMap.2 ⟨l, hl, ht⟩))

end Resolution

/-- Whether a label stands for memory or for a number. -/
def Label.needsValue : Label → Bool
  | .argument .. | .localSlot .. | .global _ | .returnValue _ | .type _ | .pointerType _ | .size _
  | .pointerSize _ => true
  | _ => false

namespace Resolution

variable {u : Universe}

/-- **Every label that needs a value gets one under its name.** -/
theorem exists_assign {bounds : RamBounds} {routines : List Routine} {res : Resolution}
    (h : ofRoutines u bounds routines = .ok res) {l : Label} (hl : l ∈ referenced routines)
    (hd : l.Declared u) (hplain : ∀ f, l = .global f → f.declaringType.isPointer = false)
    (hv : l.needsValue = true) :
    ∃ l' value, assign l' value ∈ res.assignments ∧ l'.text = l.text := by
  obtain ⟨placed, types, hres, hplaced, htypes, -⟩ := of_ofRoutines h
  have hofPlaced : ∀ l', l' ∈ scratch ++ (globals u (referenced routines)).map (·.1) ++
      (owners routines (referenced routines)).flatMap (slotLabels u (referenced routines)) →
      ∃ value, assign l' value ∈ res.assignments := by
    intro l' hl'
    obtain ⟨value, hmem⟩ := hplaced.exists_mem hl'
    exact ⟨value, hres ▸ List.mem_append_left _ (List.mem_append_left _ hmem)⟩
  have hofTypes : ∀ l', l' ∈ (numbered (referenced routines)).flatMap typeLabels ++
      [.pointerSize .short, .pointerSize .long] → ∃ value, assign l' value ∈ res.assignments := by
    intro l' hl'
    obtain ⟨value, hmem⟩ := htypes.exists_mem hl'
    exact ⟨value, hres ▸ List.mem_append_right _ hmem⟩
  have hofSlots : ∀ m d, l.owner? = some m → u.findMethod m = .ok d → l ∈ (slots m d).map (·.1) →
      ∃ l' value, assign l' value ∈ res.assignments ∧ l'.text = l.text := by
    intro m d hm hd hslot
    obtain ⟨value, hmem⟩ :=
      hofPlaced l (List.mem_append_right _ (mem_owners_slotLabels hl hm hd hslot))
    exact ⟨l, value, hmem, rfl⟩
  -- A label of a type has the name of the label for the type without pointer marks.
  have hofType : ∀ t l', l.describedType? = some t → l' ∈ typeLabels t → l'.text = l.text →
      ∃ l' value, assign l' value ∈ res.assignments ∧ l'.text = l.text := by
    intro t l' ht hl' htext
    obtain ⟨value, hmem⟩ := hofTypes l' (List.mem_append_left _ (mem_numbered hl ht hl'))
    exact ⟨l', value, hmem, htext⟩
  cases l with
  | argument m k =>
    obtain ⟨d, hd, hk⟩ := hd
    exact hofSlots m d rfl hd (argument_mem_slots m hk)
  | localSlot m k =>
    obtain ⟨d, hd, hk⟩ := hd
    exact hofSlots m d rfl hd (localSlot_mem_slots m hk)
  | returnValue m =>
    obtain ⟨d, hd⟩ := hd
    exact hofSlots m d rfl hd (returnValue_mem_slots m d)
  | global f =>
    obtain ⟨value, hmem⟩ := hofPlaced (.global f) (List.mem_append_left _
      (List.mem_append_right _ (mem_globals hl hd (hplain f rfl))))
    exact ⟨_, value, hmem, rfl⟩
  | type t =>
    exact hofType t.elementType (.type t.elementType) rfl (by simp [typeLabels])
      (congrArg ("TYPE_" ++ ·) t.symbol_elementType)
  | pointerType t =>
    exact hofType t.elementType (.pointerType t.elementType) rfl (by simp [typeLabels])
      (congrArg ("TYPE_" ++ · ++ "_PTR") t.symbol_elementType)
  | size t =>
    exact hofType t.elementType (.size t.elementType) rfl (by simp [typeLabels])
      (congrArg ("SIZE_" ++ ·) t.symbol_elementType)
  | pointerSize w =>
    obtain ⟨value, hmem⟩ := hofTypes (.pointerSize w)
      (List.mem_append_right _ (by cases w <;> simp))
    exact ⟨_, value, hmem, rfl⟩
  | _ => cases hv

end Resolution

end Cartridge
