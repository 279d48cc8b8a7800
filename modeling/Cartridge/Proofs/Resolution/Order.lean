import Cartridge.Proofs.Resolution.Memory
import Cartridge.Proofs.Values

/-!
# Addresses do not depend on the order of declarations and references

Two programs are `Reordered` if they differ only in the order in which types declare their static
fields. Such programs give every type the same size (`Universe.Reordered.sizeOf_eq`), since a value
holds instance fields only, and declare the same methods (`Universe.Reordered.findMethod_eq`).

Static fields get their memory sorted by name, and names are distinct within a type, so that the
order of declaration is forgotten (`statics_eq`). Which labels get memory depends on the set of
labels that routines mention, and the order of methods on where each is mentioned first
(`wanted_eq`).

**`ram_of_reordered`**: the same labels get the same addresses and sizes in the same order.
-/

namespace Cartridge

/-! ### Programs that differ in the order of static fields -/

/-- Two declarations of a type that differ only in the order of static fields. -/
structure TypeDecl.Reordered (t t' : TypeDecl) : Prop where
  name : t.name = t'.name
  fields : t.fields.Perm t'.fields
  /-- The other fields are in the same order. -/
  instanceFields : t.instanceFields = t'.instanceFields
  methods : t.methods = t'.methods
  primitiveSize : t.primitiveSize = t'.primitiveSize

theorem TypeDecl.Reordered.member_eq {t t' : TypeDecl} (h : t.Reordered t') :
    t.member = t'.member := by
  funext name
  rw [member, member, h.name]

/-- Two assemblies that differ only in the order of static fields. -/
structure Assembly.Reordered (a a' : Assembly) : Prop where
  name : a.name = a'.name
  types : List.Forall₂ TypeDecl.Reordered a.types a'.types
  entryPoint : a.entryPoint = a'.entryPoint

namespace Universe

/-- Two programs that differ only in the order of static fields. -/
def Reordered (u u' : Universe) : Prop :=
  List.Forall₂ Assembly.Reordered u.assemblies u'.assemblies

namespace Reordered

variable {u u' : Universe}

theorem types (h : u.Reordered u') : List.Forall₂ TypeDecl.Reordered u.types u'.types :=
  List.rel_flatMap h fun _ _ ha => ha.types

theorem map_name (h : u.Reordered u') : u.types.map (·.name) = u'.types.map (·.name) := by
  rw [← List.forall₂_eq_eq_eq, List.forall₂_map_left_iff, List.forall₂_map_right_iff]
  exact h.types.imp fun _ _ ht => ht.name

/-- A type is declared in both programs or in neither. -/
theorem findType (h : u.Reordered u') (t : TypeName) :
    (∃ e, u.findType t = .error e ∧ u'.findType t = .error e) ∨
      ∃ d d', u.findType t = .ok d ∧ u'.findType t = .ok d' ∧ d.Reordered d' := by
  unfold Universe.findType
  have htypes := h.types
  generalize u.types = ts, u'.types = ts' at htypes
  induction htypes with
  | nil => exact .inl ⟨_, rfl, rfl⟩
  | @cons d d' _ _ hd _ ih =>
    simp only [List.find?_cons, ← hd.name]
    by_cases heq : (d.name == t.elementType) = true
    · rw [heq]
      exact .inr ⟨d, d', rfl, rfl, hd⟩
    · rw [Bool.eq_false_iff.2 heq]
      exact ih

theorem findMethod_eq (h : u.Reordered u') (m : Member) : u.findMethod m = u'.findMethod m := by
  unfold Universe.findMethod
  rcases h.findType m.declaringType with ⟨e, he, he'⟩ | ⟨d, d', hd, hd', hdecl⟩
  · rw [he, he']
  · have hmethod : d.method? m.name = d'.method? m.name := by
      rw [TypeDecl.method?, TypeDecl.method?, hdecl.methods]
    rw [hd, hd']
    simp only [Except.toOption, Option.bind_some, hmethod]

/-- A layout does not see static fields. -/
theorem build_eq {m : Type → Type} [Monad m] [MonadExceptOf Error m] (h : u.Reordered u') :
    Layout.build (m := m) u = Layout.build u' := by
  funext layoutOf t
  unfold Layout.build
  rcases h.findType t with ⟨e, he, he'⟩ | ⟨d, d', hd, hd', hdecl⟩
  · rw [he, he']
  · rw [hd, hd']
    simp only [hdecl.primitiveSize, hdecl.instanceFields]

/-- **Sizes do not depend on the order of static fields.** -/
theorem sizeOf_eq (h : u.Reordered u') : sizeOf u = sizeOf u' := by
  funext t
  unfold sizeOf LayoutTable.sizeOf LayoutTable.layoutOf Layout.descent
  rw [h.build_eq, h.map_name]

end Reordered

end Universe

namespace Resolution

/-! ### Sorting by name -/

/-- Fields of distinct names are sorted alike in whatever order they come. -/
theorem mergeSort_eq_of_perm {fields fields' : List FieldDecl}
    (hnames : (fields.map (·.name)).Nodup) (h : fields.Perm fields') :
    (fields.mergeSort fun a b => decide (a.name ≤ b.name)) =
      fields'.mergeSort fun a b => decide (a.name ≤ b.name) := by
  have hsorted (fs : List FieldDecl) :
      (fs.mergeSort fun a b => decide (a.name ≤ b.name)).Pairwise fun a b => a.name ≤ b.name := by
    refine (List.pairwise_mergeSort (fun a b c hab hbc => ?_) (fun a b => ?_) fs).imp
      fun hab => of_decide_eq_true hab
    · exact decide_eq_true (String.le_trans (of_decide_eq_true hab) (of_decide_eq_true hbc))
    · simpa using String.le_total a.name b.name
  have hperm := List.mergeSort_perm fields fun a b => decide (a.name ≤ b.name)
  have hperm' := List.mergeSort_perm fields' fun a b => decide (a.name ≤ b.name)
  refine List.Perm.eq_of_pairwise (fun a b ha hb hab hba => ?_) (hsorted fields) (hsorted fields')
    (hperm.trans (h.trans hperm'.symm))
  exact List.inj_on_of_nodup_map hnames (hperm.mem_iff.1 ha) (h.mem_iff.2 (hperm'.mem_iff.1 hb))
    (String.le_antisymm hab hba)

/-! ### What is placed -/

variable {u u' : Universe} {rs rs' : List Routine}

/-- The static fields of a type that need memory come in the same order. -/
theorem statics_eq {t t' : TypeDecl} (ht : t.Reordered t') (hnames : (t.fields.map (·.name)).Nodup)
    {refs refs' : List Label} (hrefs : ∀ l, refs.contains l = refs'.contains l) :
    statics refs t = statics refs' t' := by
  have hneeds : needsMemory refs t = needsMemory refs' t' := by
    funext f
    rw [needsMemory, needsMemory, hrefs, ht.member_eq]
  unfold statics
  rw [hneeds]
  exact mergeSort_eq_of_perm (hnames.sublist (List.filter_sublist.map _)) (ht.fields.filter _)

theorem globals_eq (hu : u.Reordered u') (hnames : ∀ t ∈ u.types, (t.fields.map (·.name)).Nodup)
    {refs refs' : List Label} (hrefs : ∀ l, refs.contains l = refs'.contains l) :
    globals u refs = globals u' refs' := by
  unfold globals
  have htypes := hu.types
  generalize u.types = ts, u'.types = ts' at htypes hnames
  induction htypes with
  | nil => rfl
  | @cons t t' _ _ ht _ ih =>
    obtain ⟨hfirst, hrest⟩ := List.forall_mem_cons.1 hnames
    rw [List.flatMap_cons, List.flatMap_cons, statics_eq ht hfirst hrefs, ih hrest, ht.member_eq]

/-- The methods that own a label which the routines mention, in order of first occurrence. -/
def mentionedOwners (rs : List Routine) : List Member :=
  ((rs.flatMap fun r => r.labels ++ r.lifted).filterMap (·.owner?)).eraseDups

theorem owners_eq (hmethods : rs.map (·.method) = rs'.map (·.method))
    (howners : mentionedOwners rs = mentionedOwners rs') :
    owners rs (referenced rs) = owners rs' (referenced rs') := by
  unfold owners
  rw [hmethods]
  refine eraseDups_append_congr rfl ?_
  rw [referenced, referenced, eraseDups_filterMap_eraseDups, eraseDups_filterMap_eraseDups]
  exact howners

theorem contains_referenced (hlabels : ∀ l, (∃ r ∈ rs, r.Mentions l) ↔ ∃ r ∈ rs', r.Mentions l)
    (l : Label) : (referenced rs).contains l = (referenced rs').contains l := by
  rw [Bool.eq_iff_iff, List.contains_iff_mem, List.contains_iff_mem, mem_referenced,
    mem_referenced, hlabels]

/-- **The same labels are placed in the same order**, with the same types. -/
theorem wanted_eq (hu : u.Reordered u') (hnames : ∀ t ∈ u.types, (t.fields.map (·.name)).Nodup)
    (hmethods : rs.map (·.method) = rs'.map (·.method))
    (hlabels : ∀ l, (∃ r ∈ rs, r.Mentions l) ↔ ∃ r ∈ rs', r.Mentions l)
    (howners : mentionedOwners rs = mentionedOwners rs') : wanted u rs = wanted u' rs' := by
  have hrefs := contains_referenced hlabels
  have hslots : wantedSlots u (referenced rs) = wantedSlots u' (referenced rs') := by
    funext m
    simp only [wantedSlots, hu.findMethod_eq, hrefs]
  rw [wanted, wanted, globals_eq hu hnames hrefs, owners_eq hmethods howners, hslots]

/-- **Addresses do not depend on the order of declarations and references.** Take two programs that
differ only in the order in which types declare their static fields, whose names are distinct within
a type, and two lists of routines of the same methods that mention the same labels, with the owners
of these in the same order of first occurrence. If both are resolved, then the same labels have the
same addresses and sizes in the same order, up to the same next free address. -/
theorem ram_of_reordered (hu : u.Reordered u')
    (hnames : ∀ t ∈ u.types, (t.fields.map (·.name)).Nodup)
    (hmethods : rs.map (·.method) = rs'.map (·.method))
    (hlabels : ∀ l, (∃ r ∈ rs, r.Mentions l) ↔ ∃ r ∈ rs', r.Mentions l)
    (howners : mentionedOwners rs = mentionedOwners rs') {bounds : RamBounds}
    {res res' : Resolution} (h : ofRoutines u bounds rs = .ok res)
    (h' : ofRoutines u' bounds rs' = .ok res') :
    res.ram.placements = res'.ram.placements ∧ res.ram.next = res'.ram.next := by
  have hplace : placeAll u = placeAll u' := by
    unfold placeAll placeValue
    rw [hu.sizeOf_eq]
  obtain ⟨start, mid, hstart, hmid, hram, -⟩ := placeAll_wanted h
  obtain ⟨start', mid', hstart', hmid', hram', -⟩ := placeAll_wanted h'
  cases hstart.symm.trans hstart'
  rw [hplace, wanted_eq hu hnames hmethods hlabels howners, hmid'] at hmid
  cases hmid
  rw [hram, hram']
  exact ⟨rfl, rfl⟩

/-- Fields that are declared by name are placed as declared. -/
theorem globals_of_pairwise {refs : List Label}
    (h : ∀ t ∈ u.types, t.fields.Pairwise fun a b => a.name ≤ b.name) :
    globals u refs = u.types.flatMap fun t =>
      (t.fields.filter (needsMemory refs t)).map fun f => (.global (t.member f.name), f.type) := by
  refine List.flatMap_congr fun t ht => ?_
  have hsorted := ((h t ht).filter (needsMemory refs t)).imp fun {a b} hab => decide_eq_true hab
  rw [statics, List.mergeSort_of_pairwise hsorted]

/-- Every type declares its fields in reverse order, and the fields are mentioned in reverse order
as well. -/
theorem ram_of_reordered_arcade :
    let reversed : Universe := ⟨arcade.assemblies.map fun a => { a with
      types := a.types.map fun t => { t with fields := t.fields.reverse } }⟩
    let main : Member := ⟨⟨"Game"⟩, "Main"⟩
    let score : Label := .global ⟨⟨"Game"⟩, "score"⟩
    let lives : Label := .global ⟨⟨"Game"⟩, "lives"⟩
    let copy (a b : Label) : List Routine := [
      { method := main
        body := [.synthetic (.copyGlobalToGlobal a (.size .byte) b (.size .byte))]
        lifted := [.localSlot main 1] }]
    arcade.Reordered reversed ∧ arcade ≠ reversed ∧
      ∃ res res', ofRoutines arcade ⟨0x80, 0x100, 0x10⟩ (copy score lives) = .ok res ∧
        ofRoutines reversed ⟨0x80, 0x100, 0x10⟩ (copy lives score) = .ok res' ∧
        res.ram.placements.map (·.label) = [.reserved 0, .reserved 1,
          .global ⟨⟨"Screen"⟩, "beam"⟩, lives, score, .localSlot main 1] ∧
        res.ram.placements = res'.ram.placements ∧ res.ram.next = res'.ram.next := by
  intro reversed main score lives copy
  have hsame : ∀ t ∈ arcade.types,
      t.instanceFields = { t with fields := t.fields.reverse }.instanceFields := by decide +kernel
  have hu : arcade.Reordered reversed :=
    .cons ⟨rfl, List.forall₂_map_right_iff.2 (List.forall₂_same.2 fun t ht =>
      ⟨rfl, (List.reverse_perm t.fields).symm, hsame t ht, rfl, rfl⟩), rfl⟩ .nil
  have hmentions : ∀ a b l, (∃ r ∈ copy a b, r.Mentions l) ↔
      l = a ∨ l = b ∨ l = .size .byte ∨ l = .localSlot main 1 := by
    intro a b l
    simp [copy, Routine.Mentions, Entry.synthetic, Entry.labels, MacroOp.labels]
    tauto
  have hlabels : ∀ l, (∃ r ∈ copy score lives, r.Mentions l) ↔
      ∃ r ∈ copy lives score, r.Mentions l := by
    intro l
    rw [hmentions, hmentions, or_left_comm]
  have hglobals : globals reversed (referenced (copy lives score)) =
      [(.global ⟨⟨"Screen"⟩, "beam"⟩, .byte), (lives, .byte), (score, .byte)] := by
    rw [globals_of_pairwise (by decide +kernel)]
    decide +kernel
  have hres : (ofRoutines arcade ⟨0x80, 0x100, 0x10⟩ (copy score lives)).map
      (fun res => res.ram.placements.map (·.label)) = .ok [.reserved 0, .reserved 1,
        .global ⟨⟨"Screen"⟩, "beam"⟩, lives, score, .localSlot main 1] := by
    unfold ofRoutines
    simp only [globals_eq hu unambiguous_arcade.fields (contains_referenced hlabels), hglobals]
    decide +kernel
  have hres' : (ofRoutines reversed ⟨0x80, 0x100, 0x10⟩ (copy lives score)).map
      (fun res => res.assignments.length) = .ok 18 := by
    unfold ofRoutines
    simp only [hglobals]
    decide +kernel
  obtain ⟨res, hres, hplaced⟩ := map_eq_ok.1 hres
  obtain ⟨res', hres', -⟩ := map_eq_ok.1 hres'
  exact ⟨hu, by decide +kernel, res, res', hres, hres', hplaced, ram_of_reordered hu
    unambiguous_arcade.fields (by rfl) hlabels (by decide +kernel) hres hres'⟩

end Resolution

end Cartridge
