import Cartridge.Proofs.Program.Closed
import Cartridge.Proofs.Routine.Alike

/-!
# Rules have no influence on memory

Whichever optional rules run, discovery finds the same routines in the same order
(`Program.sameStorage_of_discover`), since they call the same routines. What resolution places in
memory depends only on the storage that the routines refer to (`Resolution.placeStorage_congr`), and
so do the blocks of ROM (`Listing.romBlocks_congr`).

**`Program.placement_of_compile`**: routines, lifted locals, blocks of ROM and addresses are the same
under any two choices of rules.
-/

namespace Cartridge

/-- The options with another choice of optional rules. -/
def Options.withRules (o : Options) (off : Bool) (disabled : List String) : Options :=
  { o with disableOptimizations := off, disabledRules := disabled }

theorem Options.inlineAllCalls_withRules (o : Options) (off : Bool) (disabled : List String) :
    (o.withRules off disabled).inlineAllCalls = o.inlineAllCalls := rfl

variable {u : Universe} {o o' : Options} {rs rs' : List Routine}

/-! ### What depends on storage -/

/-- What is picked out of the labels of storage is picked out of all labels. -/
theorem filterMap_isStorage {α : Type} {f : Label → Option α}
    (hf : ∀ l, l.isStorage = false → f l = none) (ls : List Label) :
    (ls.filter (·.isStorage)).filterMap f = ls.filterMap f := by
  rw [List.filterMap_filter]
  refine List.filterMap_congr fun l _ => ?_
  by_cases hl : l.isStorage = true
  · simp [hl]
  · simp [hl, hf l (Bool.eq_false_iff.2 hl)]

theorem filterMap_congr_isStorage {α : Type} {f : Label → Option α}
    (hf : ∀ l, l.isStorage = false → f l = none) {ls ls' : List Label}
    (h : ls.filter (·.isStorage) = ls'.filter (·.isStorage)) :
    ls.filterMap f = ls'.filterMap f := by
  rw [← filterMap_isStorage hf ls, h, filterMap_isStorage hf ls']

theorem contains_congr_isStorage {ls ls' : List Label} {l : Label}
    (h : ls.filter (·.isStorage) = ls'.filter (·.isStorage)) (hl : l.isStorage = true) :
    ls.contains l = ls'.contains l := by
  have hmem : ∀ {as : List Label}, l ∈ as ↔ l ∈ as.filter (·.isStorage) := by
    intro as
    rw [List.mem_filter]
    exact ⟨fun h => ⟨h, hl⟩, And.left⟩
  rw [Bool.eq_iff_iff, List.contains_iff_mem, List.contains_iff_mem, hmem, h, ← hmem]

theorem Routine.SameStorage.callees {r r' : Routine} (h : r.SameStorage r') :
    r.callees = r'.callees := by
  refine filterMap_congr_isStorage (fun l hl => ?_) h.labels
  cases l <;> first | rfl | cases hl

theorem Routine.map_of_sameStorage {α : Type} {f : Routine → α}
    (hf : ∀ r r', SameStorage r r' → f r = f r') (h : List.Forall₂ SameStorage rs rs') :
    rs.map f = rs'.map f := by
  induction h with
  | nil => rfl
  | cons hr _ ih => rw [List.map_cons, List.map_cons, hf _ _ hr, ih]

namespace Resolution

theorem referenced_congr (h : List.Forall₂ Routine.SameStorage rs rs') :
    (referenced rs).filter (·.isStorage) = (referenced rs').filter (·.isStorage) := by
  rw [referenced, referenced, filter_eraseDups, filter_eraseDups, List.filter_flatMap,
    List.filter_flatMap]
  congr 1
  induction h with
  | nil => rfl
  | cons hr _ ih =>
    rw [List.flatMap_cons, List.flatMap_cons, ih, List.filter_append, List.filter_append, hr.labels,
      hr.lifted]

section Congr

variable {refs refs' : List Label}
    (h : refs.filter (·.isStorage) = refs'.filter (·.isStorage))

include h in
theorem globals_congr (u : Universe) : globals u refs = globals u refs' := by
  have hneeds : needsMemory refs = needsMemory refs' := by
    funext t f
    rw [needsMemory, needsMemory, contains_congr_isStorage h rfl]
  unfold globals statics
  rw [hneeds]

include h in
theorem placeSlots_congr (u : Universe) : placeSlots u refs = placeSlots u refs' := by
  funext r m
  unfold placeSlots
  refine congrArg _ (funext fun d => congrArg (r.placeAll u) (List.filter_congr fun slot hslot => ?_))
  refine contains_congr_isStorage h ?_
  simp only [slots, List.mem_append, List.mem_map, List.mem_singleton] at hslot
  rcases hslot with (⟨p, -, rfl⟩ | ⟨p, -, rfl⟩) | rfl <;> rfl

include h in
theorem owners_congr (hrs : rs.map (·.method) = rs'.map (·.method)) :
    owners rs refs = owners rs' refs' := by
  have howners : refs.filterMap (·.owner?) = refs'.filterMap (·.owner?) := by
    refine filterMap_congr_isStorage (fun l hl => ?_) h
    cases l <;> first | rfl | cases hl
  rw [owners, owners, hrs, howners]

end Congr

/-- Memory for everything that the routines refer to. -/
def placeStorage (u : Universe) (bounds : RamBounds) (routines : List Routine) :
    Except Error Resolution := do
  let r ← scratch.foldlM (fun r l => r.place l 1) (⟨[], .empty bounds⟩ : Resolution)
  let r ← r.placeAll u (globals u (referenced routines))
  (owners routines (referenced routines)).foldlM (placeSlots u (referenced routines)) r

/-- **What is placed in memory depends on storage only.** -/
theorem placeStorage_congr (bounds : RamBounds) (h : List.Forall₂ Routine.SameStorage rs rs') :
    placeStorage u bounds rs = placeStorage u bounds rs' := by
  have hrefs := referenced_congr h
  unfold placeStorage
  rw [globals_congr hrefs, placeSlots_congr hrefs,
    owners_congr hrefs (Routine.map_of_sameStorage (fun _ _ hr => hr.method) h)]

theorem ofRoutines_eq (u : Universe) (bounds : RamBounds) (routines : List Routine) :
    ofRoutines u bounds routines = (do
      let r ← placeStorage u bounds routines
      let aliasEntries ← assignAliases [] (aliases u)
      let typeEntries ← assignTypes u (referenced routines)
      pure { r with assignments := r.assignments ++ aliasEntries ++ typeEntries }) := by
  simp only [ofRoutines, placeStorage, bind_assoc]

theorem ram_of_ofRoutines {bounds : RamBounds} {res res' : Resolution}
    (hrs : List.Forall₂ Routine.SameStorage rs rs') (h : ofRoutines u bounds rs = .ok res)
    (h' : ofRoutines u bounds rs' = .ok res') : res.ram = res'.ram := by
  rw [ofRoutines_eq] at h h'
  obtain ⟨r, hr, h⟩ := bind_eq_ok.1 h
  obtain ⟨r', hr', h'⟩ := bind_eq_ok.1 h'
  rw [placeStorage_congr bounds hrs, hr'] at hr
  cases hr
  obtain ⟨aliasEntries, -, h⟩ := bind_eq_ok.1 h
  obtain ⟨aliasEntries', -, h'⟩ := bind_eq_ok.1 h'
  obtain ⟨typeEntries, -, h⟩ := bind_eq_ok.1 h
  obtain ⟨typeEntries', -, h'⟩ := bind_eq_ok.1 h'
  cases pure_eq_ok.1 h
  cases pure_eq_ok.1 h'
  rfl

end Resolution

/-- The blocks of ROM depend on storage only. -/
theorem Listing.romBlocks_congr (u : Universe) (h : List.Forall₂ Routine.SameStorage rs rs') :
    romBlocks u rs = romBlocks u rs' := by
  have hfields : (rs.flatMap (·.labels)).filterMap (·.romField?) =
      (rs'.flatMap (·.labels)).filterMap (·.romField?) := by
    refine filterMap_congr_isStorage (fun l hl => ?_) ?_
    · cases l <;> first | rfl | cases hl
    · rw [List.filter_flatMap, List.filter_flatMap]
      induction h with
      | nil => rfl
      | cons hr _ ih => rw [List.flatMap_cons, List.flatMap_cons, hr.labels, ih]
  rw [romBlocks, romBlocks, hfields]

/-! ### Programs -/

namespace Program

/-- **Discovery finds the same routines**, whichever optional rules run. -/
theorem sameStorage_of_discover (ho : o'.inlineAllCalls = o.inlineAllCalls)
    {done queue : List Member} (h : discover ⟨u, o⟩ done queue = .ok rs)
    (h' : discover ⟨u, o'⟩ done queue = .ok rs') : List.Forall₂ Routine.SameStorage rs rs' := by
  fun_induction discover ⟨u, o⟩ done queue generalizing rs rs' with
  | case1 done =>
    rw [discover] at h'
    cases h
    cases h'
    exact .nil
  | case2 done m queue hm ih =>
    rw [discover, dif_pos hm] at h'
    obtain ⟨r, hr, h⟩ := bind_eq_ok.1 h
    obtain ⟨rest, hrest, h⟩ := bind_eq_ok.1 h
    obtain ⟨r', hr', h'⟩ := bind_eq_ok.1 h'
    obtain ⟨rest', hrest', h'⟩ := bind_eq_ok.1 h'
    cases pure_eq_ok.1 h
    cases pure_eq_ok.1 h'
    have hsame := Routine.sameStorage_of_compile ho hr hr'
    rw [← hsame.callees] at hrest'
    exact .cons hsame (ih r hrest hrest')
  | case3 done m queue hm ih =>
    rw [discover, dif_neg hm] at h'
    exact ih h h'

/-- The routines of a program under two choices of rules. -/
theorem sameStorage_of_compile (ho : o'.inlineAllCalls = o.inlineAllCalls) {date date' : String}
    {p p' : Program} (h : compile ⟨u, o⟩ date = .ok p) (h' : compile ⟨u, o'⟩ date' = .ok p') :
    List.Forall₂ Routine.SameStorage p.all p'.all := by
  obtain ⟨entry, hentry, h⟩ := bind_eq_ok.1 h
  obtain ⟨entry', hentry', h'⟩ := bind_eq_ok.1 h'
  cases hentry.symm.trans hentry'
  obtain ⟨e, he, h⟩ := bind_eq_ok.1 h
  obtain ⟨e', he', h'⟩ := bind_eq_ok.1 h'
  obtain ⟨rs, hrs, h⟩ := bind_eq_ok.1 h
  obtain ⟨rs', hrs', h'⟩ := bind_eq_ok.1 h'
  obtain ⟨res, -, h⟩ := bind_eq_ok.1 h
  obtain ⟨res', -, h'⟩ := bind_eq_ok.1 h'
  obtain ⟨blocks, -, h⟩ := bind_eq_ok.1 h
  obtain ⟨blocks', -, h'⟩ := bind_eq_ok.1 h'
  cases pure_eq_ok.1 h
  cases pure_eq_ok.1 h'
  have hfirst := Routine.sameStorage_of_compileEntryPoint ho he he'
  rw [← hfirst.callees] at hrs'
  exact .cons hfirst (sameStorage_of_discover ho hrs hrs')

/-! ### An example -/

/-- An assignment, a copy and an increment in an inlined body, and a routine with a local whose
address is taken and data in ROM. -/
def counter (off : Bool) : Context :=
  let game : TypeName := ⟨"Game"⟩
  let score : Operand := .field ⟨game, "score"⟩
  let level : Operand := .field ⟨⟨"Hud"⟩, "level"⟩
  let main : List Instruction :=
    [⟨0, .ldc5, .absent⟩, ⟨1, .stsfld, score⟩, ⟨2, .ldsfld, score⟩, ⟨3, .stsfld, level⟩,
     ⟨4, .call, .method ⟨game, "Bump"⟩⟩, ⟨5, .call, .method ⟨game, "Tick"⟩⟩, ⟨6, .br, .target 4⟩]
  let bump : List Instruction :=
    [⟨0, .ldsfld, level⟩, ⟨1, .ldc1, .absent⟩, ⟨2, .add, .absent⟩, ⟨3, .stsfld, level⟩,
     ⟨4, .ret, .absent⟩]
  let tick : List Instruction :=
    [⟨0, .ldloca, .localSlot 0⟩, ⟨1, .pop, .absent⟩, ⟨2, .ldsflda, .field ⟨game, "data"⟩⟩,
     ⟨3, .pop, .absent⟩, ⟨4, .ret, .absent⟩]
  let types : List TypeDecl :=
    [{ name := .byte, primitiveSize := some 1 }, { name := .boolean, primitiveSize := some 1 },
     { name := .nothing, primitiveSize := some 0 },
     { name := game
       fields :=
         [{ name := "score", type := .byte, isStatic := true },
          { name := "data", type := .byte, isStatic := true, romData := some ⟨.byte, [5, 6]⟩ }]
       methods :=
         [{ name := "Main", body := main }, { name := "Tick", body := tick, locals := [.byte] },
          { name := "Bump", body := bump, marker := some .alwaysInline }] },
     { name := ⟨"Hud"⟩, fields := [{ name := "level", type := .byte, isStatic := true }] }]
  ⟨⟨[{ name := "Game", types, entryPoint := some ⟨game, "Main"⟩ }]⟩,
    Options.withRules {} off []⟩

/-! ### Memory -/

/-- **Rules have no influence on memory.** A program that is compiled under two choices of optional
rules has the same routines in the same order, with the same lifted locals, the same blocks of ROM
in the same order, and the same addresses in the same order, up to the same next free one. -/
theorem placement_of_compile (u : Universe) (o : Options) (off : Bool) (disabled : List String)
    {date date' : String} {p p' : Program} (h : compile ⟨u, o⟩ date = .ok p)
    (h' : compile ⟨u, o.withRules off disabled⟩ date' = .ok p') :
    p.all.map (·.method) = p'.all.map (·.method) ∧ p.all.map (·.lifted) = p'.all.map (·.lifted) ∧
      (∃ blocks, Listing.romBlocks u p.all = .ok blocks ∧ Listing.romBlocks u p'.all = .ok blocks) ∧
      p.resolution.ram.placements = p'.resolution.ram.placements ∧
      p.resolution.ram.next = p'.resolution.ram.next := by
  have hsame := sameStorage_of_compile (o.inlineAllCalls_withRules off disabled) h h'
  obtain ⟨-, blocks, -, -, hres, hblocks, -⟩ := of_compile h
  obtain ⟨-, -, -, -, hres', -⟩ := of_compile h'
  have hram : p.resolution.ram = p'.resolution.ram := Resolution.ram_of_ofRoutines hsame hres hres'
  rw [hram]
  exact ⟨Routine.map_of_sameStorage (fun _ _ hr => hr.method) hsame,
    Routine.map_of_sameStorage (fun _ _ hr => hr.lifted) hsame,
    ⟨blocks, hblocks, (Listing.romBlocks_congr u hsame).symm.trans hblocks⟩, rfl, rfl⟩

theorem placement_of_compile_counter :
    ∃ p p', compile (counter false) "" = .ok p ∧ compile (counter true) "" = .ok p' ∧
      p.all.map (·.body.length) ≠ p'.all.map (·.body.length) ∧
      p.all.map (·.method) = p'.all.map (·.method) ∧
      p.resolution.ram.placements = p'.resolution.ram.placements ∧
      p.resolution.ram.next = p'.resolution.ram.next := by
  have hon : (compileWithin 1 (counter false) "").map (·.map fun p => p.all.map (·.body.length)) =
      some (.ok [18, 19]) := by decide +kernel
  have hoff : (compileWithin 1 (counter true) "").map (·.map fun p => p.all.map (·.body.length)) =
      some (.ok [42, 19]) := by decide +kernel
  obtain ⟨p, hp, hsizes⟩ := exists_compile_of_within hon
  obtain ⟨p', hp', hsizes'⟩ := exists_compile_of_within hoff
  obtain ⟨hmethods, -, -, hplacements, hnext⟩ :=
    placement_of_compile (counter false).program (counter false).options true [] hp hp'
  exact ⟨p, p', hp, hp', by rw [hsizes, hsizes']; decide, hmethods, hplacements, hnext⟩

end Program

end Cartridge
