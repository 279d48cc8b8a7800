import Cartridge.Proofs.Program.Closed
import Cartridge.Proofs.Resolution.Distinct
import Cartridge.Proofs.Symbols
import Mathlib.Data.List.Pairwise

/-!
# The names that a program defines

A name is defined by a label that stands in the program and by the assignment of a label or of an
alias. In a block names are distinct always. Outside of all blocks they are not: routines stand side
by side there, and the labels of their instructions are known by offset alone.

* `Program.defines`: what a program defines outside of blocks.
* **`Program.nodup_definedNames_iff`**: names are distinct in every scope iff the program is
  `Unambiguous`.
-/

namespace Cartridge

open Peephole (definedLabels)
open Resolution (referenced globals owners slotLabels typeLabels numbered scratch aliases)

/-! ### Names in a stream -/

namespace Entry

/-- The name that an entry defines. -/
def definedName? : Entry → Option String
  | .label l => some l.text
  | .directive (.labelAssign l _) => some l.text
  | .directive (.aliasAssign name _) => some name
  | _ => none

/-- The label that an entry defines or assigns. -/
def namedLabel? : Entry → Option Label
  | .label l => some l
  | .directive (.labelAssign l _) => some l
  | _ => none

/-- The alias that an entry assigns. -/
def aliasName? : Entry → Option String
  | .directive (.aliasAssign name _) => some name
  | _ => none

end Entry

/-- The names that entries define. -/
def definedNames (es : List Entry) : List String := es.filterMap (·.definedName?)

/-- The labels that entries define or assign. -/
def namedLabels (es : List Entry) : List Label := es.filterMap (·.namedLabel?)

/-- The aliases that entries assign. -/
def aliasNames (es : List Entry) : List String := es.filterMap (·.aliasName?)

theorem definedNames_perm (es : List Entry) :
    (definedNames es).Perm ((namedLabels es).map (·.text) ++ aliasNames es) := by
  induction es with
  | nil => exact .nil
  | cons e es ih =>
    cases e with
    | label l => exact ih.cons l.text
    | directive d =>
      cases d with
      | labelAssign l value => exact ih.cons l.text
      -- Aliases are put last, so this one moves past the names of labels.
      | aliasAssign name l => exact (ih.cons name).trans List.perm_middle.symm
      | _ => exact ih
    | _ => exact ih

@[simp] theorem namedLabels_append (es es' : List Entry) :
    namedLabels (es ++ es') = namedLabels es ++ namedLabels es' :=
  List.filterMap_append

@[simp] theorem aliasNames_append (es es' : List Entry) :
    aliasNames (es ++ es') = aliasNames es ++ aliasNames es' :=
  List.filterMap_append

/-! ### What stands outside of blocks -/

/-- What stands in a block. -/
def Inlined (t : List Entry) : Prop :=
  Routine.Sealed t ∧ ∀ e ∈ t, Routine.isBodyEntry e = true ∨ e.isArrayLet = true

/-- Outside of blocks the entries define the labels and the aliases, and blocks hold inlined
bodies. -/
def Defines (es : List Entry) (ls : List Label) (names : List String) : Prop :=
  ∃ s, Nested Inlined es s ∧ namedLabels s = ls ∧ aliasNames s = names

namespace Defines

variable {es es' : List Entry} {ls ls' : List Label} {names names' : List String}

theorem append (h : Defines es ls names) (h' : Defines es' ls' names') :
    Defines (es ++ es') (ls ++ ls') (names ++ names') := by
  obtain ⟨s, hs, rfl, rfl⟩ := h
  obtain ⟨s', hs', rfl, rfl⟩ := h'
  exact ⟨s ++ s', hs.append hs', namedLabels_append s s', aliasNames_append s s'⟩

theorem nil : Defines [] [] [] := ⟨[], .nil, rfl, rfl⟩

theorem cons {e : Entry} (he : e.isMark = false) (h : Defines es ls names) :
    Defines (e :: es) (e.namedLabel?.toList ++ ls) (e.aliasName?.toList ++ names) := by
  obtain ⟨s, hs, rfl, rfl⟩ := h
  refine ⟨e :: s, .entry he hs, ?_, ?_⟩
  · rw [namedLabels, List.filterMap_cons]
    cases e.namedLabel? <;> rfl
  · rw [aliasNames, List.filterMap_cons]
    cases e.aliasName? <;> rfl

/-- Entries without marks that define nothing. -/
theorem silent (h : ∀ e ∈ es, e.isMark = false ∧ e.namedLabel? = none ∧ e.aliasName? = none) :
    Defines es [] [] :=
  ⟨es, .plain fun e he => (h e he).1, List.filterMap_eq_nil_iff.2 fun e he => (h e he).2.1,
    List.filterMap_eq_nil_iff.2 fun e he => (h e he).2.2⟩

theorem flatMap {α : Type} {entries : α → List Entry} {labels : α → List Label} {as : List α}
    (h : ∀ a ∈ as, Defines (entries a) (labels a) []) :
    Defines (as.flatMap entries) (as.flatMap labels) [] := by
  induction as with
  | nil => exact nil
  | cons a as ih =>
    exact (h a (List.mem_cons_self ..)).append (ih fun b hb => h b (List.mem_cons_of_mem _ hb))

theorem of_assigns (h : Resolution.Assigns es ls) : Defines es ls [] := by
  induction h with
  | nil => exact nil
  | cons he _ ih =>
    obtain ⟨value, rfl⟩ := he
    exact ih.cons rfl

theorem of_aliases (as : List (String × Member × FieldDecl)) :
    Defines (as.map Resolution.aliasEntry) [] (as.map (·.1)) := by
  induction as with
  | nil => exact nil
  | cons a as ih => exact ih.cons rfl

end Defines

/-! ### Routines -/

namespace Routine

theorem named_of_entry {e : Entry} (he : isBodyEntry e = true ∨ e.isArrayLet = true) :
    e.namedLabel? = e.definedLabel? ∧ e.aliasName? = none := by
  cases e with
  | directive d =>
    cases d with
    | labelAssign l value => rcases he with he | he <;> cases he
    | aliasAssign name l => rcases he with he | he <;> cases he
    | _ => exact ⟨rfl, rfl⟩
  | _ => exact ⟨rfl, rfl⟩

theorem named_of_entries {es : List Entry}
    (h : ∀ e ∈ es, isBodyEntry e = true ∨ e.isArrayLet = true) :
    namedLabels es = definedLabels es ∧ aliasNames es = [] :=
  ⟨List.filterMap_congr fun e he => (named_of_entry (h e he)).1,
    List.filterMap_eq_nil_iff.2 fun e he => (named_of_entry (h e he)).2⟩

/-- The offsets in a method that branches lead to. -/
def landings (u : Universe) (m : Member) : List UInt32 :=
  match u.findMethod m with
  | .ok d => labelled d.body
  | .error _ => []

/-- The labels that a routine defines outside of blocks. -/
def positions (u : Universe) (r : Routine) : List Label :=
  .function r.method :: (landings u r.method).map .instruction

theorem Compiled.defines {u : Universe} {r : Routine} (h : Compiled u r) :
    Defines r.body (r.positions u) [] := by
  obtain ⟨d, s, hd, hs, hlabels, -⟩ := h.scopes
  obtain ⟨hnamed, halias⟩ := named_of_entries fun e he => h.entries e (hs.subset he)
  refine ⟨s, hs.and_forall h.entries, ?_, halias⟩
  rw [hnamed, hlabels, positions, landings, hd]

/-- In a block names are distinct. -/
theorem nodup_names_of_inlined {t : List Entry} (h : Inlined t) : (definedNames t).Nodup := by
  obtain ⟨m, offsets, hlabels, hoffsets⟩ := h.1.defines
  obtain ⟨hnamed, halias⟩ := named_of_entries h.2
  rw [(definedNames_perm t).nodup_iff, hnamed, halias, List.append_nil]
  refine h.1.nodup.map_on fun l hl l' hl' htext => ?_
  have hlabel : ∀ l ∈ definedLabels t, (∃ o, l = .instruction o) ∨ l = inlineEnd m := by
    intro l hl
    rw [hlabels, List.mem_append, List.mem_singleton, List.mem_map] at hl
    exact hl.imp_left fun ⟨o, _, ho⟩ => ⟨o, ho.symm⟩
  have hown : ∀ l ∈ definedLabels t, l.Named := by
    intro l hl
    rcases hlabel l hl with ⟨o, rfl⟩ | rfl
    · trivial
    · exact ⟨m, rfl⟩
  -- Labels of the two kinds are never alike, and alike labels of one kind are the same.
  have halike := (Label.text_eq_iff (hown l hl) (hown l' hl')).1 htext
  rcases hlabel l hl with ⟨o, rfl⟩ | rfl <;> rcases hlabel l' hl' with ⟨o', rfl⟩ | rfl
  · exact congrArg Label.instruction halike
  · cases halike
  · cases halike
  · rfl

end Routine

/-! ### Kinds of labels -/

namespace Label

/-- Whether the label is the position of an instruction. -/
def isInstruction : Label → Bool
  | .instruction _ => true
  | _ => false

/-- The group of symbols that a label belongs to, in the order of the program. -/
def group : Label → Nat
  | .reserved _ => 0
  | .global _ => 1
  | .argument .. | .localSlot .. | .returnValue _ => 2
  | .type _ | .pointerType _ | .size _ => 3
  | .pointerSize _ => 4
  | .predefined _ => 5
  | .function _ => 6
  | .romData _ => 7
  | .branchTarget _ | .instruction _ => 8

theorem group_of_owner {l : Label} {m : Member} (h : l.owner? = some m) : l.group = 2 := by
  cases l with
  | argument | localSlot | returnValue => rfl
  | _ => cases h

/-- Lists of labels of different groups have no label in common. -/
theorem nodup_flatten_iff {lists : List (List Label)}
    (h : ∀ ls n, (ls, n) ∈ lists.zipIdx → ∀ l ∈ ls, l.group = n) :
    lists.flatten.Nodup ↔ ∀ ls ∈ lists, ls.Nodup := by
  rw [List.nodup_flatten]
  refine and_iff_left (List.pairwise_iff_getElem.2 fun i j hi hj hij l hl hl' => ?_)
  have hgroup := h lists[i] i (List.mem_zipIdx_iff_getElem?.2 (List.getElem?_eq_getElem hi)) l hl
  have hgroup' := h lists[j] j (List.mem_zipIdx_iff_getElem?.2 (List.getElem?_eq_getElem hj)) l hl'
  omega

end Label

/-! ### Programs -/

namespace Program

variable {ctx : Context} {date : String} {p : Program}

/-- The fields whose data in ROM a program refers to. -/
def romFields (p : Program) : List Member :=
  ((p.all.flatMap (·.labels)).filterMap (·.romField?)).eraseDups

/-- The labels that resolution assigns. -/
def assigned (u : Universe) (p : Program) : List Label :=
  let refs := referenced p.all
  scratch ++ (globals u refs).map (·.1) ++ (owners p.all refs).flatMap (slotLabels u refs) ++
    ((numbered refs).flatMap typeLabels ++ [.pointerSize .short, .pointerSize .long])

theorem field_of_romBlock {u : Universe} {f : Member} {b : RomBlock}
    (h : Listing.romBlock u f = .ok b) : b.field = f := by
  obtain ⟨d, -, h⟩ := bind_eq_ok.1 h
  cases pure_eq_ok.1 h
  rfl

theorem defines_romBlocks {u : Universe} {fields : List Member} {blocks : List RomBlock}
    (h : fields.mapM (Listing.romBlock u) = .ok blocks) :
    Defines (blocks.flatMap Listing.romEntries) (fields.map .romData) [] := by
  have hfields : blocks.map (·.field) = fields := by
    have hall := mapM_eq_ok.1 h
    clear h
    induction hall with
    | nil => rfl
    | cons hb _ ih => rw [List.map_cons, field_of_romBlock hb, ih]
  rw [← hfields, List.map_map, List.map_eq_flatMap]
  refine .flatMap fun b _ => Defines.cons rfl (Defines.cons rfl (.silent fun e he => ?_))
  obtain ⟨byte, -, rfl⟩ := List.mem_map.1 he
  exact ⟨rfl, rfl, rfl⟩

/-- **What a program defines outside of blocks.** -/
theorem defines (hu : ctx.program.WellFormed) (h : compile ctx date = .ok p) :
    Defines p.entries
      (p.assigned ctx.program ++ [Listing.start] ++ p.all.flatMap (·.positions ctx.program) ++
        p.romFields.map .romData)
      ((aliases ctx.program).map (·.1)) := by
  obtain ⟨entry, blocks, -, -, hresolution, hblocks, hentries⟩ := of_compile h
  obtain ⟨placed, types, hassignments, hplaced, htypes, -⟩ := Resolution.of_ofRoutines hresolution
  have hroutine : ∀ r ∈ p.all, Defines r.body (r.positions ctx.program) [] := fun r hr =>
    (compiled_of_mem_all hu h hr).defines
  have hdate : Defines
      (Listing.dateLine (if ctx.options.emitTimestamp then some date else none)) [] [] := by
    split
    · exact .cons rfl (.cons rfl .nil)
    · exact .nil
  have hheader : Defines Listing.header [] [] :=
    .cons rfl (.cons rfl (.cons rfl (.cons rfl (.cons rfl (.cons rfl .nil)))))
  have hassigned := ((Defines.of_assigns hplaced).append
    (.of_aliases (aliases ctx.program))).append (.of_assigns htypes)
  have hstart : Defines [.blank, .label Listing.start] [Listing.start] [] :=
    .cons rfl (.cons rfl .nil)
  have hroutines : Defines (p.routines.flatMap fun r => .blank :: r.body)
      (p.routines.flatMap (·.positions ctx.program)) [] :=
    .flatMap fun r hr => .cons rfl (hroutine r (List.mem_cons_of_mem _ hr))
  have hvectors : Defines Listing.vectors [] [] :=
    .cons rfl (.cons rfl (.cons rfl (.cons rfl .nil)))
  have hall : p.all.flatMap (·.positions ctx.program) =
      p.entryPoint.positions ctx.program ++ p.routines.flatMap (·.positions ctx.program) := rfl
  rw [hentries, Listing.entries, hassignments, hall]
  have hwhole := ((((((hdate.append hheader).append hassigned).append hstart).append
    (hroutine p.entryPoint (List.mem_cons_self ..))).append hroutines).append
      (defines_romBlocks hblocks)).append hvectors
  simpa only [assigned, romFields, List.nil_append, List.append_nil, List.append_assoc]
    using hwhole

/-! ### Symbols -/

/-- The labels that a program defines or assigns outside of blocks, but for the positions of
instructions. -/
def symbols (p : Program) : List Label :=
  (namedLabels (Scope.inScope p.entries none)).filter (!·.isInstruction)

/-- The symbols of a program, by kind. -/
def symbolGroups (u : Universe) (p : Program) : List (List Label) :=
  let refs := referenced p.all
  [scratch, (globals u refs).map (·.1), (owners p.all refs).flatMap (slotLabels u refs),
   (numbered refs).flatMap typeLabels, [.pointerSize .short, .pointerSize .long],
   [Listing.start], p.all.map (.function ·.method), p.romFields.map .romData]

theorem group_of_mem {u : Universe} {p : Program} {ls : List Label} {n : Nat} {l : Label}
    (hls : (ls, n) ∈ (symbolGroups u p).zipIdx) (hl : l ∈ ls) : l.group = n := by
  simp only [symbolGroups, List.zipIdx_cons, List.zipIdx_nil, List.mem_cons, List.not_mem_nil,
    Prod.mk.injEq, or_false] at hls
  rcases hls with ⟨rfl, rfl⟩ | ⟨rfl, rfl⟩ | ⟨rfl, rfl⟩ | ⟨rfl, rfl⟩ | ⟨rfl, rfl⟩ | ⟨rfl, rfl⟩ |
    ⟨rfl, rfl⟩ | ⟨rfl, rfl⟩
  · rcases List.mem_pair.1 hl with rfl | rfl <;> rfl
  · obtain ⟨slot, hslot, rfl⟩ := List.mem_map.1 hl
    obtain ⟨t, -, hslot⟩ := List.mem_flatMap.1 hslot
    obtain ⟨f, -, rfl⟩ := List.mem_map.1 hslot
    rfl
  · obtain ⟨m, -, hl⟩ := List.mem_flatMap.1 hl
    exact Label.group_of_owner (Resolution.owner_of_mem_slotLabels hl)
  · obtain ⟨t, -, hl⟩ := List.mem_flatMap.1 hl
    simp only [typeLabels, List.mem_cons, List.not_mem_nil, or_false] at hl
    rcases hl with rfl | rfl | rfl <;> rfl
  · rcases List.mem_pair.1 hl with rfl | rfl <;> rfl
  · cases List.mem_singleton.1 hl
    rfl
  · obtain ⟨r, -, rfl⟩ := List.mem_map.1 hl
    rfl
  · obtain ⟨f, -, rfl⟩ := List.mem_map.1 hl
    rfl

/-- Symbols have the names of their kinds, and none is the position of an instruction. -/
theorem of_mem_symbolGroups {u : Universe} {p : Program} {l : Label}
    (hl : l ∈ (symbolGroups u p).flatten) : l.Named ∧ l.isInstruction = false := by
  obtain ⟨ls, hls, hmem⟩ := List.mem_flatten.1 hl
  obtain ⟨n, hn, hget⟩ := List.mem_iff_getElem.1 hls
  have hzip : (ls, n) ∈ (symbolGroups u p).zipIdx :=
    List.mem_zipIdx_iff_getElem?.2 (List.getElem?_eq_some_iff.2 ⟨hn, hget⟩)
  have hgroup := group_of_mem hzip hmem
  have hlt : n < 8 := hn
  cases l with
  | predefined symbol =>
    cases hgroup
    cases hget
    cases List.mem_singleton.1 hmem
    exact ⟨rfl, rfl⟩
  | branchTarget name | instruction o =>
    cases hgroup
    exact absurd hlt (Nat.lt_irrefl 8)
  | _ => exact ⟨trivial, rfl⟩

theorem flatten_symbolGroups (u : Universe) (p : Program) :
    (symbolGroups u p).flatten = p.assigned u ++ [Listing.start] ++
      p.all.map (.function ·.method) ++ p.romFields.map .romData := by
  simp only [symbolGroups, assigned, List.flatten_cons, List.flatten_nil, List.append_nil,
    List.append_assoc]

theorem filter_positions (u : Universe) (rs : List Routine) :
    (rs.flatMap (·.positions u)).filter (!·.isInstruction) = rs.map (.function ·.method) ∧
      (rs.flatMap (·.positions u)).filter (·.isInstruction) =
        (rs.flatMap fun r => Routine.landings u r.method).map .instruction := by
  have hsymbols : ∀ r : Routine,
      (r.positions u).filter (!·.isInstruction) = [.function r.method] := by
    intro r
    simp [Routine.positions, Label.isInstruction]
  have hinstructions : ∀ r : Routine, (r.positions u).filter (·.isInstruction) =
      (Routine.landings u r.method).map .instruction := by
    intro r
    simp [Routine.positions, Label.isInstruction]
  constructor
  · rw [List.filter_flatMap, List.map_eq_flatMap]
    simp only [hsymbols]
  · rw [List.filter_flatMap, List.map_flatMap]
    simp only [hinstructions]

/-- Outside of blocks, a program defines its symbols and positions of instructions. -/
theorem namedLabels_surface (hu : ctx.program.WellFormed) (h : compile ctx date = .ok p) :
    p.symbols = (p.symbolGroups ctx.program).flatten ∧
      (namedLabels (Scope.inScope p.entries none)).filter (·.isInstruction) =
        (p.all.flatMap fun r => Routine.landings ctx.program r.method).map .instruction := by
  obtain ⟨s, hs, hlabels, -⟩ := defines hu h
  obtain ⟨hsymbols, hinstructions⟩ := filter_positions ctx.program p.all
  have hnot : ∀ l ∈ (p.symbolGroups ctx.program).flatten, l.isInstruction = false := fun l hl =>
    (of_mem_symbolGroups hl).2
  rw [flatten_symbolGroups] at hnot ⊢
  rw [symbols, hs.inScope.1, hlabels]
  simp only [List.forall_mem_append] at hnot
  obtain ⟨⟨⟨hassigned, hstart⟩, -⟩, hrom⟩ := hnot
  have hkeep : ∀ {ls : List Label}, (∀ l ∈ ls, l.isInstruction = false) →
      ls.filter (!·.isInstruction) = ls ∧ ls.filter (·.isInstruction) = [] := by
    intro ls hls
    refine ⟨List.filter_eq_self.2 fun l hl => ?_, List.filter_eq_nil_iff.2 fun l hl => ?_⟩
    · rw [hls l hl]
      rfl
    · rw [hls l hl]
      exact Bool.false_ne_true
  simp only [List.filter_append, hsymbols, hinstructions, hkeep hassigned, hkeep hstart, hkeep hrom,
    List.nil_append, List.append_nil, and_self]

/-- Routines are of distinct methods. -/
theorem nodup_methods (hu : ctx.program.WellFormed) (h : compile ctx date = .ok p) :
    (p.all.map (·.method)).Nodup := by
  obtain ⟨entry, blocks, hentry, hdiscovered, -⟩ := of_compile h
  refine List.nodup_cons.2 ⟨fun hmem => ?_, hdiscovered.nodup⟩
  obtain ⟨r, hr, heq⟩ := List.mem_map.1 hmem
  have hmethod := (Routine.compiled_of_compileEntryPoint hu hentry).1
  exact hdiscovered.fresh r hr (List.mem_singleton.2 (heq.trans hmethod))

/-- Symbols are distinct iff no slot that is referred to shares its index. -/
theorem nodup_symbolGroups_iff (hu : ctx.program.WellFormed)
    (htypes : (ctx.program.types.map (·.name)).Nodup)
    (hfields : ∀ t ∈ ctx.program.types, (t.fields.map (·.name)).Nodup)
    (h : compile ctx date = .ok p) :
    (p.symbolGroups ctx.program).flatten.Nodup ↔
      ∀ m d, ctx.program.findMethod m = .ok d →
        (∀ k, .argument m k ∈ referenced p.all → d.parameters.length ≤ k.toNat + UInt16.size) ∧
        ∀ k, .localSlot m k ∈ referenced p.all → d.locals.length ≤ k.toNat + UInt16.size := by
  have hglobals := Resolution.nodup_globals htypes hfields (referenced p.all)
  have hnumbered := Resolution.nodup_typeLabels (referenced p.all)
  have hroutines : (p.all.map fun r => Label.function r.method).Nodup := by
    have hmap := (nodup_methods hu h).map fun _ _ heq => Label.function.inj heq
    rwa [List.map_map] at hmap
  have hrom : (p.romFields.map Label.romData).Nodup :=
    (nodup_eraseDups _).map fun _ _ heq => Label.romData.inj heq
  rw [Label.nodup_flatten_iff fun ls n hls l hl => group_of_mem hls hl]
  simp only [symbolGroups, List.forall_mem_cons, Resolution.nodup_slots_iff]
  constructor
  · rintro ⟨-, -, hslots, -⟩
    exact hslots
  · intro hslots
    exact ⟨by decide, hglobals, hslots, hnumbered, by decide, List.nodup_singleton _, hroutines,
      hrom, fun ls hls => by cases hls⟩

/-! ### Distinct names -/

/-- When the names that a program defines outside of blocks are distinct. -/
structure Unambiguous (u : Universe) (p : Program) : Prop where
  /-- Branches in two methods do not lead to the same offset. -/
  offsets : ∀ r ∈ p.all, ∀ r' ∈ p.all, ∀ d d' o, u.findMethod r.method = .ok d →
    u.findMethod r'.method = .ok d' → o ∈ Routine.targets d.body → o ∈ Routine.targets d'.body →
    r.method = r'.method
  /-- No slot that is referred to shares its index. -/
  slots : ∀ m d, u.findMethod m = .ok d →
    (∀ k, .argument m k ∈ referenced p.all → d.parameters.length ≤ k.toNat + UInt16.size) ∧
    ∀ k, .localSlot m k ∈ referenced p.all → d.locals.length ≤ k.toNat + UInt16.size
  /-- Symbols are told apart by what is left of the names of types and members. -/
  symbols : ∀ l ∈ p.symbols, ∀ l' ∈ p.symbols, l.Alike l' → l = l'

theorem nodup_landings_iff (hu : ctx.program.WellFormed) (h : compile ctx date = .ok p) :
    (p.all.flatMap fun r => Routine.landings ctx.program r.method).Nodup ↔
      ∀ r ∈ p.all, ∀ r' ∈ p.all, ∀ d d' o, ctx.program.findMethod r.method = .ok d →
        ctx.program.findMethod r'.method = .ok d' → o ∈ Routine.targets d.body →
        o ∈ Routine.targets d'.body → r.method = r'.method := by
  have hmem : ∀ {m d o}, ctx.program.findMethod m = .ok d →
      (o ∈ Routine.landings ctx.program m ↔ o ∈ Routine.targets d.body) := by
    intro m d o hd
    rw [Routine.landings, hd]
    refine ⟨fun ho => by simpa using (List.mem_filter.1 ho).2, fun ho => ?_⟩
    exact Routine.targets_subset_labelled (Routine.wellFormed_of_findMethod hu hd) ho
  have hfound : ∀ r ∈ p.all, ∃ d, ctx.program.findMethod r.method = .ok d := fun r hr =>
    let ⟨d, _, hd, _⟩ := (compiled_of_mem_all hu h hr).scopes
    ⟨d, hd⟩
  have hnodup : ∀ r ∈ p.all, (Routine.landings ctx.program r.method).Nodup := by
    intro r hr
    obtain ⟨d, hd⟩ := hfound r hr
    rw [Routine.landings, hd]
    exact Routine.nodup_labelled (Routine.wellFormed_of_findMethod hu hd)
  rw [List.nodup_flatMap, and_iff_right hnodup]
  constructor
  · intro hpairwise r hr r' hr' d d' o hd hd' ho ho'
    by_contra hne
    have hsymm : Std.Symm (Function.onFun List.Disjoint fun r : Routine =>
        Routine.landings ctx.program r.method) := ⟨fun _ _ h _ ho ho' => h ho' ho⟩
    have hdisjoint := hpairwise.forall hr hr' fun heq => hne (congrArg _ heq)
    exact hdisjoint ((hmem hd).2 ho) ((hmem hd').2 ho')
  · intro hall
    have hmethods := List.pairwise_map.1 (nodup_methods hu h)
    refine hmethods.imp_of_mem fun {r r'} hr hr' hne o ho ho' => ?_
    obtain ⟨d, hd⟩ := hfound r hr
    obtain ⟨d', hd'⟩ := hfound r' hr'
    exact hne (hall r hr r' hr' d d' o hd hd' ((hmem hd).1 ho) ((hmem hd').1 ho'))

/-- The names of labels are distinct iff symbols are, by name, and positions are. -/
theorem nodup_texts_iff {symbols : List Label} {offsets : List UInt32}
    (hsymbols : ∀ l ∈ symbols, l.Named ∧ l.isInstruction = false) :
    ((symbols ++ offsets.map Label.instruction).map (·.text)).Nodup ↔
      offsets.Nodup ∧ symbols.Nodup ∧ ∀ l ∈ symbols, ∀ l' ∈ symbols, l.Alike l' → l = l' := by
  have hoffsets : ((offsets.map Label.instruction).map (·.text)).Nodup ↔ offsets.Nodup := by
    rw [List.map_map]
    exact List.nodup_map_iff offsetText_injective
  have hsame : (symbols.map (·.text)).Nodup ↔
      symbols.Nodup ∧ ∀ l ∈ symbols, ∀ l' ∈ symbols, l.Alike l' → l = l' := by
    constructor
    · intro h
      refine ⟨h.of_map, fun l hl l' hl' halike => List.inj_on_of_nodup_map h hl hl' ?_⟩
      exact (Label.text_eq_iff (hsymbols l hl).1 (hsymbols l' hl').1).2 halike
    · rintro ⟨hnodup, halike⟩
      refine hnodup.map_on fun l hl l' hl' htext => halike l hl l' hl' ?_
      exact (Label.text_eq_iff (hsymbols l hl).1 (hsymbols l' hl').1).1 htext
  have hdisjoint : ∀ a ∈ symbols.map (·.text),
      ∀ b ∈ (offsets.map Label.instruction).map (·.text), a ≠ b := by
    intro a ha b hb heq
    obtain ⟨l, hl, rfl⟩ := List.mem_map.1 ha
    obtain ⟨l', hl', rfl⟩ := List.mem_map.1 hb
    obtain ⟨o, -, rfl⟩ := List.mem_map.1 hl'
    have hown : (Label.instruction o).Named := trivial
    have halike := (Label.text_eq_iff (hsymbols l hl).1 hown).1 heq
    cases l with
    | instruction o' => cases (hsymbols _ hl).2
    | _ => cases halike
  rw [List.map_append, List.nodup_append, hoffsets, hsame, and_iff_left hdisjoint]
  exact and_comm

/-- No label has the name of an alias. -/
theorem text_ne_alias {l : Label} (hl : l.Named) {name : String}
    (hname : Resolution.aliasMark.toList <+: name.toList) : l.text ≠ name := by
  rintro rfl
  have hstem := Label.stem_unique l.stem_mem_stems (by decide) (Label.stem_isPrefix hl) hname
  cases l <;> simp [Label.stem, Resolution.aliasMark] at hstem

theorem of_mem_symbols (hu : ctx.program.WellFormed) (h : compile ctx date = .ok p) {l : Label}
    (hl : l ∈ p.symbols) : l.Named ∧ l.isInstruction = false := by
  rw [(namedLabels_surface hu h).1] at hl
  exact of_mem_symbolGroups hl

/-- Outside of blocks names are distinct iff those of symbols and of positions are. -/
theorem nodup_surface_iff (hu : ctx.program.WellFormed) (h : compile ctx date = .ok p) :
    (definedNames (Scope.inScope p.entries none)).Nodup ↔
      ((p.symbols ++ (p.all.flatMap fun r => Routine.landings ctx.program r.method).map
        Label.instruction).map (·.text)).Nodup := by
  obtain ⟨s, hs, -, haliases⟩ := defines hu h
  obtain ⟨entry, blocks, -, -, hresolution, -⟩ := of_compile h
  obtain ⟨-, -, -, -, -, hnodup, hmark⟩ := Resolution.of_ofRoutines hresolution
  have hperm := (List.filter_append_perm (·.isInstruction)
    (namedLabels (Scope.inScope p.entries none))).symm.trans List.perm_append_comm
  rw [(namedLabels_surface hu h).2] at hperm
  have hfree : ∀ a ∈ (namedLabels (Scope.inScope p.entries none)).map (·.text),
      ∀ b ∈ (aliases ctx.program).map (·.1), a ≠ b := by
    intro a ha b hb
    obtain ⟨l, hl, rfl⟩ := List.mem_map.1 ha
    obtain ⟨x, hx, rfl⟩ := List.mem_map.1 hb
    refine text_ne_alias ?_ (hmark x hx)
    rcases List.mem_append.1 (hperm.subset hl) with hl | hl
    · exact (of_mem_symbols hu h hl).1
    · obtain ⟨o, -, rfl⟩ := List.mem_map.1 hl
      trivial
  -- Aliases are distinct and apart from labels, so that only labels are left.
  rw [(definedNames_perm _).nodup_iff, hs.inScope.1, haliases, ← hs.inScope.1, List.nodup_append,
    (hperm.map _).nodup_iff]
  exact and_iff_left ⟨hnodup, hfree⟩

/-- **Distinct names.** In a block the names are distinct. Outside of all blocks they are iff the
program is unambiguous: if branches of two routines lead to the same offset, the label there has the
same name in both. -/
theorem nodup_definedNames_iff (hu : ctx.program.WellFormed)
    (htypes : (ctx.program.types.map (·.name)).Nodup)
    (hfields : ∀ t ∈ ctx.program.types, (t.fields.map (·.name)).Nodup)
    (h : compile ctx date = .ok p) :
    (∀ k, (definedNames (Scope.inScope p.entries (some k))).Nodup) ∧
      ((definedNames (Scope.inScope p.entries none)).Nodup ↔ p.Unambiguous ctx.program) := by
  obtain ⟨s, hs, -, -⟩ := defines hu h
  constructor
  · intro k
    rcases hs.inScope.2 k with hnil | hinlined
    · rw [hnil]
      exact List.nodup_nil
    · exact Routine.nodup_names_of_inlined hinlined
  · have hslots := nodup_symbolGroups_iff hu htypes hfields h
    rw [← (namedLabels_surface hu h).1] at hslots
    rw [nodup_surface_iff hu h, nodup_texts_iff fun l hl => of_mem_symbols hu h hl,
      nodup_landings_iff hu h, hslots]
    exact ⟨fun ⟨ho, hs, hl⟩ => ⟨ho, hs, hl⟩, fun ⟨ho, hs, hl⟩ => ⟨ho, hs, hl⟩⟩

/-- If both routines of `loops` jump to one offset, a name is defined twice; if not, none is. -/
theorem nodup_definedNames_iff_loops :
    (∃ p, compile (loops 0) "" = .ok p ∧
      (∀ k, (definedNames (Scope.inScope p.entries (some k))).Nodup) ∧
      ¬(definedNames (Scope.inScope p.entries none)).Nodup) ∧
    ∃ p, compile (loops 16) "" = .ok p ∧ p.Unambiguous (loops 16).program := by
  constructor
  · obtain ⟨p, hp, hmethods⟩ := loops_zero_compiles
    have hu : (loops 0).program.WellFormed := fun t ht d hd =>
      (loops_bodies (.inl rfl) t ht d hd).1
    obtain ⟨hblocks, hiff⟩ := nodup_definedNames_iff hu (by decide) (by decide) hp
    refine ⟨p, hp, hblocks, fun hnodup => ?_⟩
    have hroutine : ∀ m ∈ loopsRoutines, ∃ r ∈ p.all, r.method = m := by
      intro m hm
      rw [← hmethods] at hm
      exact List.mem_map.1 hm
    obtain ⟨r, hr, hmain⟩ := hroutine ⟨⟨"Game"⟩, "Main"⟩ (by decide)
    obtain ⟨r', hr', htick⟩ := hroutine ⟨⟨"Game"⟩, "Tick"⟩ (by decide)
    have hsame := (hiff.1 hnodup).offsets r hr r' hr' _ _ 0 (by rw [hmain]; rfl)
      (by rw [htick]; rfl) (by decide) (by decide)
    rw [hmain, htick] at hsame
    exact absurd hsame (by decide)
  · have heval : (compileWithin 1 (loops 16) "").map
        (·.map fun p => decide (definedNames (Scope.inScope p.entries none)).Nodup) =
        some (.ok true) := by decide +kernel
    obtain ⟨p, hp, hnodup⟩ := exists_compile_of_within heval
    have hu : (loops 16).program.WellFormed := fun t ht d hd =>
      (loops_bodies (.inr rfl) t ht d hd).1
    obtain ⟨-, hiff⟩ := nodup_definedNames_iff hu (by decide) (by decide) hp
    exact ⟨p, hp, hiff.1 (of_decide_eq_true hnodup)⟩

end Program

end Cartridge
