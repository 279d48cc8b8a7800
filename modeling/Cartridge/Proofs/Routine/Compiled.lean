import Cartridge.Proofs.Routine.Entries
import Cartridge.Proofs.Routine.Shape
import Cartridge.Proofs.StackArrays
import Mathlib.Data.List.Nodup

/-!
# Compiled routines

A routine is a body of the right shape, with the assignments of the stack arrays put in and its own
label at the top. `Routine.Compiled` says what is left of the shape; every routine that is compiled
has it (`compiled_of_compile`, `compiled_of_compileEntryPoint`).
**`Compiled.count_label`**: a jump finds its label once in its own scope.
-/

namespace Cartridge

/-! ### What tracking adds -/

namespace StackModel

/-- The labels that tracking brings in by itself. -/
def ownLabels : List Label :=
  [.type .nothing, .size .nothing, .type .boolean, .size .boolean]

theorem labels_pushed {op : MacroOp} {type size : Expression}
    (h : op.pushed? = some (type, size)) :
    ∀ l ∈ type.labels ++ size.labels, l ∈ op.labels ∨ l ∈ ownLabels := by
  cases op <;> cases h <;>
    simp [MacroOp.labels, Expression.labels, Expression.labelsList, MacroOp.sumType,
      MacroOp.builtInSize, Expression.stackType, Expression.stackSize, ownLabels]

theorem mem_slots_drop {m : StackModel} {n : Nat} {slot : Slot} (h : slot ∈ (m.drop n).slots) :
    slot ∈ m.slots ∨ slot = .nothing := by
  induction n generalizing m with
  | zero => exact .inl h
  | succ n ih =>
    rcases ih h with h | h
    · rw [List.mem_append, List.mem_singleton] at h
      exact h.imp_left List.mem_of_mem_tail
    · exact .inr h

theorem mem_slots_apply {m after : StackModel} {op : MacroOp} {slot : Slot}
    (h : m.apply op = .ok after) (hslot : slot ∈ after.slots) :
    slot ∈ m.slots ∨ slot = .nothing ∨ op.pushed? = some (slot.type, slot.size) := by
  obtain ⟨popped, hpop, h⟩ := bind_eq_ok.1 h
  have hpopped : ∀ slot ∈ popped.slots, slot ∈ m.slots ∨ slot = .nothing := by
    unfold pop at hpop
    split at hpop
    · cases hpop
    · cases hpop
      exact fun _ h => mem_slots_drop h
  split at h
  · cases pure_eq_ok.1 h
    exact (hpopped slot hslot).imp_right .inl
  · rename_i type size hpushed
    unfold push at h
    split at h
    · cases h
    · cases h
      rcases List.mem_cons.1 hslot with rfl | hslot
      · exact .inr (.inr hpushed)
      · exact (hpopped slot ((List.dropLast_sublist _).subset hslot)).imp_right .inl

theorem labels_setters {m : StackModel} {x : Entry} (hx : x ∈ m.setters) :
    x.isArrayLet = true ∧
      ∀ l ∈ x.labels, ∃ slot ∈ m.slots, l ∈ slot.type.labels ++ slot.size.labels := by
  rcases List.mem_pair.1 hx with rfl | rfl
  all_goals
    refine ⟨rfl, fun l hl => ?_⟩
    obtain ⟨y, hy, hl⟩ := List.mem_flatMap.1 hl
    obtain ⟨slot, hslot, rfl⟩ := List.mem_map.1 hy
    exact ⟨slot, hslot, by simp [hl]⟩

/-- Tracking puts assignments of the arrays after an entry, with labels of its macro. -/
theorem annotate_eq_ok {width : Nat} {e : Entry} {piece : List Entry}
    (h : (placeholders width).annotate e = .ok piece) :
    ∃ sets, piece = e :: sets ∧
      ∀ x ∈ sets, x.isArrayLet = true ∧ ∀ l ∈ x.labels, l ∈ e.labels ∨ l ∈ ownLabels := by
  have hempty : ∀ x ∈ ([] : List Entry), x.isArrayLet = true ∧
      ∀ l ∈ x.labels, l ∈ e.labels ∨ l ∈ ownLabels := fun x hx => by cases hx
  unfold annotate at h
  split at h
  · cases h
    exact ⟨[], rfl, hempty⟩
  · rename_i op hop
    obtain ⟨after, hafter, h⟩ := bind_eq_ok.1 h
    cases pure_eq_ok.1 h
    have hlabels : e.labels = op.labels := by
      cases e with
      | invoke call =>
        cases hop
        rfl
      | _ => cases hop
    split
    · refine ⟨after.setters, rfl, fun x hx => ?_⟩
      obtain ⟨hlet, hslots⟩ := labels_setters hx
      refine ⟨hlet, fun l hl => ?_⟩
      obtain ⟨slot, hslot, hl⟩ := hslots l hl
      rcases mem_slots_apply hafter hslot with hslot | rfl | hpushed
      · obtain ⟨i, -, rfl⟩ := List.mem_map.1 hslot
        cases hl
      · right
        simp only [Slot.nothing, Expression.labels, List.cons_append, List.nil_append] at hl
        exact List.mem_append_left [_, _] hl
      · rw [hlabels]
        exact labels_pushed hpushed l hl
    · exact ⟨[], rfl, hempty⟩

theorem labels_initialization {width : Nat} {x : Entry}
    (hx : x ∈ (placeholders width).initialization) :
    x.isArrayLet = true ∧ ∀ l ∈ x.labels, l ∈ ownLabels := by
  unfold initialization at hx
  split at hx
  · cases hx
  · obtain ⟨hlet, hslots⟩ := labels_setters hx
    refine ⟨hlet, fun l hl => ?_⟩
    obtain ⟨slot, hslot, hl⟩ := hslots l hl
    obtain ⟨-, -, rfl⟩ := List.mem_map.1 hslot
    simp only [Slot.nothing, Expression.labels, List.cons_append, List.nil_append] at hl
    exact List.mem_append_left [_, _] hl

theorem filter_isArrayLet {sets : List Entry} (h : ∀ x ∈ sets, x.isArrayLet = true) :
    sets.filter (!·.isArrayLet) = [] :=
  List.filter_eq_nil_iff.2 fun x hx => by simp [h x hx]

/-- The entry is one of a stream, or assigns an array, with labels of the stream. -/
def AddedTo (es : List Entry) (x : Entry) : Prop :=
  x ∈ es ∨ x.isArrayLet = true ∧ ∀ l ∈ x.labels, l ∈ ownLabels ∨ ∃ e ∈ es, l ∈ e.labels

theorem AddedTo.cons {es : List Entry} {x : Entry} (h : AddedTo es x) (e : Entry) :
    AddedTo (e :: es) x := by
  refine h.imp (List.mem_cons_of_mem e) fun ⟨hlet, hlabels⟩ => ⟨hlet, fun l hl => ?_⟩
  refine (hlabels l hl).imp_right ?_
  rintro ⟨e', he', hl'⟩
  exact ⟨e', List.mem_cons_of_mem e he', hl'⟩

theorem of_annotated {width : Nat} {es : List Entry} {pieces : List (List Entry)}
    (h : List.Forall₂ (fun e piece => (placeholders width).annotate e = .ok piece) es pieces)
    (hes : ∀ e ∈ es, e.isArrayLet = false) :
    pieces.flatten.filter (!·.isArrayLet) = es ∧ ∀ x ∈ pieces.flatten, AddedTo es x := by
  induction h with
  | nil => exact ⟨rfl, fun x hx => by cases hx⟩
  | @cons e piece es pieces he _ ih =>
    obtain ⟨hfilter, hadded⟩ := ih fun x hx => hes x (List.mem_cons_of_mem _ hx)
    obtain ⟨sets, rfl, hsets⟩ := annotate_eq_ok he
    have hkeep : (!e.isArrayLet) = true := by rw [hes e (List.mem_cons_self ..)]; rfl
    refine ⟨?_, fun x hx => ?_⟩
    · rw [List.flatten_cons, List.filter_append, List.filter_cons, if_pos hkeep,
        filter_isArrayLet fun x hx => (hsets x hx).1, hfilter, List.singleton_append]
    · rw [List.flatten_cons, List.mem_append, List.mem_cons] at hx
      rcases hx with (rfl | hx) | hx
      · exact .inl (List.mem_cons_self ..)
      · obtain ⟨hlet, hlabels⟩ := hsets x hx
        exact .inr ⟨hlet, fun l hl =>
          (hlabels l hl).symm.imp_right fun hl => ⟨e, List.mem_cons_self .., hl⟩⟩
      · exact (hadded x hx).cons e

/-- The parts of a tracked stream. -/
theorem track_eq_ok {es out : List Entry} (h : track es = .ok out) :
    ∃ pieces, out = (placeholders (maxDepth es)).initialization ++ pieces.flatten ∧
      List.Forall₂ (fun e piece => (placeholders (maxDepth es)).annotate e = .ok piece) es
        pieces := by
  obtain ⟨model, hmodel, h⟩ := bind_eq_ok.1 h
  obtain ⟨pieces, hpieces, h⟩ := bind_eq_ok.1 h
  cases pure_eq_ok.1 h
  unfold ofWidth at hmodel
  split at hmodel
  · cases hmodel
    exact ⟨pieces, rfl, mapM_eq_ok.1 hpieces⟩
  · cases hmodel

/-- **What tracking adds**: assignments of the arrays, with labels of the stream. -/
theorem of_track {es out : List Entry} (h : track es = .ok out)
    (hes : ∀ e ∈ es, e.isArrayLet = false) :
    out.filter (!·.isArrayLet) = es ∧ ∀ x ∈ out, AddedTo es x := by
  obtain ⟨pieces, rfl, hpieces⟩ := track_eq_ok h
  obtain ⟨hfilter, hadded⟩ := of_annotated hpieces hes
  refine ⟨?_, fun x hx => ?_⟩
  · rw [List.filter_append, filter_isArrayLet fun x hx => (labels_initialization hx).1, hfilter,
      List.nil_append]
  · rcases List.mem_append.1 hx with hx | hx
    · obtain ⟨hlet, hlabels⟩ := labels_initialization hx
      exact .inr ⟨hlet, fun l hl => .inl (hlabels l hl)⟩
    · exact hadded x hx

end StackModel

/-! ### Routines -/

open Peephole (definedLabels branchTargets)

namespace Routine

/-- What is known of a compiled routine: its entries are those of a body and assignments of the
stack arrays, its labels are declared, and outside of sealed blocks it defines its own label and
then those of the instructions that branches lead to, and jumps only to these. -/
structure Compiled (u : Universe) (r : Routine) : Prop where
  entries : ∀ e ∈ r.body, isBodyEntry e = true ∨ e.isArrayLet = true
  declared : ∀ e ∈ r.body, ∀ l ∈ e.labels, l.Declared u
  scopes : ∃ d s, u.findMethod r.method = .ok d ∧ Nested Sealed r.body s ∧
    definedLabels s = .function r.method :: (labelled d.body).map .instruction ∧
    branchTargets s ⊆ (targets d.body).map .instruction

theorem isArrayLet_of_isBodyEntry {e : Entry} (h : isBodyEntry e = true) :
    e.isArrayLet = false := by
  cases e with
  | directive d =>
    cases d with
    | arrayLet array elements => cases h
    | _ => rfl
  | _ => rfl

theorem declared_ownLabels {u : Universe} {l : Label} (h : l ∈ StackModel.ownLabels) :
    l.Declared u := by
  simp only [StackModel.ownLabels, List.mem_cons, List.not_mem_nil, or_false] at h
  rcases h with rfl | rfl | rfl | rfl <;> trivial

theorem filterMap_filter_isArrayLet {α : Type} {f : Entry → Option α}
    (hf : ∀ e, e.isArrayLet = true → f e = none) (es : List Entry) :
    (es.filter (!·.isArrayLet)).filterMap f = es.filterMap f := by
  rw [List.filterMap_filter]
  refine List.filterMap_congr fun e _ => ?_
  by_cases he : e.isArrayLet = true
  · simp [he, hf e he]
  · simp [he]

theorem definedLabels_filter (es : List Entry) :
    definedLabels (es.filter (!·.isArrayLet)) = definedLabels es := by
  refine filterMap_filter_isArrayLet (fun e he => ?_) es
  cases e with
  | label l => cases he
  | _ => rfl

theorem op?_of_isArrayLet {e : Entry} (h : e.isArrayLet = true) : e.op? = none := by
  cases e with
  | directive d => rfl
  | _ => cases h

theorem branchTargets_filter (es : List Entry) :
    branchTargets (es.filter (!·.isArrayLet)) = branchTargets es :=
  filterMap_filter_isArrayLet (fun e he => by rw [op?_of_isArrayLet he]; rfl) es

theorem Sealed.of_filter {t : List Entry} (h : Sealed (t.filter (!·.isArrayLet))) : Sealed t := by
  obtain ⟨hdefines, htargets, hstays⟩ := h
  rw [definedLabels_filter] at hdefines htargets
  rw [branchTargets_filter] at htargets
  rw [filterMap_filter_isArrayLet fun e he => op?_of_isArrayLet he] at hstays
  exact ⟨hdefines, htargets, hstays⟩

theorem fits_of_selects {s : Site} {i : Instruction} {es : List Entry} (h : s.Selects i es)
    (hinline : ∀ callee body, s.inline callee = .ok body →
      ∀ e ∈ body.body, Fits s.context.program e) : ∀ e ∈ es, Fits s.context.program e := by
  cases h with
  | nothing => exact List.forall_mem_nil _
  | placeholder p => exact List.forall_mem_singleton.2 ⟨rfl, by simp [Entry.labels]⟩
  | op op hlabels _ => exact List.forall_mem_singleton.2 ⟨rfl, hlabels⟩
  | inlined callee body hbody =>
    exact List.forall_mem_cons.2 ⟨⟨rfl, by simp [Entry.labels]⟩, hinline callee body hbody⟩

theorem invariant_fits (ctx : Context) : Invariant ctx (Fits ctx.program) where
  select {m d inline i sel} hd hi hinline h := by
    have hselects : Site.Selects ⟨ctx, m, d, inline⟩ i sel.entries :=
      Site.selects_of_select (s := ⟨ctx, m, d, inline⟩) hd hi h
    exact fits_of_selects hselects hinline
  replace := fits_of_replaces
  framing e he := by
    cases e with
    | label l => exact ⟨rfl, by simp [Entry.labels]⟩
    | comment text => exact ⟨rfl, by simp [Entry.labels]⟩
    | inlineFunction callee site => exact ⟨rfl, by simp [Entry.labels]⟩
    | endFunction => exact ⟨rfl, by simp [Entry.labels]⟩
    | directive d =>
      cases d with
      | beginBlock => exact ⟨rfl, by simp [Entry.labels]⟩
      | endBlock => exact ⟨rfl, by simp [Entry.labels]⟩
      | _ => cases he
    | _ => cases he
  start := ⟨rfl, by simp [Entry.synthetic, Entry.labels, MacroOp.labels]⟩
  jump _ _ := ⟨rfl, by simp [Entry.labels, MacroOp.labels, inlineEnd]⟩

/-- A routine from entries that fit. -/
theorem fits_of_finish {ctx : Context} {m : Member} {body : List Entry} {lifted : List Label}
    {r : Routine} (hbody : ∀ e ∈ body, Fits ctx.program e) (h : finish ctx m body lifted = .ok r) :
    (∀ e ∈ r.body, isBodyEntry e = true ∨ e.isArrayLet = true) ∧
      ∀ e ∈ r.body, ∀ l ∈ e.labels, l.Declared ctx.program := by
  obtain ⟨optimized, hopt, h⟩ := bind_eq_ok.1 h
  obtain ⟨tracked, htrack, h⟩ := bind_eq_ok.1 h
  cases pure_eq_ok.1 h
  have hfits := (invariant_fits ctx).of_optimize hbody hopt
  have hadded := (StackModel.of_track htrack fun e he => isArrayLet_of_isBodyEntry (hfits e he).1).2
  have hframe : ∀ e ∈ frame m.fullName (.label (.function m) :: tracked),
      e ∈ tracked ∨ isBodyEntry e = true ∧ e.labels = [] := by
    intro e he
    simp only [frame, List.cons_append, List.mem_cons, List.mem_append, List.not_mem_nil,
      or_false] at he
    rcases he with rfl | rfl | he | rfl | rfl
    · exact .inr ⟨rfl, rfl⟩
    · exact .inr ⟨rfl, rfl⟩
    · exact .inl he
    · exact .inr ⟨rfl, rfl⟩
    · exact .inr ⟨rfl, rfl⟩
  refine ⟨fun e he => ?_, fun e he l hl => ?_⟩
  · rcases hframe e he with he | ⟨he, -⟩
    · exact (hadded e he).imp (fun he => (hfits e he).1) And.left
    · exact .inl he
  · rcases hframe e he with he | ⟨-, hnil⟩
    · rcases hadded e he with he | ⟨-, hown⟩
      · exact (hfits e he).2 l hl
      · rcases hown l hl with hl | ⟨e', he', hl'⟩
        · exact declared_ownLabels hl
        · exact (hfits e' he').2 l hl'
    · rw [hnil] at hl
      cases hl

/-- **A routine refers only to what is declared.** -/
theorem declared_of_compile {ctx : Context} {m : Member} {r : Routine}
    (h : compile ctx m = .ok r) : ∀ e ∈ r.body, ∀ l ∈ e.labels, l.Declared ctx.program := by
  obtain ⟨sel, hsel, h⟩ := bind_eq_ok.1 h
  have hP := invariant_fits ctx
  exact (fits_of_finish (hP.of_selectBody (hP.of_inlineInto [m]) hsel) h).2

theorem declared_of_compileEntryPoint {ctx : Context} {m : Member} {r : Routine}
    (h : compileEntryPoint ctx m = .ok r) :
    ∀ e ∈ r.body, ∀ l ∈ e.labels, l.Declared ctx.program := by
  obtain ⟨sel, hsel, h⟩ := bind_eq_ok.1 h
  obtain ⟨inits, hinits, h⟩ := bind_eq_ok.1 h
  have hP := invariant_fits ctx
  have hselected := hP.of_selectBody (hP.of_inlineInto [m]) hsel
  exact (fits_of_finish (List.forall_mem_append.2 ⟨hP.of_prologue hinits, hselected⟩) h).2

/-- A body of the right shape becomes a routine. -/
theorem compiled_of_finish {ctx : Context} {m : Member} {d : MethodDecl} {body : List Entry}
    {lifted : List Label} {r : Routine} (hd : ctx.program.findMethod m = .ok d)
    (hbody : Shaped ctx.program (labelled d.body) (targets d.body) body)
    (h : finish ctx m body lifted = .ok r) : r.method = m ∧ Compiled ctx.program r := by
  obtain ⟨hentries, hdeclared⟩ := fits_of_finish hbody.fits h
  obtain ⟨optimized, hopt, h⟩ := bind_eq_ok.1 h
  obtain ⟨tracked, htrack, h⟩ := bind_eq_ok.1 h
  cases pure_eq_ok.1 h
  obtain ⟨hfits, s, hs, hlabels, hjumps⟩ := hbody.of_optimize hopt
  have hfilter :=
    (StackModel.of_track htrack fun e he => isArrayLet_of_isBodyEntry (hfits e he).1).1
  refine ⟨rfl, hentries, hdeclared, ?_⟩
  -- Without the assignments of the arrays, the scopes are those of the optimized body.
  have hs' : Nested Sealed (tracked.filter (!·.isArrayLet)) s := hfilter ▸ hs
  have hkeep : ∀ e : Entry, e.isMark = true → (!e.isArrayLet) = true := by
    intro e he
    rw [isArrayLet_of_isBodyEntry]
    · rfl
    · cases e with
      | directive d => exact he
      | _ => rfl
  obtain ⟨t, rfl, ht⟩ := hs'.of_filter hkeep
  rw [definedLabels_filter] at hlabels
  rw [branchTargets_filter] at hjumps
  have hfirst : Nested Sealed [.comment ("Begin " ++ m.fullName), .label (.function m)] _ :=
    .plain (by simp [Entry.isMark])
  have hlast : Nested Sealed [.comment ("End " ++ m.fullName), .endFunction] _ :=
    .plain (by simp [Entry.isMark])
  refine ⟨d, _, hd, (hfirst.append (ht.mono fun _ => Sealed.of_filter)).append hlast, ?_, ?_⟩
  · simp only [Peephole.definedLabels_append, hlabels]
    exact List.append_nil _
  · rw [Peephole.branchTargets_append, Peephole.branchTargets_append]
    show [] ++ branchTargets t ++ [] ⊆ _
    rw [List.nil_append, List.append_nil]
    exact hjumps

/-- A routine that is called. -/
theorem compiled_of_compile {ctx : Context} (hu : ctx.program.WellFormed) {m : Member} {r : Routine}
    (h : compile ctx m = .ok r) : r.method = m ∧ Compiled ctx.program r := by
  obtain ⟨sel, hsel, h⟩ := bind_eq_ok.1 h
  obtain ⟨d, hd, hshape⟩ := shaped_of_selectBody (shaped_of_inlineInto hu [m]) hsel
  exact compiled_of_finish hd hshape h

/-- The routine at which the program starts. -/
theorem compiled_of_compileEntryPoint {ctx : Context} (hu : ctx.program.WellFormed) {m : Member}
    {r : Routine} (h : compileEntryPoint ctx m = .ok r) :
    r.method = m ∧ Compiled ctx.program r := by
  obtain ⟨sel, hsel, h⟩ := bind_eq_ok.1 h
  obtain ⟨inits, hinits, h⟩ := bind_eq_ok.1 h
  obtain ⟨d, hd, hshape⟩ := shaped_of_selectBody (shaped_of_inlineInto hu [m]) hsel
  have hinit : ∀ r ∈ inits, Shaped ctx.program [] [] r.body := by
    intro r hr
    obtain ⟨i, -, hi⟩ := exists_of_mem_mapM hinits hr
    exact shaped_of_inlined hu [m] i hi
  exact compiled_of_finish hd ((shaped_prologue hinit).mono.append hshape) h

/-! ### Jumps find their labels -/

theorem nodup_map_instruction {offsets : List UInt32} (h : offsets.Nodup) :
    (offsets.map Label.instruction).Nodup :=
  h.map fun _ _ heq => Label.instruction.inj heq

theorem Sealed.nodup {t : List Entry} (h : Sealed t) : (definedLabels t).Nodup := by
  obtain ⟨m, offsets, hlabels, hoffsets⟩ := h.defines
  rw [hlabels, List.nodup_append]
  refine ⟨nodup_map_instruction hoffsets, List.nodup_singleton _, ?_⟩
  rintro l hl l' hl' rfl
  obtain ⟨o, -, rfl⟩ := List.mem_map.1 hl
  cases List.mem_singleton.1 hl'

/-- In every scope the labels are distinct, and jumps lead to them. -/
theorem Compiled.inScope {u : Universe} (hu : u.WellFormed) {r : Routine} (h : Compiled u r)
    (c : Option Nat) :
    (definedLabels (Scope.inScope r.body c)).Nodup ∧
      branchTargets (Scope.inScope r.body c) ⊆ definedLabels (Scope.inScope r.body c) := by
  obtain ⟨d, s, hd, hs, hlabels, hjumps⟩ := h.scopes
  have hwf := wellFormed_of_findMethod hu hd
  obtain ⟨houter, hinner⟩ := hs.inScope
  cases c with
  | none =>
    rw [houter, hlabels]
    refine ⟨List.nodup_cons.2 ⟨?_, nodup_map_instruction (nodup_labelled hwf)⟩, ?_⟩
    · intro hmem
      obtain ⟨o, -, ho⟩ := List.mem_map.1 hmem
      cases ho
    · have hlands := List.map_subset Label.instruction (targets_subset_labelled hwf)
      exact List.Subset.trans (List.Subset.trans hjumps hlands) (List.subset_cons_self ..)
  | some k =>
    rcases hinner k with hnil | hsealed
    · rw [hnil]
      exact ⟨List.nodup_nil, List.nil_subset _⟩
    · exact ⟨hsealed.nodup, hsealed.targets⟩

theorem count_definedLabels (l : Label) (es : List Entry) :
    (definedLabels es).count l = es.count (.label l) := by
  induction es with
  | nil => rfl
  | cons e es ih =>
    rw [definedLabels, List.filterMap_cons, List.count_cons, ← ih]
    cases e with
    | label l' => simp [Entry.definedLabel?, definedLabels, List.count_cons]
    | _ => simp [Entry.definedLabel?, definedLabels]

theorem mem_definedLabels {l : Label} {es : List Entry} :
    l ∈ definedLabels es ↔ .label l ∈ es := by
  rw [← List.count_pos_iff, count_definedLabels, List.count_pos_iff]

/-- A routine defines its own label. -/
theorem Compiled.label_mem {u : Universe} {r : Routine} (h : Compiled u r) :
    .label (.function r.method) ∈ r.body := by
  obtain ⟨d, s, -, hs, hlabels, -⟩ := h.scopes
  refine hs.subset (mem_definedLabels.1 ?_)
  rw [hlabels]
  exact List.mem_cons_self ..

/-- **A jump finds its label once in its own scope.** -/
theorem Compiled.count_label {u : Universe} (hu : u.WellFormed) {r : Routine} (h : Compiled u r)
    {c : Option Nat} {e : Entry} {op : MacroOp} {l : Label} (he : (c, e) ∈ Scope.tagged r.body)
    (hop : e.op? = some op) (hl : op.branchTarget? = some l) :
    (Scope.tagged r.body).count (c, .label l) = 1 := by
  obtain ⟨hnodup, hjumps⟩ := h.inScope hu c
  have hmem : l ∈ branchTargets (Scope.inScope r.body c) :=
    List.mem_filterMap.2 ⟨e, Scope.mem_entriesIn.2 he, by rw [hop]; exact hl⟩
  rw [← Scope.count_entriesIn, ← count_definedLabels]
  exact List.count_eq_one_of_mem hnodup (hjumps hmem)

end Routine

end Cartridge
