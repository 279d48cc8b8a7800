import Cartridge.Proofs.Peephole.Rewriting
import Mathlib.Algebra.Order.Group.Multiset
import Mathlib.Tactic.Abel

/-!
# Where source instructions go

Every macro and every placeholder carries the instructions that it comes from. `Derives` is a
sequence of replacements together with its record: the rule and the window of each.

* A replacement carries the instructions of its window, except where a text and its use become
  inline assembly, and where a jump to the next entry is dropped: those two carry none on
  (`perm_sources_of_replaces`).
* Only an element of ROM data that is found by a label changes their order, and it takes a
  placeholder (`sublist_sources_of_replaces`).

**`sources_of_optimize`**: the instructions of a stream are those of what `optimize` returns,
together with those of the texts that became inline assembly and of the jumps that were dropped.
-/

namespace Cartridge.Peephole

variable {u : Universe} {rules : List Rule} {es es' out w r : List Entry} {rule : Rule}

/-- The source instructions of a stream, in order. -/
def sources (es : List Entry) : List Instruction := es.flatMap (·.sources)

@[simp] theorem sources_append (as bs : List Entry) :
    sources (as ++ bs) = sources as ++ sources bs := List.flatMap_append

/-! ### Records of replacements -/

/-- A window that a rule replaced. -/
structure Replacement where
  rule : Rule
  window : List Entry
deriving DecidableEq, Repr

/-- One stream comes from another by replacements, which are recorded in order. -/
inductive Derives (u : Universe) (rules : List Rule) :
    List Entry → List Replacement → List Entry → Prop where
  | nil (es : List Entry) : Derives u rules es [] es
  | cons (before after : List Entry) {rule : Rule} {w r : List Entry} {log : List Replacement}
      {out : List Entry} (hr : rule ∈ rules) (hw : rule.Replaces u w r)
      (h : Derives u rules (before ++ r ++ after) log out) :
      Derives u rules (before ++ w ++ after) (⟨rule, w⟩ :: log) out

/-- The instructions in the windows of a rule. -/
def sourcesOf (rule : Rule) (log : List Replacement) : List Instruction :=
  (log.filter (·.rule = rule)).flatMap fun step => sources step.window

/-- The instructions of the texts that became inline assembly and of their uses. -/
def inlined (log : List Replacement) : List Instruction := sourcesOf .inlineAssembly log

/-- The instructions of the jumps that were dropped before the label that they go to. The label
itself comes from none. -/
def dropped (log : List Replacement) : List Instruction := sourcesOf .removeBranchToNext log

theorem sourcesOf_cons (rule : Rule) (step : Replacement) (log : List Replacement) :
    sourcesOf rule (step :: log) = sourcesOf rule [step] ++ sourcesOf rule log := by
  rw [← List.singleton_append, sourcesOf, List.filter_append, List.flatMap_append]
  rfl

/-- Replacements can be recorded. -/
theorem exists_derives (h : Relation.ReflTransGen (Rewrites u rules) es out) :
    ∃ log, Derives u rules es log out := by
  induction h using Relation.ReflTransGen.head_induction_on with
  | refl => exact ⟨[], .nil out⟩
  | head hstep _ ih =>
    obtain ⟨log, hlog⟩ := ih
    obtain ⟨before, after, hr, hw⟩ := hstep
    exact ⟨_, .cons before after hr hw hlog⟩

/-! ### The balance -/

/-- **A replacement carries the instructions of its window**, but for inline assembly and dropped
jumps. -/
theorem perm_sources_of_replaces (h : rule.Replaces u w r) :
    (sources w).Perm (sources r ++ inlined [⟨rule, w⟩] ++ dropped [⟨rule, w⟩]) := by
  cases h with
  | romElementFromStack field type size global t₂ z₂ s₁ s₂ i =>
    have hmoved : (s₁ ++ (s₂ ++ [i])).Perm (s₂ ++ (s₁ ++ [i])) := by
      rw [← List.append_assoc, ← List.append_assoc]
      exact List.perm_append_comm.append_right [i]
    simpa [sources, inlined, dropped, sourcesOf, Entry.sources, Pending.instruction] using hmoved
  | _ => simp [sources, inlined, dropped, sourcesOf, Entry.sources, Pending.instruction]

/-- Any sequence of replacements balances. -/
theorem coe_sources_of_derives {log : List Replacement} (h : Derives u rules es log out) :
    (sources es : Multiset Instruction) = sources out + inlined log + dropped log := by
  induction h with
  | nil es => simp [inlined, dropped, sourcesOf]
  | @cons before after rule w r log out hr hw h ih =>
    have hstep := Multiset.coe_eq_coe.2 (perm_sources_of_replaces hw)
    have hinlined : inlined (⟨rule, w⟩ :: log) = inlined [⟨rule, w⟩] ++ inlined log :=
      sourcesOf_cons ..
    have hdropped : dropped (⟨rule, w⟩ :: log) = dropped [⟨rule, w⟩] ++ dropped log :=
      sourcesOf_cons ..
    rw [hinlined, hdropped]
    simp only [sources_append, ← Multiset.coe_add] at ih hstep ⊢
    calc (sources before : Multiset Instruction) + sources w + sources after
        = sources before + sources r + sources after +
            (inlined [⟨rule, w⟩] + dropped [⟨rule, w⟩]) := by rw [hstep]; abel
      _ = sources out + inlined log + dropped log +
            (inlined [⟨rule, w⟩] + dropped [⟨rule, w⟩]) := by rw [ih]
      _ = sources out + (inlined [⟨rule, w⟩] + inlined log) +
            (dropped [⟨rule, w⟩] + dropped log) := by abel

/-! ### The order -/

/-- Without placeholders a replacement keeps the order of instructions. -/
theorem sublist_sources_of_replaces (h : rule.Replaces u w r) (hw : leftovers w = []) :
    (sources r).Sublist (sources w) := by
  cases h with
  | inlineAssembly | romDataLength | romDataStride | romElementAtConstant | romElementFromStack =>
    cases hw
  | _ => simp [sources, Entry.sources]

/-- A stream without placeholders keeps the order of its instructions. -/
theorem sublist_sources_of_reflTransGen (h : Relation.ReflTransGen (Rewrites u rules) es out)
    (hes : leftovers es = []) : leftovers out = [] ∧ (sources out).Sublist (sources es) := by
  induction h with
  | refl => exact ⟨hes, .refl _⟩
  | tail _ hstep ih =>
    obtain ⟨hleft, hsub⟩ := ih
    refine ⟨leftovers_of_rewrites hstep hleft, .trans ?_ hsub⟩
    obtain @⟨before, after, rule, w, r, -, hw⟩ := hstep
    simp only [leftovers_append, List.append_eq_nil_iff] at hleft
    simp only [sources_append]
    exact ((List.Sublist.refl _).append (sublist_sources_of_replaces hw hleft.1.2)).append (.refl _)

/-- **No instruction is invented, duplicated or lost.** If a stream is returned, then it comes from
the given one by replacements. However the replacements are made, the instructions of the given
stream are those of the returned one, those of the texts that became inline assembly with their
uses, and those of the jumps that were dropped before the label that they go to. If no placeholder
is given, then the instructions stay in order. -/
theorem sources_of_optimize (ctx : Context) (m : Member) (es out : List Entry)
    (h : optimize ctx m es = .ok out) :
    (∃ log, Derives ctx.program (Peephole.rules ctx.options) es log out) ∧
      (∀ log, Derives ctx.program (Peephole.rules ctx.options) es log out →
        (sources es : Multiset Instruction) = sources out + inlined log + dropped log) ∧
      (leftovers es = [] → (sources out).Sublist (sources es)) := by
  have hsteps := reflTransGen_of_optimize h
  exact ⟨exists_derives hsteps, fun log => coe_sources_of_derives,
    fun hes => (sublist_sources_of_reflTransGen hsteps hes).2⟩

/-- Inline assembly, an element that is found by a label, an increment and a jump to the next entry:
the text, its use and the jump leave nothing. Without the placeholders the order is kept. -/
theorem sources_of_optimize_increment :
    let i : Nat → Instruction := fun n => ⟨UInt32.ofNat n, .nop, .absent⟩
    let score : Label := .global ⟨⟨"Game"⟩, "score"⟩
    let data : Label := .romData ⟨⟨"Game"⟩, "data"⟩
    let next : Label := .instruction 10
    let ctx : Context := ⟨⟨[]⟩, {}⟩
    let main : Member := ⟨⟨"Game"⟩, "Main"⟩
    let load : Nat → Entry := fun n =>
      .invoke ⟨.pushGlobal score (.type .byte) (.size .byte), [i n]⟩
    let start : List Entry :=
      [.pending (.loadString (i 0) "sta WSYNC"), .pending (.inlineAssemblyCall (i 1)),
       .invoke ⟨.pushAddressOfGlobal data (.pointerType .byte) (.pointerSize .long), [i 2]⟩,
       load 3, .pending (.romDataGetterCall (i 4))]
    let rest : List Entry :=
      [load 5, .invoke ⟨.pushConstant (.byte 1) (.type .byte) (.size .byte), [i 6]⟩,
       .invoke ⟨.addFromStack, [i 7]⟩,
       .invoke ⟨.popToGlobal score (.type .byte) (.size .byte), [i 8]⟩,
       .invoke ⟨.branch next, [i 9]⟩, .label next]
    let out : List Entry :=
      [.comment "Begin inline assembly", .inlineAssembly ["sta WSYNC"],
       .comment "End inline assembly", load 3,
       .invoke ⟨.pushAddressOfRomElementFromStack data (.pointerType .byte) (.pointerSize .long),
         [i 2, i 4]⟩]
    let out' : List Entry :=
      [.invoke ⟨.incrementGlobal score (.type .byte) (.size .byte), [i 5, i 6, i 7, i 8]⟩,
       .label next]
    (optimize ctx main (start ++ rest) = .ok (out ++ out') ∧
      ∃ log, Derives ctx.program (Peephole.rules ctx.options) (start ++ rest) log (out ++ out') ∧
        (inlined log + dropped log : Multiset Instruction) = {i 0, i 1, i 9}) ∧
      optimize ctx main rest = .ok out' ∧ leftovers rest = [] ∧
        (sources out').Sublist (sources rest) := by
  intro i score data next ctx main load start rest out out'
  have h : optimize ctx main (start ++ rest) = .ok (out ++ out') := by decide +kernel
  have h' : optimize ctx main rest = .ok out' := by decide +kernel
  obtain ⟨⟨log, hlog⟩, hbalance, -⟩ := sources_of_optimize ctx main _ _ h
  refine ⟨⟨h, log, hlog, ?_⟩, h', rfl, (sources_of_optimize ctx main _ _ h').2.2 rfl⟩
  have hgiven : (sources (start ++ rest) : Multiset Instruction) =
      sources (out ++ out') + {i 0, i 1, i 9} := by decide +kernel
  have hsum := hbalance log hlog
  rw [hgiven, add_assoc] at hsum
  exact (add_left_cancel hsum).symm

end Cartridge.Peephole
