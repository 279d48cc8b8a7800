import Cartridge.Proofs.Peephole.Rewriting
import Cartridge.Proofs.StackArrays
import Mathlib.Algebra.Ring.Nat

/-!
# Optional rules and the tracked stack

The stack arrays follow the stream that the optimizer returns, not the one that it is given. A macro
that stands for several others has to declare what these do to the stack between them
(`Interpretation.StandsFor`): it leaves the same types and sizes, does not go as deep, and needs no
more operands than they do. This is checked for each replacement, and holds in any surroundings and
along any number of replacements (`Peephole.stack_of_optimize`).

The sum of a constant and a global is tracked as that of the global and the constant. So the type of
a sum must not depend on the order of the operands (`Interpretation.Commutes`).
-/

namespace Cartridge

namespace StackModel

variable {depth : Nat} {ops ops' : List MacroOp}

/-- Every macro finds its operands on the stack, from a given depth on. -/
def Backed (depth : Nat) : List MacroOp → Prop
  | [] => True
  | op :: ops => op.effect.pops ≤ depth ∧ Backed (depthAfter depth op) ops

instance decidableBacked : (depth : Nat) → (ops : List MacroOp) → Decidable (Backed depth ops)
  | _, [] => .isTrue trivial
  | depth, op :: ops =>
    haveI := decidableBacked (depthAfter depth op) ops
    inferInstanceAs (Decidable (_ ∧ Backed (depthAfter depth op) ops))

theorem backed_append : Backed depth (ops ++ ops') ↔
    Backed depth ops ∧ Backed (ops.foldl depthAfter depth) ops' := by
  induction ops generalizing depth with
  | nil => simp [Backed]
  | cons op ops ih => simp only [List.cons_append, Backed, List.foldl_cons, ih, and_assoc]

theorem maxDepthFrom_append : maxDepthFrom depth (ops ++ ops') =
    max (maxDepthFrom depth ops) (maxDepthFrom (ops.foldl depthAfter depth) ops') := by
  induction ops generalizing depth with
  | nil => exact (Nat.max_eq_right (Interpretation.le_maxDepthFrom depth ops')).symm
  | cons op ops ih =>
    rw [List.cons_append, maxDepthFrom, ih, List.foldl_cons, maxDepthFrom, Nat.max_assoc]

end StackModel

namespace Interpretation

open Peephole (leftovers)
open StackModel (Backed depthAfter maxDepthFrom)

variable {V : Type} {I : Interpretation V}

/-- The type of a sum does not depend on the order of the operands. -/
def Commutes (I : Interpretation V) : Prop :=
  ∀ a b, I.function "getAddResultType" [a, b] = I.function "getAddResultType" [b, a]

theorem length_stackFrom (stack : List (V × V)) (es : List Entry) :
    (I.stackFrom stack es).length = (es.filterMap (·.op?)).foldl depthAfter stack.length := by
  unfold stackFrom
  induction es.filterMap (·.op?) generalizing stack with
  | nil => rfl
  | cons op ops ih => rw [List.foldl_cons, ih, length_stackStep, List.foldl_cons]

/-- A stream may stand for another one as far as the stack is concerned. -/
structure StandsFor (I : Interpretation V) (es' es : List Entry) : Prop where
  stack : ∀ stack, I.stackFrom stack es' = I.stackFrom stack es
  depth : ∀ stack : List (V × V), maxDepthFrom stack.length (es'.filterMap (·.op?)) ≤
    maxDepthFrom stack.length (es.filterMap (·.op?))
  backed : ∀ stack : List (V × V), Backed stack.length (es'.filterMap (·.op?)) ↔
    Backed stack.length (es.filterMap (·.op?))

namespace StandsFor

variable {es es' es'' : List Entry}

theorem refl (es : List Entry) : I.StandsFor es es where
  stack _ := rfl
  depth _ := Nat.le_refl _
  backed _ := Iff.rfl

theorem trans (h : I.StandsFor es'' es') (h' : I.StandsFor es' es) : I.StandsFor es'' es where
  stack stack := (h.stack stack).trans (h'.stack stack)
  depth stack := Nat.le_trans (h.depth stack) (h'.depth stack)
  backed stack := (h.backed stack).trans (h'.backed stack)

theorem append {as as' bs bs' : List Entry} (ha : I.StandsFor as' as) (hb : I.StandsFor bs' bs) :
    I.StandsFor (as' ++ bs') (as ++ bs) where
  stack stack := by rw [stackFrom_append, stackFrom_append, ha.stack, hb.stack]
  depth stack := by
    have hfirst := ha.depth stack
    have hrest := hb.depth (I.stackFrom stack as)
    rw [List.filterMap_append, List.filterMap_append, StackModel.maxDepthFrom_append,
      StackModel.maxDepthFrom_append, ← length_stackFrom (I := I), ← length_stackFrom (I := I),
      ha.stack]
    omega
  backed stack := by
    have hrest := hb.backed (I.stackFrom stack as)
    rw [List.filterMap_append, List.filterMap_append, StackModel.backed_append,
      StackModel.backed_append, ← length_stackFrom (I := I), ← length_stackFrom (I := I), ha.stack]
    exact and_congr (ha.backed stack) hrest

end StandsFor

/-- **What replaces a window without placeholders may stand for it.** -/
theorem standsFor_of_replaces (hI : I.Commutes) {u : Universe} {rule : Rule} {w r : List Entry}
    (hw : leftovers w = []) (h : rule.Replaces u w r) : I.StandsFor r w := by
  cases h
  case inlineAssembly | romDataLength | romDataStride | romElementAtConstant
      | romElementFromStack => cases hw
  all_goals
    refine ⟨fun stack => ?_, fun stack => ?depth, fun stack => ?backed⟩
    case depth =>
      simp only [List.filterMap_cons, List.filterMap_nil, Entry.op?, maxDepthFrom, depthAfter,
        MacroOp.effect]
      omega
    case backed => simp [Backed, depthAfter, Entry.op?, MacroOp.effect]
  case addConstantFirst global globalType globalSize value constantType constantSize s₁ s₂ s₃ =>
    -- The macro adds the constant to the global, the window the global to the constant.
    have hsum := hI (I.label globalType) (I.label constantType)
    show (I.function _ [I.label globalType, I.label constantType],
      I.function _ [I.function _ [I.label globalType, I.label constantType]]) :: stack = _
    rw [hsum]
    rfl
  all_goals rfl

end Interpretation

namespace Peephole

open StackModel (Backed maxDepth)

variable {V : Type} {I : Interpretation V} {u : Universe} {rules : List Rule} {es es' : List Entry}

theorem standsFor_of_rewrites (hI : I.Commutes) (h : Rewrites u rules es es')
    (hes : leftovers es = []) : I.StandsFor es' es := by
  obtain @⟨before, after, rule, w, r, -, hw⟩ := h
  simp only [leftovers_append, List.append_eq_nil_iff] at hes
  exact (Interpretation.StandsFor.refl before).append
    (Interpretation.standsFor_of_replaces hI hes.1.2 hw) |>.append (.refl after)

theorem standsFor_of_reflTransGen (hI : I.Commutes)
    (h : Relation.ReflTransGen (Rewrites u rules) es es') (hes : leftovers es = []) :
    leftovers es' = [] ∧ I.StandsFor es' es := by
  induction h with
  | refl => exact ⟨hes, .refl es⟩
  | tail _ hstep ih =>
    obtain ⟨hmid, hstands⟩ := ih
    exact ⟨leftovers_of_rewrites hstep hmid, (standsFor_of_rewrites hI hstep hmid).trans hstands⟩

/-- **Optimizing keeps the tracked stack.** A stream without placeholders leaves the same types and
sizes on the stack, whichever optional rules are on; its stack gets no deeper than before, and the
macros find their operands on it if they did before. -/
theorem stack_of_optimize (I : Interpretation V) (hI : I.Commutes) (ctx : Context) (m : Member)
    (es : List Entry) (hes : leftovers es = []) :
    ∃ out, optimize ctx m es = .ok out ∧ I.stackAfter out = I.stackAfter es ∧
      maxDepth out ≤ maxDepth es ∧
      (Backed 0 (out.filterMap (·.op?)) ↔ Backed 0 (es.filterMap (·.op?))) := by
  obtain ⟨out, hout⟩ := exists_optimize_of_leftovers ctx m hes
  obtain ⟨-, hstands⟩ := standsFor_of_reflTransGen hI (reflTransGen_of_optimize hout) hes
  exact ⟨out, hout, hstands.stack [], hstands.depth [], hstands.backed []⟩

/-- The sum of a constant and a global is tracked with the greater of both types. -/
theorem stack_of_optimize_sum :
    let I : Interpretation Nat := ⟨fun
      | .type .byte => 1
      | .type ⟨"Game.Word"⟩ => 2
      | _ => 0, fun _ => 0, fun
      | "getAddResultType", [a, b] => max a b
      | _, values => values.sum⟩
    let score : Label := .global ⟨⟨"Game"⟩, "score"⟩
    let es : List Entry :=
      [.synthetic (.pushConstant (.byte 1) (.type .byte) (.size .byte)),
       .synthetic (.pushGlobal score (.type ⟨"Game.Word"⟩) (.size ⟨"Game.Word"⟩)),
       .synthetic .addFromStack]
    I.Commutes ∧ leftovers es = [] ∧
      ∃ out, optimize ⟨⟨[]⟩, {}⟩ ⟨⟨"Game"⟩, "Tick"⟩ es = .ok out ∧ I.stackAfter out = [(2, 2)] ∧
        maxDepth out ≤ 2 ∧ Backed 0 (out.filterMap (·.op?)) := by
  intro I score es
  have hI : I.Commutes := Nat.max_comm
  refine ⟨hI, rfl, ?_⟩
  obtain ⟨out, hout, hstack, hdepth, hbacked⟩ :=
    stack_of_optimize I hI ⟨⟨[]⟩, {}⟩ ⟨⟨"Game"⟩, "Tick"⟩ es rfl
  exact ⟨out, hout, hstack.trans (by decide), Nat.le_trans hdepth (by decide),
    hbacked.2 (by decide)⟩

end Peephole

end Cartridge
