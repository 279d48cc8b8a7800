import Cartridge.Descent

/-!
# Induction along a descent

A descent only calls its arguments. What relates the arguments of two descents over the same known
things therefore relates the descents (`descend_rel`), and what holds of every visit, if it holds of
what the visit asks for, holds of a descent (`descend_induction`).
-/

namespace Cartridge

variable {α β γ : Type} [DecidableEq α] {known : List α}

/-- Two descents are related if their visits are, as soon as what they ask for is. -/
theorem descend_rel {cyclic : List α → α → β} {unknown : α → β}
    {visit : List α → (α → β) → α → β} {cyclic' : List α → α → γ} {unknown' : α → γ}
    {visit' : List α → (α → γ) → α → γ} {R : β → γ → Prop}
    (hcyclic : ∀ chain a, R (cyclic chain a) (cyclic' chain a))
    (hunknown : ∀ a, R (unknown a) (unknown' a))
    (hvisit : ∀ chain f f' a, (∀ b, R (f b) (f' b)) → R (visit chain f a) (visit' chain f' a))
    (chain : List α) (a : α) :
    R (descend known cyclic unknown visit chain a)
      (descend known cyclic' unknown' visit' chain a) := by
  fun_induction descend known cyclic unknown visit chain a with
  | case1 chain a ih =>
    rw [descend]
    refine hvisit _ _ _ _ fun b => ?_
    by_cases hc : b ∈ chain ++ [a]
    · simp only [hc, dif_pos]
      exact hcyclic _ b
    · by_cases hk : b ∈ known
      · simp only [hc, hk, dif_pos, dif_neg, not_false_eq_true]
        exact ih b hc hk
      · simp only [hc, hk, dif_neg, not_false_eq_true]
        exact hunknown b

/-- What holds of every visit, if it holds of what the visit asks for, holds of a descent. -/
theorem descend_induction {cyclic : List α → α → β} {unknown : α → β}
    {visit : List α → (α → β) → α → β} {P : β → Prop} (hcyclic : ∀ chain a, P (cyclic chain a))
    (hunknown : ∀ a, P (unknown a))
    (hvisit : ∀ chain f a, (∀ b, P (f b)) → P (visit chain f a)) (chain : List α) (a : α) :
    P (descend known cyclic unknown visit chain a) :=
  @descend_rel α β β _ known cyclic unknown visit cyclic unknown visit (fun x _ => P x) hcyclic
    hunknown (fun chain f _ a hf => hvisit chain f a hf) chain a

end Cartridge
