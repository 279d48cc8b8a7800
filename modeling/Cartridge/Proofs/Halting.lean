import Mathlib.Logic.Relation

/-!
# Loops that come to an end

`Halts` says of a loop, given by its single steps, that no run of it is longer than a bound and that
one run leads to a state in which the loop stops. A measure that falls with every step bounds all
runs (`le_of_falling`).
-/

namespace Cartridge

variable {α : Type} {step : α → α → Prop} {ends : α → Prop}

/-- Runs from `a` have at most `bound` steps, and one of them ends. -/
structure Halts (step : α → α → Prop) (ends : α → Prop) (a : α) (bound : Nat) : Prop where
  bounded : ∀ run : Nat → α, run 0 = a → ∀ n, (∀ k < n, step (run k) (run (k + 1))) → n ≤ bound
  reaches : ∃ b, Relation.ReflTransGen step a b ∧ ends b

/-- A measure that falls with every step bounds the number of steps. -/
theorem le_of_falling {measure : α → Nat} (hfall : ∀ a b, step a b → measure b < measure a)
    {run : Nat → α} {n : Nat} (hrun : ∀ k < n, step (run k) (run (k + 1))) :
    n ≤ measure (run 0) := by
  -- What a run has used up of the measure is at least the number of its steps.
  have hused : measure (run n) + n ≤ measure (run 0) := by
    induction n with
    | zero => exact Nat.le_refl _
    | succ n ih =>
      have hlt := hfall _ _ (hrun n (Nat.lt_succ_self n))
      have hle := ih fun k hk => hrun k (Nat.lt_succ_of_lt hk)
      omega
  omega

/-- A loop halts if a measure falls with every step and some run ends. -/
theorem Halts.of_falling (measure : α → Nat) (hfall : ∀ a b, step a b → measure b < measure a)
    {a b : α} (hsteps : Relation.ReflTransGen step a b) (hends : ends b) :
    Halts step ends a (measure a) := by
  refine ⟨?_, b, hsteps, hends⟩
  rintro run rfl n hrun
  exact le_of_falling hfall hrun

theorem Halts.mono {a : α} {bound bound' : Nat} (h : Halts step ends a bound)
    (hle : bound ≤ bound') : Halts step ends a bound' :=
  ⟨fun run hstart n hrun => Nat.le_trans (h.bounded run hstart n hrun) hle, h.reaches⟩

end Cartridge
