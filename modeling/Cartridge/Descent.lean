/-!
# Descent along references

`descend` visits something, and through it whatever it refers to, and keeps the chain of what is
being visited. A reference back into the chain is a cycle. It ends because every step puts one more
of finitely many known things on the chain: `unvisited` counts those that are left.
-/

namespace Cartridge

/-- How many of the known things are not on the chain. -/
def unvisited [DecidableEq α] (known chain : List α) : Nat :=
  known.countP fun a => a ∉ chain

theorem unvisited_cons [DecidableEq α] (k : α) (known chain : List α) :
    unvisited (k :: known) chain = unvisited known chain + if k ∈ chain then 0 else 1 := by
  by_cases h : k ∈ chain <;> simp [unvisited, h]

theorem unvisited_append_le [DecidableEq α] (known chain : List α) (a : α) :
    unvisited known (chain ++ [a]) ≤ unvisited known chain := by
  induction known with
  | nil => exact Nat.le_refl _
  | cons k known ih =>
    have hmem : k ∈ chain → k ∈ chain ++ [a] := List.mem_append_left _
    rw [unvisited_cons, unvisited_cons]
    by_cases hc : k ∈ chain
    · rw [if_pos (hmem hc), if_pos hc]
      exact ih
    · rw [if_neg hc]
      split <;> omega

/-- One more thing on the chain leaves fewer. -/
theorem unvisited_append_lt [DecidableEq α] {known chain : List α} {a : α} (hk : a ∈ known)
    (hc : a ∉ chain) : unvisited known (chain ++ [a]) < unvisited known chain := by
  induction known with
  | nil => cases hk
  | cons k known ih =>
    have hle := unvisited_append_le known chain a
    rw [unvisited_cons, unvisited_cons]
    rcases List.mem_cons.1 hk with rfl | hk
    · rw [if_pos (List.mem_append_right _ (List.mem_singleton_self _)), if_neg hc]
      omega
    · have hlt := ih hk
      have hmem : k ∈ chain → k ∈ chain ++ [a] := List.mem_append_left _
      by_cases hkc : k ∈ chain
      · rw [if_pos (hmem hkc), if_pos hkc]
        exact hlt
      · rw [if_neg hkc]
        split <;> omega

/-- Visits `a`, with `chain` being visited. `visit` gets the chain up to `a` and a function for what
`a` refers to: `cyclic` if it is on the chain, `unknown` if it is not among the known things. -/
def descend [DecidableEq α] (known : List α) (cyclic : List α → α → β) (unknown : α → β)
    (visit : List α → (α → β) → α → β) (chain : List α) (a : α) : β :=
  visit (chain ++ [a])
    (fun b =>
      if _hc : b ∈ chain ++ [a] then cyclic (chain ++ [a]) b
      else if _hk : b ∈ known then descend known cyclic unknown visit (chain ++ [a]) b
      else unknown b)
    a
termination_by unvisited known (chain ++ [a])
decreasing_by exact unvisited_append_lt _hk _hc

end Cartridge
