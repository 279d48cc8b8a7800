import Cartridge.Proofs.Machine
import Cartridge.Proofs.Peephole.Rewriting

/-!
# Peephole rules keep the meaning of a stream

A run of a stream (`Machine.Run`) ends in the same way and with the same store before and after
optimizing (`run_iff_of_optimize`), whatever rules are switched off.

The rules that fuse macros replace one straight piece of the stream by another of the same effect
(`SameEffect`). No label stands inside such a piece, so no jump leads into it, and the rest of the
stream only moves (`Run.replace`). A jump to the label after it is dropped because the label is
where the run goes on anyway (`run_removeBranch_iff`).
-/

namespace Cartridge

/-! ### Positions of labels -/

theorem position?_append (as bs : List Entry) (l : Label) :
    position? (as ++ bs) l =
      (position? as l).or ((position? bs l).map (· + as.length)) := by
  unfold position?
  exact List.findIdx?_append

theorem position?_eq_none_of_unlabelled {w : List Entry}
    (h : ∀ e ∈ w, e.definedLabel? = none) (l : Label) : position? w l = none := by
  unfold position?
  rw [List.findIdx?_eq_none_iff]
  intro e he
  simp [h e he]

theorem position?_lt {es : List Entry} {l : Label} {p : Nat} (h : position? es l = some p) :
    p < es.length := (List.findIdx?_eq_some_iff_findIdx_eq.1 h).1

theorem position?_eq_none_of_not_mem {es : List Entry} {l : Label}
    (h : l ∉ Peephole.definedLabels es) : position? es l = none := by
  unfold position?
  rw [List.findIdx?_eq_none_iff]
  intro e he
  have hne : e.definedLabel? ≠ some l := fun hl => h (List.mem_filterMap.2 ⟨e, he, hl⟩)
  simpa using hne

namespace Machine

variable {M : Machine}

/-! ### Straight pieces -/

/-- The effect of a piece of a stream, if control goes through it from the first to the last
entry. -/
def through (M : Machine) : List Entry → Store → Option Store
  | [], s => some s
  | e :: w, s =>
    match M.perform e s with
    | some (.next s') => M.through w s'
    | _ => none

/-- Whether the entry is a macro after which control goes on with the next entry. -/
def isStraight (e : Entry) : Bool := e.op?.any fun op => !op.endsBlock

theorem definedLabel?_of_isStraight {e : Entry} (h : isStraight e = true) :
    e.definedLabel? = none := by
  cases e with
  | label l => cases h
  | _ => rfl

theorem next_of_isStraight {e : Entry} (h : isStraight e = true) {s : Store} {m : Move}
    (hm : M.perform e s = some m) : ∃ s', m = .next s' := by
  have hnext : ∀ o : Option Store, o.map Move.next = some m → ∃ s', m = .next s' := by
    intro o ho
    obtain ⟨s', -, rfl⟩ := Option.map_eq_some_iff.1 ho
    exact ⟨s', rfl⟩
  cases e with
  | invoke call =>
    obtain ⟨op, src⟩ := call
    cases op
    case pushConstant | pushGlobal | assignConstantToGlobal | copyGlobalToGlobal
      | addGlobalAndConstant | addGlobalAndConstantToGlobal | incrementGlobal =>
      exact ⟨_, (Option.some.inj hm).symm⟩
    case branch | branchTrueFromStack | branchFalseFromStack | branchLessFromStack | returnVoid
      | returnNonVoid => exact absurd h Bool.false_ne_true
    all_goals exact hnext _ hm
  | _ => cases h

/-- Two straight pieces of the same effect. -/
structure SameEffect (M : Machine) (w r : List Entry) : Prop where
  straight_left : ∀ e ∈ w, isStraight e = true
  straight_right : ∀ e ∈ r, isStraight e = true
  through_eq : ∀ s, M.through w s = M.through r s

theorem SameEffect.symm {w r : List Entry} (h : M.SameEffect w r) : M.SameEffect r w :=
  ⟨h.straight_right, h.straight_left, fun s => (h.through_eq s).symm⟩

theorem through_append (w w' : List Entry) (s : Store) :
    M.through (w ++ w') s = (M.through w s).bind (M.through w') := by
  induction w generalizing s with
  | nil => rfl
  | cons e w ih =>
    simp only [List.cons_append, through]
    split
    · exact ih _
    · rfl

/-- A run that goes on after a straight piece is a run from the start of the piece. -/
theorem Run.of_through {before w after : List Entry} {s s' t : Store} {o : Ending}
    (hs : M.through w s = some s')
    (h : M.Run (before ++ w ++ after) (before.length + w.length) s' o t) :
    M.Run (before ++ w ++ after) before.length s o t := by
  induction w generalizing before s with
  | nil =>
    cases hs
    exact h
  | cons e w ih =>
    simp only [through] at hs
    split at hs
    · rename_i s₁ hm
      have hassoc : before ++ e :: w ++ after = before ++ [e] ++ w ++ after := by simp
      rw [hassoc] at h ⊢
      refine .next ?_ hm ?_
      · simp
      · have hlen : before.length + (e :: w).length = (before ++ [e]).length + w.length := by
          simp only [List.length_append, List.length_cons, List.length_nil]
          omega
        rw [hlen] at h
        have := ih hs h
        rwa [List.length_append] at this
    · cases hs

/-- A position and a store of the one stream, and those of the other that they belong to, while
`w` is replaced by `r` after `before`. A run that is inside of `w` belongs to one that has yet to
go through `r`. -/
inductive Aligned (M : Machine) (before w r : List Entry) : Nat → Store → Nat → Store → Prop where
  | before {p : Nat} (s : Store) (hp : p < before.length) : Aligned M before w r p s p s
  | inside {j : Nat} {s s₀ : Store} (hj : j < w.length) (hs : M.through (w.take j) s₀ = some s) :
    Aligned M before w r (before.length + j) s before.length s₀
  | after (k : Nat) (s : Store) :
    Aligned M before w r (before.length + w.length + k) s (before.length + r.length + k) s

/-- The start of what follows `before`. -/
theorem Aligned.start {before w r : List Entry} (hw : w ≠ []) (s : Store) :
    Aligned M before w r before.length s before.length s :=
  .inside (j := 0) (List.length_pos_iff.2 hw) rfl

/-- The position after one in front of the piece is aligned. -/
theorem Aligned.succ {before w r : List Entry} (hw : w ≠ []) {p : Nat} (hp : p < before.length)
    (s : Store) : Aligned M before w r (p + 1) s (p + 1) s := by
  rcases Nat.lt_or_ge (p + 1) before.length with h | h
  · exact .before s h
  · have hp' : p + 1 = before.length := by omega
    rw [hp']
    exact .start hw s

/-- A jump leads to aligned positions, since no label stands inside the piece. -/
theorem Aligned.of_position? {before w r after : List Entry} (hw : ∀ e ∈ w, isStraight e = true)
    (hr : ∀ e ∈ r, isStraight e = true) {l : Label} {q : Nat}
    (hq : position? (before ++ w ++ after) l = some q) (s : Store) :
    ∃ q', position? (before ++ r ++ after) l = some q' ∧ Aligned M before w r q s q' s := by
  have hnw := position?_eq_none_of_unlabelled (fun e he => definedLabel?_of_isStraight (hw e he)) l
  have hnr := position?_eq_none_of_unlabelled (fun e he => definedLabel?_of_isStraight (hr e he)) l
  rw [List.append_assoc, position?_append, position?_append, hnw, Option.none_or] at hq
  rw [List.append_assoc, position?_append, position?_append, hnr, Option.none_or]
  cases hb : position? before l with
  | some p =>
    rw [hb, Option.some_or, Option.some.injEq] at hq
    subst hq
    exact ⟨p, rfl, .before s (position?_lt hb)⟩
  | none =>
    rw [hb, Option.none_or, Option.map_map, Option.map_eq_some_iff] at hq
    obtain ⟨k, hk, rfl⟩ := hq
    refine ⟨before.length + r.length + k, ?_, ?_⟩
    · rw [Option.none_or, hk]
      simp only [Option.map_some, Option.some.injEq]
      omega
    · have h : Aligned M before w r _ s _ s := .after k s
      have hlen : before.length + w.length + k = k + w.length + before.length := by omega
      rwa [hlen] at h

theorem getElem?_before {before w after : List Entry} {p : Nat} (hp : p < before.length) :
    (before ++ w ++ after)[p]? = before[p]? := by
  rw [List.append_assoc, List.getElem?_append_left hp]

theorem getElem?_inside {before w after : List Entry} {j : Nat} (hj : j < w.length) :
    (before ++ w ++ after)[before.length + j]? = w[j]? := by
  rw [List.append_assoc, List.getElem?_append_right (Nat.le_add_right _ _), Nat.add_sub_cancel_left,
    List.getElem?_append_left hj]

theorem getElem?_after (before w after : List Entry) (k : Nat) :
    (before ++ w ++ after)[before.length + w.length + k]? = after[k]? := by
  rw [← List.length_append, List.getElem?_append_right (Nat.le_add_right _ _),
    Nat.add_sub_cancel_left]

/-- An entry outside of the piece stands at the aligned position, too. -/
theorem Aligned.getElem? {before w r after : List Entry} {p p' : Nat} {s s' : Store} {e : Entry}
    (ha : Aligned M before w r p s p' s') (he : (before ++ w ++ after)[p]? = some e) :
    (s' = s ∧ (before ++ r ++ after)[p']? = some e) ∨
      ∃ j, ∃ hj : j < w.length, p = before.length + j ∧ p' = before.length ∧ e = w[j] ∧
        M.through (w.take j) s' = some s := by
  cases ha with
  | before s hp =>
    rw [getElem?_before hp] at he
    exact .inl ⟨rfl, by rw [getElem?_before hp, he]⟩
  | inside hj hs =>
    rw [getElem?_inside hj, List.getElem?_eq_getElem hj, Option.some.injEq] at he
    exact .inr ⟨_, hj, rfl, rfl, he.symm, hs⟩
  | after k s =>
    rw [getElem?_after] at he
    exact .inl ⟨rfl, by rw [getElem?_after, he]⟩

/-- Going through one more entry of a piece. -/
theorem through_take_succ {w : List Entry} {j : Nat} (hj : j < w.length) {s₀ s s' : Store}
    (hs : M.through (w.take j) s₀ = some s) (hm : M.perform w[j] s = some (.next s')) :
    M.through (w.take (j + 1)) s₀ = some s' := by
  rw [List.take_succ_eq_append_getElem hj, through_append, hs, Option.bind_some]
  simp only [through, hm]

/-- **Replacing a straight piece by one of the same effect keeps every run.** -/
theorem Run.replace {before w r after : List Entry} (hw : w ≠ []) (hs : M.SameEffect w r)
    {p : Nat} {s t : Store} {o : Ending} (h : M.Run (before ++ w ++ after) p s o t)
    {p' : Nat} {s' : Store} (ha : Aligned M before w r p s p' s') :
    M.Run (before ++ r ++ after) p' s' o t := by
  -- Inside of the piece the replaced stream stands still; when the piece has been gone through, it
  -- catches up by going through the other piece.
  induction h generalizing p' s' with
  | ranOff s =>
    generalize hp : (before ++ w ++ after).length = p at ha
    simp only [List.length_append] at hp
    cases ha with
    | before s hp' => omega
    | inside hj => omega
    | after k s =>
      have hk : before.length + r.length + k = (before ++ r ++ after).length := by
        simp only [List.length_append]
        omega
      rw [hk]
      exact .ranOff s
  | @leave p e s t he hm =>
    rcases ha.getElem? he with ⟨rfl, he'⟩ | ⟨j, hj, rfl, rfl, rfl, -⟩
    · exact .leave he' hm
    · obtain ⟨s', hs'⟩ := next_of_isStraight (hs.straight_left _ (List.getElem_mem hj)) hm
      cases hs'
  | @next p e s s₁ t o he hm h ih =>
    cases ha with
    | before s hp =>
      rw [getElem?_before hp] at he
      exact .next (by rw [getElem?_before hp, he]) hm (ih (.succ hw hp s₁))
    | @inside j s s₀ hj hthrough =>
      rw [getElem?_inside hj, List.getElem?_eq_getElem hj, Option.some.injEq] at he
      subst he
      have hnext := through_take_succ hj hthrough hm
      rcases Nat.lt_or_ge (j + 1) w.length with hlt | hge
      · exact ih (.inside hlt hnext)
      · -- The piece is done, and its effect is that of the other piece.
        rw [List.take_of_length_le hge, hs.through_eq] at hnext
        refine .of_through hnext (ih ?_)
        have hj' : before.length + j + 1 = before.length + w.length + 0 := by omega
        rw [hj']
        exact .after 0 s₁
    | after k s =>
      rw [getElem?_after] at he
      exact .next (by rw [getElem?_after, he]) hm (ih (.after (k + 1) s₁))
  | @jump p q e l s s₁ t o he hm hq h ih =>
    rcases ha.getElem? he with ⟨rfl, he'⟩ | ⟨j, hj, rfl, rfl, rfl, -⟩
    · obtain ⟨q', hq', ha'⟩ := Aligned.of_position? hs.straight_left hs.straight_right hq s₁
      exact .jump he' hm hq' (ih ha')
    · obtain ⟨s', hs'⟩ := next_of_isStraight (hs.straight_left _ (List.getElem_mem hj)) hm
      cases hs'

/-- The start of a stream is aligned. -/
theorem Aligned.zero {before w r : List Entry} (hw : w ≠ []) (s : Store) :
    Aligned M before w r 0 s 0 s := by
  rcases Nat.eq_zero_or_pos before.length with h | h
  · rw [← h]
    exact .start hw s
  · exact .before s h

theorem run_replace_iff {before w r after : List Entry} (hw : w ≠ []) (hr : r ≠ [])
    (hs : M.SameEffect w r) {s t : Store} {o : Ending} :
    M.Run (before ++ w ++ after) 0 s o t ↔ M.Run (before ++ r ++ after) 0 s o t :=
  ⟨fun h => h.replace hw hs (.zero hw s), fun h => h.replace hr hs.symm (.zero hr s)⟩

/-! ### Macros that are fused -/

/-- The rules that fuse macros put a straight piece in the place of one of the same effect. -/
theorem sameEffect_of_replaces {u : Universe} {rule : Rule} {w r : List Entry}
    (h : rule.Replaces u w r) (hw : Peephole.leftovers w = [])
    (hl : Peephole.definedLabels w = []) : M.SameEffect w r := by
  have hall : ∀ {es : List Entry}, es.all isStraight = true → ∀ e ∈ es, isStraight e = true :=
    fun h => List.all_eq_true.1 h
  cases h
  case assignConstantToGlobal | copyGlobalToGlobal | addGlobalFirst
      | addGlobalAndConstantToGlobal => exact ⟨hall rfl, hall rfl, fun _ => rfl⟩
  case addConstantFirst =>
    -- The operands are pushed in the other order, and addition of bytes commutes.
    refine ⟨hall rfl, hall rfl, fun s => ?_⟩
    simp only [through, perform, act, Store.add_push_pushFrom]
  case incrementGlobal global type globalSize value constantType constantSize targetSize src hv =>
    refine ⟨hall rfl, hall rfl, fun s => ?_⟩
    have hone : value.toByte = 1 := Constant.toByte_of_isOne hv
    simp only [through, perform, act, hone]
    rfl
  case removeBranchToNext => cases hl
  all_goals cases hw

/-! ### Jumps that are dropped -/

section RemoveBranch

variable {before rest : List Entry} {l : Label} {src : List Instruction}

/-- The position without the jump after `before` that belongs to one with it. -/
def without (before : List Entry) (p : Nat) : Nat := if p ≤ before.length then p else p - 1

/-- The position with the jump after `before` that belongs to one without it. -/
def withJump (before : List Entry) (p : Nat) : Nat := if p < before.length then p else p + 1

theorem position?_invoke (before rest : List Entry) (call : Invocation) (k : Label) :
    position? (before ++ .invoke call :: rest) k =
      (position? before k).or ((position? rest k).map (· + 1 + before.length)) := by
  have hcons : (.invoke call :: rest : List Entry) = [.invoke call] ++ rest := rfl
  have hnone : position? [.invoke call] k = none := rfl
  rw [position?_append, hcons, position?_append, hnone, Option.none_or, Option.map_map]
  rfl

theorem position?_without {call : Invocation} {k : Label} {q : Nat}
    (h : position? (before ++ .invoke call :: rest) k = some q) :
    position? (before ++ rest) k = some (without before q) := by
  rw [position?_invoke] at h
  rw [position?_append]
  cases hb : position? before k with
  | some p =>
    rw [hb, Option.some_or, Option.some.injEq] at h
    subst h
    rw [Option.some_or, without, if_pos (Nat.le_of_lt (position?_lt hb))]
  | none =>
    rw [hb, Option.none_or, Option.map_eq_some_iff] at h
    obtain ⟨j, hj, rfl⟩ := h
    rw [Option.none_or, hj, without, if_neg (by omega)]
    simp only [Option.map_some, Option.some.injEq]
    omega

theorem position?_withJump {call : Invocation} {k : Label} {q : Nat}
    (h : position? (before ++ rest) k = some q) :
    position? (before ++ .invoke call :: rest) k = some (withJump before q) := by
  rw [position?_append] at h
  rw [position?_invoke]
  cases hb : position? before k with
  | some p =>
    rw [hb, Option.some_or, Option.some.injEq] at h
    subst h
    rw [Option.some_or, withJump, if_pos (position?_lt hb)]
  | none =>
    rw [hb, Option.none_or, Option.map_eq_some_iff] at h
    obtain ⟨j, hj, rfl⟩ := h
    rw [Option.none_or, hj, withJump, if_neg (by omega)]
    simp only [Option.map_some, Option.some.injEq]
    omega

theorem getElem?_withJump (before rest : List Entry) (e : Entry) (p : Nat) :
    (before ++ e :: rest)[withJump before p]? = (before ++ rest)[p]? := by
  unfold withJump
  split
  · rename_i hp
    rw [List.getElem?_append_left hp, List.getElem?_append_left hp]
  · rename_i hp
    rw [List.getElem?_append_right (by omega), List.getElem?_append_right (by omega),
      Nat.sub_add_comm (by omega), List.getElem?_cons_succ]

/-- An entry is the jump itself, or stands in the stream without it. -/
theorem getElem?_without {e e' : Entry} {p : Nat} (h : (before ++ e :: rest)[p]? = some e') :
    (p = before.length ∧ e' = e) ∨
      (p ≠ before.length ∧ (before ++ rest)[without before p]? = some e') := by
  rcases Nat.lt_trichotomy p before.length with hp | rfl | hp
  · refine .inr ⟨by omega, ?_⟩
    rw [List.getElem?_append_left hp] at h
    rw [without, if_pos (by omega), List.getElem?_append_left hp, h]
  · rw [List.getElem?_append_right (Nat.le_refl _), Nat.sub_self, List.getElem?_cons_zero,
      Option.some.injEq] at h
    exact .inl ⟨rfl, h.symm⟩
  · refine .inr ⟨by omega, ?_⟩
    obtain ⟨k, rfl⟩ := Nat.exists_eq_add_of_lt hp
    have hw := getElem?_withJump before rest e (before.length + k)
    rw [withJump, if_neg (by omega), h] at hw
    rw [without, if_neg (by omega), hw]
    rfl

/-- A run with the jump is a run without it. -/
theorem Run.removeBranch
    (hl : position? (before ++ .invoke ⟨.branch l, src⟩ :: rest) l = some (before.length + 1))
    {p : Nat} {s t : Store} {o : Ending}
    (h : M.Run (before ++ .invoke ⟨.branch l, src⟩ :: rest) p s o t) :
    M.Run (before ++ rest) (without before p) s o t := by
  induction h with
  | ranOff s =>
    have hend : without before (before ++ .invoke ⟨.branch l, src⟩ :: rest).length =
        (before ++ rest).length := by
      rw [without, if_neg] <;> simp only [List.length_append, List.length_cons] <;> omega
    rw [hend]
    exact .ranOff s
  | leave he hm =>
    rcases getElem?_without he with ⟨rfl, rfl⟩ | ⟨-, he'⟩
    · cases hm
    · exact .leave he' hm
  | @next p e s s₁ t o he hm _ ih =>
    rcases getElem?_without he with ⟨rfl, rfl⟩ | ⟨hp, he'⟩
    · cases hm
    · have hsucc : without before (p + 1) = without before p + 1 := by
        unfold without
        split <;> split <;> omega
      rw [hsucc] at ih
      exact .next he' hm ih
  | @jump p q e k s s₁ t o he hm hq _ ih =>
    rcases getElem?_without he with ⟨rfl, rfl⟩ | ⟨hp, he'⟩
    · -- The jump itself: without it the run is where it leads to.
      cases hm
      obtain rfl : before.length + 1 = q := Option.some.inj (hl.symm.trans hq)
      have hstay : without before (before.length + 1) = without before before.length := by
        simp [without]
      rwa [hstay] at ih
    · exact .jump he' hm (position?_without hq) ih

/-- The jump leads to the entry after it. -/
theorem Run.takeBranch
    (hl : position? (before ++ .invoke ⟨.branch l, src⟩ :: rest) l = some (before.length + 1))
    {s t : Store} {o : Ending}
    (h : M.Run (before ++ .invoke ⟨.branch l, src⟩ :: rest) (before.length + 1) s o t) :
    M.Run (before ++ .invoke ⟨.branch l, src⟩ :: rest) before.length s o t := by
  have he : (before ++ .invoke ⟨.branch l, src⟩ :: rest)[before.length]? =
      some (.invoke ⟨.branch l, src⟩) := by
    rw [List.getElem?_append_right (Nat.le_refl _), Nat.sub_self, List.getElem?_cons_zero]
  exact .jump he rfl hl h

/-- A run without the jump is a run with it. -/
theorem Run.insertBranch
    (hl : position? (before ++ .invoke ⟨.branch l, src⟩ :: rest) l = some (before.length + 1))
    {p : Nat} {s t : Store} {o : Ending} (h : M.Run (before ++ rest) p s o t) :
    M.Run (before ++ .invoke ⟨.branch l, src⟩ :: rest) (withJump before p) s o t := by
  induction h with
  | ranOff s =>
    have hend : withJump before (before ++ rest).length =
        (before ++ .invoke ⟨.branch l, src⟩ :: rest).length := by
      rw [withJump, if_neg] <;> simp only [List.length_append, List.length_cons] <;> omega
    rw [hend]
    exact .ranOff s
  | leave he hm => exact .leave (by rw [getElem?_withJump, he]) hm
  | @next p e s s₁ t o he hm _ ih =>
    refine .next (by rw [getElem?_withJump, he]) hm ?_
    rcases Nat.lt_trichotomy (p + 1) before.length with hp | hp | hp
    · rw [withJump, if_pos hp] at ih
      rwa [withJump, if_pos (by omega)]
    · -- The next entry comes after the jump, which has to be taken in between.
      rw [withJump, if_neg (by omega), hp] at ih
      rw [withJump, if_pos (by omega), hp]
      exact ih.takeBranch hl
    · rw [withJump, if_neg (by omega)] at ih
      rwa [withJump, if_neg (by omega)]
  | jump he hm hq _ ih => exact .jump (by rw [getElem?_withJump, he]) hm (position?_withJump hq) ih

/-- **A jump to the entry after it can be dropped.** -/
theorem run_removeBranch_iff
    (hl : position? (before ++ .invoke ⟨.branch l, src⟩ :: rest) l = some (before.length + 1))
    {s t : Store} {o : Ending} :
    M.Run (before ++ .invoke ⟨.branch l, src⟩ :: rest) 0 s o t ↔
      M.Run (before ++ rest) 0 s o t := by
  constructor
  · intro h
    have := h.removeBranch hl
    rwa [without, if_pos (Nat.zero_le _)] at this
  · intro h
    have hins := h.insertBranch hl
    rcases Nat.eq_zero_or_pos before.length with hz | hpos
    · rw [withJump, if_neg (by omega), ← hz] at hins
      rw [← hz]
      exact hins.takeBranch hl
    · rwa [withJump, if_pos hpos] at hins

end RemoveBranch

end Machine

/-! ### Whole streams -/

namespace Peephole

variable {M : Machine}

/-- In a stream that defines no label twice, a label has the position of its definition. -/
theorem position?_of_nodup {before after : List Entry} {l : Label}
    (h : (definedLabels (before ++ .label l :: after)).Nodup) :
    position? (before ++ .label l :: after) l = some before.length := by
  have hb : l ∉ definedLabels before := by
    intro hl
    rw [definedLabels_append, List.nodup_append] at h
    exact h.2.2 l hl l (List.mem_cons_self ..) rfl
  rw [position?_append, position?_eq_none_of_not_mem hb, Option.none_or]
  simp [position?, Entry.definedLabel?, List.findIdx?_cons]

/-- One replacement keeps every run of a stream without placeholders. -/
theorem run_iff_of_rewrites {u : Universe} {rules : List Rule} {es es' : List Entry}
    (h : Rewrites u rules es es') (hp : leftovers es = []) (hd : (definedLabels es).Nodup)
    {s t : Store} {o : Ending} : M.Run es 0 s o t ↔ M.Run es' 0 s o t := by
  obtain @⟨before, after, rule, w, r, hr, hw⟩ := h
  -- The rule for jumps is the only one with a label in its window.
  by_cases hl : definedLabels w = []
  · simp only [leftovers_append, List.append_eq_nil_iff] at hp
    have hne : w ≠ [] ∧ r ≠ [] := by cases hw <;> simp
    exact Machine.run_replace_iff hne.1 hne.2 (Machine.sameEffect_of_replaces hw hp.1.2 hl)
  · cases hw
    case removeBranchToNext l src =>
      rw [List.append_assoc, List.append_assoc]
      apply Machine.run_removeBranch_iff
      have hpos : (definedLabels
          ((before ++ [.invoke ⟨.branch l, src⟩]) ++ .label l :: after)).Nodup := by
        simpa using hd
      have := position?_of_nodup hpos
      simpa using this
    all_goals exact absurd rfl hl

/-- **Optimizing keeps the meaning of a stream.** A stream without placeholders whose labels are
defined once is optimized without fail, and its runs from the first entry end in the same way, with
the same memory, stack and trace, before and after. -/
theorem run_iff_of_optimize (M : Machine) (ctx : Context) (m : Member) (es : List Entry)
    (hp : leftovers es = []) (hd : (definedLabels es).Nodup) :
    ∃ out, optimize ctx m es = .ok out ∧
      ∀ s o t, M.Run es 0 s o t ↔ M.Run out 0 s o t := by
  obtain ⟨out, hout⟩ := exists_optimize_of_leftovers ctx m hp
  refine ⟨out, hout, fun s o t => ?_⟩
  -- Along the replacements the stream stays without placeholders and keeps its labels.
  have hinv : leftovers out = [] ∧ definedLabels out = definedLabels es ∧
      (M.Run es 0 s o t ↔ M.Run out 0 s o t) := by
    have hsteps := reflTransGen_of_optimize hout
    clear hout
    induction hsteps with
    | refl => exact ⟨hp, rfl, Iff.rfl⟩
    | tail _ hstep ih =>
      obtain ⟨hp', hd', hrun⟩ := ih
      refine ⟨leftovers_of_rewrites hstep hp', (definedLabels_of_rewrites hstep).trans hd', ?_⟩
      exact hrun.trans (run_iff_of_rewrites hstep hp' (hd' ▸ hd))
  exact hinv.2.2

/-- A stream that jumps over an addition and then adds one to a byte still does so. -/
theorem run_of_optimize_increment :
    let score : Label := .global ⟨⟨"Game"⟩, "score"⟩
    let es : List Entry :=
      [.synthetic (.branch (.instruction 4)), .synthetic .addFromStack, .label (.instruction 4),
       .synthetic (.pushGlobal score (.type .byte) (.size .byte)),
       .synthetic (.pushConstant (.byte 1) (.type .byte) (.size .byte)),
       .synthetic .addFromStack, .synthetic (.popToGlobal score (.type .byte) (.size .byte))]
    leftovers es = [] ∧ (definedLabels es).Nodup ∧
      ∀ M : Machine, ∃ out, optimize ⟨⟨[]⟩, {}⟩ ⟨⟨"Game"⟩, "Tick"⟩ es = .ok out ∧
        ∀ s : Store, M.Run out 0 s .ranOff ((s.read score).2.write score (s.memory score + 1)) := by
  intro score es
  have hd : (definedLabels es).Nodup := by decide
  refine ⟨rfl, hd, fun M => ?_⟩
  obtain ⟨out, hout, hrun⟩ := run_iff_of_optimize M ⟨⟨[]⟩, {}⟩ ⟨⟨"Game"⟩, "Tick"⟩ es rfl hd
  refine ⟨out, hout, fun s => ?_⟩
  rw [← hrun]
  have hend : M.Run es 7 _ .ranOff _ := .ranOff ((s.read score).2.write score (s.memory score + 1))
  exact .jump rfl rfl rfl <| .next rfl rfl <| .next rfl rfl <| .next rfl rfl <|
    .next rfl rfl <| .next rfl rfl hend

end Peephole

end Cartridge
