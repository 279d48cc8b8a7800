import Cartridge.Proofs.Checks

/-!
# Replaying a stream slot by slot

`track` annotates every macro on its own. `replay` carries one model of the stack from macro to
macro and works on its slots by index: a pop takes out the slot at index 0 and adds an empty one, a
push moves all slots by one place and writes the slot at index 0. An index without a slot would stop
it (`Stop.outOfRange`).

**`track_refuses_iff`**: a stream is refused iff the stack gets deeper than 255, or never holds
anything and is taken from. Replaying it gives the same result as `track`, so that no index is ever
out of range, however much a stream takes from an empty stack.

A macro leaves as many slots as there were (`width_of_apply`), and the model is back at the
placeholders after each macro, so that what one macro does depends on the width alone.
-/

namespace Cartridge

/-- Why the replay of a stream stops. -/
inductive Stop where
  /-- There is no slot at the index. -/
  | outOfRange (index width : Nat)
  /-- The stream is refused. -/
  | refused (err : Error)
deriving DecidableEq, Repr

namespace StackModel

/-! ### Slots by index -/

/-- Takes out the slot at an index. -/
def removeAt (m : StackModel) (index : Nat) : Except Stop StackModel :=
  if index < m.width then .ok ⟨m.slots.eraseIdx index⟩ else .error (.outOfRange index m.width)

/-- Writes the slot at an index. -/
def writeAt (m : StackModel) (index : Nat) (s : Slot) : Except Stop StackModel :=
  if index < m.width then .ok ⟨m.slots.set index s⟩ else .error (.outOfRange index m.width)

/-- Moves every slot down by `places`, the lowest ones to the top. -/
def rotateBy (m : StackModel) (places : Nat) : Except Stop StackModel :=
  if places ≤ m.width
  then .ok ⟨m.slots.drop (m.width - places) ++ m.slots.take (m.width - places)⟩
  else .error (.outOfRange places m.width)

/-- Takes slots out at the top one by one, each time with an empty one at the bottom. -/
def shiftOut (m : StackModel) : Nat → Except Stop StackModel
  | 0 => .ok m
  | n + 1 => do
    let rest ← m.removeAt 0
    shiftOut ⟨rest.slots ++ [.nothing]⟩ n

/-- Takes slots from the top, of which there must be some. -/
def popSlots (m : StackModel) (amount : Nat) : Except Stop StackModel :=
  if amount = 0 then .ok m
  else if m.slots.isEmpty then .error (.refused .stackDepth)
  else m.shiftOut amount

/-- Puts a slot on top, over the bottom one. -/
def pushSlot (m : StackModel) (s : Slot) : Except Stop StackModel :=
  if m.slots.isEmpty then .error (.refused .stackDepth)
  else do
    let moved ← m.rotateBy 1
    moved.writeAt 0 s

/-- The model after a macro, of whose pushed values no more count than its effect says. -/
def follow (m : StackModel) (op : MacroOp) : Except Stop StackModel := do
  let popped ← m.popSlots op.effect.pops
  (op.pushed?.toList.take op.effect.pushes).foldlM (fun m p => m.pushSlot ⟨p.1, p.2⟩) popped

/-- A stream with its assignments, from a model on. The model is set back to the placeholders where
it is written out. -/
def replayFrom (m : StackModel) : List Entry → Except Stop (List Entry)
  | [] => .ok []
  | e :: es =>
    match e.op? with
    | none => (replayFrom m es).map (e :: ·)
    | some op => do
      let after ← m.follow op
      if after.isDirty
      then (replayFrom (placeholders after.width) es).map (e :: after.setters ++ ·)
      else (replayFrom after es).map (e :: ·)

/-- A stream with the assignments of both arrays. -/
def replay (es : List Entry) : Except Stop (List Entry) :=
  match ofWidth (maxDepth es) with
  | .error err => .error (.refused err)
  | .ok m => (replayFrom m es).map (m.initialization ++ ·)

/-! ### No index is out of range -/

variable {m : StackModel}

theorem isEmpty_eq_false_iff : m.slots.isEmpty = false ↔ 0 < m.width := by
  rw [List.isEmpty_eq_false_iff, width, List.length_pos_iff]

theorem shiftOut_eq_drop (hm : 0 < m.width) (n : Nat) : m.shiftOut n = .ok (m.drop n) := by
  induction n generalizing m with
  | zero => rfl
  | succ n ih =>
    have hremove : m.removeAt 0 = .ok ⟨m.slots.tail⟩ := by
      rw [removeAt, if_pos hm, List.eraseIdx_zero]
    rw [shiftOut, hremove, drop]
    exact ih (by simp [width])

theorem popSlots_eq (m : StackModel) (n : Nat) :
    m.popSlots n = (m.pop n).mapError .refused := by
  unfold popSlots pop
  by_cases hn : n = 0
  · subst hn
    rw [if_pos rfl, if_neg fun h => h.1 rfl]
    rfl
  · rw [if_neg hn]
    by_cases hm : m.slots.isEmpty = true
    · rw [if_pos hm, if_pos ⟨hn, hm⟩]
      rfl
    · rw [if_neg hm, if_neg fun h => hm h.2]
      exact shiftOut_eq_drop (isEmpty_eq_false_iff.1 (Bool.eq_false_iff.2 hm)) n

theorem pushSlot_eq (m : StackModel) (s : Slot) :
    m.pushSlot s = (m.push s).mapError .refused := by
  unfold pushSlot push
  obtain ⟨slots⟩ := m
  rcases List.eq_nil_or_concat slots with rfl | ⟨kept, bottom, rfl⟩
  · rfl
  · have hrotate : (⟨kept ++ [bottom]⟩ : StackModel).rotateBy 1 = .ok ⟨bottom :: kept⟩ := by
      simp [rotateBy, width]
    have hwrite : (⟨bottom :: kept⟩ : StackModel).writeAt 0 s = .ok ⟨s :: kept⟩ := by
      simp [writeAt, width]
    have hsome : ¬ (kept ++ [bottom]).isEmpty = true := by simp
    rw [List.concat_eq_append, if_neg hsome, if_neg hsome, hrotate, List.dropLast_concat]
    exact hwrite

theorem follow_eq (m : StackModel) (op : MacroOp) :
    m.follow op = (m.apply op).mapError .refused := by
  unfold follow apply
  rw [MacroOp.pushes_eq_length, List.take_length, popSlots_eq]
  cases m.pop op.effect.pops with
  | error err => rfl
  | ok popped =>
    cases op.pushed? with
    | none => rfl
    | some pushed =>
      have hpush := pushSlot_eq popped ⟨pushed.1, pushed.2⟩
      show [pushed].foldlM (fun m p => m.pushSlot ⟨p.1, p.2⟩) popped = _
      rw [List.foldlM_cons, hpush]
      show _ = (popped.push ⟨pushed.1, pushed.2⟩).mapError Stop.refused
      cases popped.push ⟨pushed.1, pushed.2⟩ <;> rfl

/-! ### One macro at a time -/

theorem width_of_push {after : StackModel} {s : Slot} (h : m.push s = .ok after) :
    after.width = m.width := by
  unfold push at h
  split at h
  · cases h
  · rename_i hm
    have hpos := isEmpty_eq_false_iff.1 (Bool.eq_false_iff.2 hm)
    cases h
    simp only [width, List.length_cons, List.length_dropLast] at hpos ⊢
    omega

theorem width_of_pop {after : StackModel} {n : Nat} (h : m.pop n = .ok after) :
    after.width = m.width := by
  unfold pop at h
  split at h
  · cases h
  · rename_i hc
    cases h
    by_cases hn : n = 0
    · subst hn
      rfl
    · exact length_slots_drop m (fun hm => hc ⟨hn, by rw [hm]; rfl⟩) n

/-- A macro leaves as many slots as there were. -/
theorem width_of_apply {op : MacroOp} {after : StackModel} (h : m.apply op = .ok after) :
    after.width = m.width := by
  obtain ⟨popped, hpop, h⟩ := bind_eq_ok.1 h
  rw [← width_of_pop hpop]
  split at h
  · rw [pure_eq_ok.1 h]
  · exact width_of_push h

/-- What becomes of the first entry and of the others is put together. -/
theorem annotated_cons (m : StackModel) {e : Entry} {piece : List Entry} (es : List Entry)
    (h : m.annotate e = .ok piece) :
    (((e :: es).mapM m.annotate).map List.flatten).mapError Stop.refused =
      (((es.mapM m.annotate).map List.flatten).mapError Stop.refused).map (piece ++ ·) := by
  rw [List.mapM_cons, h]
  cases es.mapM m.annotate <;> rfl

/-- Replaying comes back to the placeholders after each macro, so that it annotates every macro on
its own. -/
theorem replayFrom_eq (n : Nat) (es : List Entry) :
    (placeholders n).replayFrom es =
      ((es.mapM (placeholders n).annotate).map List.flatten).mapError .refused := by
  induction es with
  | nil => rfl
  | cons e es ih =>
    cases hop : e.op? with
    | none =>
      have hpiece : (placeholders n).annotate e = .ok [e] := by rw [annotate, hop]
      rw [annotated_cons _ es hpiece, replayFrom, hop, ← ih]
      rfl
    | some op =>
      cases hafter : (placeholders n).apply op with
      | error err =>
        have hpiece : (placeholders n).annotate e = .error err := by
          simp only [annotate, hop, hafter]
          rfl
        rw [List.mapM_cons, hpiece]
        simp only [replayFrom, hop, follow_eq, hafter]
        rfl
      | ok after =>
        have hwidth : after.width = n := (width_of_apply hafter).trans (length_placeholders n)
        have hpiece : (placeholders n).annotate e =
            .ok (if after.isDirty then e :: after.setters else [e]) := by
          simp only [annotate, hop, hafter]
          rfl
        rw [annotated_cons _ es hpiece, ← ih]
        simp only [replayFrom, hop, follow_eq, hafter]
        show (if after.isDirty = true then _ else _) = _
        by_cases hdirty : after.isDirty = true
        · rw [if_pos hdirty, if_pos hdirty, hwidth]
        · have hplain : after = placeholders n := by
            rw [isDirty, hwidth] at hdirty
            simpa using hdirty
          rw [if_neg hdirty, if_neg hdirty, hplain]
          rfl

/-- **Replaying a stream gives what tracking gives**, and no index is out of range. -/
theorem replay_eq (es : List Entry) : replay es = (track es).mapError .refused := by
  unfold replay track
  cases hmodel : ofWidth (maxDepth es) with
  | error err => rfl
  | ok model =>
    obtain rfl : model = placeholders (maxDepth es) := by
      unfold ofWidth at hmodel
      split at hmodel
      · exact (Except.ok.inj hmodel).symm
      · cases hmodel
    show ((placeholders _).replayFrom es).map _ = _
    rw [replayFrom_eq]
    show _ = (es.mapM (placeholders (maxDepth es)).annotate >>= fun annotated => _).mapError
      Stop.refused
    cases es.mapM (placeholders (maxDepth es)).annotate <;> rfl

/-! ### What is refused -/

theorem eq_of_apply_error {op : MacroOp} {err : Error} (h : m.apply op = .error err) :
    err = .stackDepth := by
  rcases bind_eq_error.1 h with h | ⟨popped, -, h⟩
  · unfold pop at h
    split at h <;> cases h
    rfl
  · split at h
    · cases h
    · unfold push at h
      split at h <;> cases h
      rfl

/-- Tracking has one way to fail. -/
theorem eq_of_track_error {es : List Entry} {err : Error} (h : track es = .error err) :
    err = .stackDepth := by
  rcases bind_eq_error.1 h with h | ⟨model, -, h⟩
  · unfold ofWidth at h
    split at h <;> cases h
    rfl
  · rcases bind_eq_error.1 h with h | ⟨pieces, -, h⟩
    · obtain ⟨e, -, he⟩ := exists_of_mapM_error h
      unfold annotate at he
      split at he
      · cases he
      · rcases bind_eq_error.1 he with he | ⟨after, -, he⟩
        · exact eq_of_apply_error he
        · cases he
    · cases h

/-- The stack gets deeper than an index can say, or something is taken from a stack that never holds
anything. -/
def Untrackable (es : List Entry) : Prop :=
  255 < maxDepth es ∨ maxDepth es = 0 ∧ ∃ op ∈ es.filterMap (·.op?), 0 < op.effect.pops

theorem exists_track_iff_not_untrackable (es : List Entry) :
    (∃ out, track es = .ok out) ↔ ¬ Untrackable es := by
  rw [exists_track_iff, Untrackable, not_or, not_lt, not_and, not_exists]
  simp only [maxWidth, not_and, Nat.not_lt, Nat.le_zero]

/-- **A stream is refused** iff the stack gets deeper than 255, or something is taken from a stack
that never holds anything. In every other case there is a result. The replay of the stream by index
never comes to an index without a slot, and gives what `track` gives. -/
theorem track_refuses_iff (es : List Entry) :
    (track es = .error .stackDepth ↔ Untrackable es) ∧
      (¬ Untrackable es → ∃ out, track es = .ok out) ∧
      (∀ index width, replay es ≠ .error (.outOfRange index width)) ∧
      replay es = (track es).mapError .refused := by
  have hok := exists_track_iff_not_untrackable es
  refine ⟨⟨fun h => ?_, fun h => ?_⟩, hok.2, fun index width h => ?_, replay_eq es⟩
  · by_contra hn
    obtain ⟨out, hout⟩ := hok.2 hn
    rw [h] at hout
    cases hout
  · cases htrack : track es with
    | ok out => exact absurd h (hok.1 ⟨out, htrack⟩)
    | error err => rw [eq_of_track_error htrack]
  · rw [replay_eq] at h
    cases htrack : track es with
    | ok out => rw [htrack] at h; cases h
    | error err => rw [htrack] at h; cases h

end StackModel

end Cartridge
