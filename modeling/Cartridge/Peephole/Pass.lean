import Cartridge.Peephole.Rule

/-!
# Peephole passes

A sweep of a rule goes through the stream from the left. Where the rule applies, its window is
replaced and the rule is tried again at the same place; otherwise the sweep moves one entry on. A
pass is a sweep of every rule in turn.

`sweep` says this on plain lists. `Cursor.sweep` keeps the entries that it has passed in reverse;
`Cursor.sweep_eq` says that the two agree.
-/

namespace Cartridge.Peephole

open Rule (weight)

/-- A sweep of a rule. -/
def sweep (u : Universe) (rule : Rule) : List Entry → Except Error (List Entry)
  | [] => .ok []
  | e :: es =>
    match _h : rule.replacement? u ((e :: es).take rule.window) with
    | .error err => .error err
    | .ok (some r) => sweep u rule (r ++ (e :: es).drop rule.window)
    | .ok none => (sweep u rule es).map (e :: ·)
termination_by es => weight es
decreasing_by
  · exact Rule.weight_replace_lt _h
  · exact Rule.weight_lt_cons e es

theorem sweep_cons (u : Universe) (rule : Rule) (e : Entry) (es : List Entry) :
    sweep u rule (e :: es) =
      match rule.replacement? u ((e :: es).take rule.window) with
      | .error err => .error err
      | .ok (some r) => sweep u rule (r ++ (e :: es).drop rule.window)
      | .ok none => (sweep u rule es).map (e :: ·) := by
  rw [sweep]
  split <;> simp_all

/-- A sweep ends where less is left than a window. -/
theorem sweep_of_length_lt {u : Universe} {rule : Rule} {es : List Entry}
    (h : es.length < rule.window) : sweep u rule es = .ok es := by
  induction es with
  | nil => rw [sweep]
  | cons e es ih =>
    have hnone : rule.replacement? u ((e :: es).take rule.window) = .ok none := by
      rw [List.take_of_length_le (Nat.le_of_lt h)]
      exact Rule.replacement?_of_length_lt h u
    rw [sweep_cons, hnone, ih (Nat.lt_of_succ_lt h)]
    rfl

/-- A place in a stream. -/
structure Cursor where
  /-- The entries before the place, in reverse. -/
  passed : List Entry
  /-- The entries from the place on. -/
  ahead : List Entry

namespace Cursor

/-- A sweep of a rule from a place on. -/
def sweep (u : Universe) (rule : Rule) (c : Cursor) : Except Error (List Entry) :=
  match c with
  | ⟨passed, []⟩ => .ok passed.reverse
  | ⟨passed, e :: es⟩ =>
    match _h : rule.replacement? u ((e :: es).take rule.window) with
    | .error err => .error err
    | .ok (some r) => sweep u rule ⟨passed, r ++ (e :: es).drop rule.window⟩
    | .ok none => sweep u rule ⟨e :: passed, es⟩
termination_by weight c.ahead
decreasing_by
  · exact Rule.weight_replace_lt _h
  · exact Rule.weight_lt_cons e es

theorem sweep_cons (u : Universe) (rule : Rule) (passed : List Entry) (e : Entry)
    (es : List Entry) :
    sweep u rule ⟨passed, e :: es⟩ =
      match rule.replacement? u ((e :: es).take rule.window) with
      | .error err => .error err
      | .ok (some r) => sweep u rule ⟨passed, r ++ (e :: es).drop rule.window⟩
      | .ok none => sweep u rule ⟨e :: passed, es⟩ := by
  rw [sweep]
  split <;> simp_all

/-- A sweep with a cursor is a sweep of what is ahead, after what is passed. -/
theorem sweep_eq (u : Universe) (rule : Rule) (c : Cursor) :
    c.sweep u rule = (Peephole.sweep u rule c.ahead).map (c.passed.reverse ++ ·) := by
  fun_induction Cursor.sweep u rule c with
  | case1 passed => simp [Peephole.sweep, Except.map]
  | case2 passed e es err h =>
    rw [Peephole.sweep]
    split <;> simp_all [Except.map]
  | case3 passed e es r h ih =>
    rw [ih, Peephole.sweep]
    split <;> simp_all
  | case4 passed e es h ih =>
    rw [ih, Peephole.sweep]
    split
    · simp_all
    · simp_all
    · cases Peephole.sweep u rule es <;> simp [Except.map]

end Cursor

/-- A pass: a sweep of every rule in turn. -/
def pass (u : Universe) : List Rule → List Entry → Except Error (List Entry)
  | [], es => .ok es
  | rule :: rules, es =>
    match Cursor.sweep u rule ⟨[], es⟩ with
    | .error err => .error err
    | .ok out => pass u rules out

/-- A sweep leaves the stream as it is or makes it lighter. -/
theorem eq_or_weight_of_sweep {u : Universe} {rule : Rule} {es out : List Entry}
    (h : sweep u rule es = .ok out) : out = es ∨ weight out < weight es := by
  fun_induction sweep u rule es generalizing out with
  | case1 => simp_all
  | case2 => cases h
  | case3 e es r hr ih =>
    rcases ih h with rfl | hlt
    · exact .inr (Rule.weight_replace_lt hr)
    · exact .inr (Nat.lt_trans hlt (Rule.weight_replace_lt hr))
  | case4 e es _ ih =>
    cases hrest : sweep u rule es with
    | error err => simp [hrest, Except.map] at h
    | ok rest =>
      simp only [hrest, Except.map, Except.ok.injEq] at h
      subst h
      rcases ih hrest with rfl | hlt
      · exact .inl rfl
      · exact .inr (by simp only [Rule.weight_cons]; omega)

/-- A pass leaves the stream as it is or makes it lighter. -/
theorem eq_or_weight_of_pass {u : Universe} {rules : List Rule} {es out : List Entry}
    (h : pass u rules es = .ok out) : out = es ∨ weight out < weight es := by
  induction rules generalizing es with
  | nil => simp_all [pass]
  | cons rule rules ih =>
    rw [pass, Cursor.sweep_eq] at h
    cases hs : sweep u rule es with
    | error err => simp [hs, Except.map] at h
    | ok mid =>
      simp only [hs, Except.map, List.reverse_nil, List.nil_append] at h
      rcases ih h with rfl | hlt
      · exact eq_or_weight_of_sweep hs
      · rcases eq_or_weight_of_sweep hs with rfl | hmid
        · exact .inr hlt
        · exact .inr (Nat.lt_trans hlt hmid)

end Cartridge.Peephole
