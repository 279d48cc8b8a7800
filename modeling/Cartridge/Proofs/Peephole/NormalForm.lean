import Cartridge.Proofs.Halting
import Cartridge.Proofs.Peephole.Confluence

/-!
# Optimizing ends in a normal form

A sweep is a loop that replaces a window or moves on (`Cursor.Step`), and `normalize` is a loop of
passes that change the stream (`Changes`). Both make a stream lighter with every step, so that they
end after a number of steps that is linear in its length (`Cursor.halts_sweep`, `halts_normalize`).

A replacement makes a stream longer only where a text meets its use as inline assembly, and it never
brings two such placeholders together (`length_of_rewrites`).

**`normal_of_optimize`**: both loops end, and what `optimize` returns is a normal form, which
`optimize` leaves alone, of bounded length.
-/

namespace Cartridge.Peephole

open Rule (weight)

variable {u : Universe} {rules : List Rule} {es es' out : List Entry}

/-! ### Sweeps end -/

theorem weight_le (es : List Entry) : weight es ≤ 4 * es.length := by
  induction es with
  | nil => exact Nat.le_refl _
  | cons e es ih =>
    have he : Rule.entryWeight e ≤ 4 := by
      unfold Rule.entryWeight
      split <;> omega
    rw [Rule.weight_cons, List.length_cons]
    omega

namespace Cursor

variable {rule : Rule} {c c' : Cursor}

/-- One step of a sweep: the window at the place is replaced, or the place moves on by one entry. -/
inductive Step (u : Universe) (rule : Rule) : Cursor → Cursor → Prop where
  | replace {passed : List Entry} {e : Entry} {es r : List Entry}
      (h : rule.replacement? u ((e :: es).take rule.window) = .ok (some r)) :
      Step u rule ⟨passed, e :: es⟩ ⟨passed, r ++ (e :: es).drop rule.window⟩
  | move {passed : List Entry} {e : Entry} {es : List Entry}
      (h : rule.replacement? u ((e :: es).take rule.window) = .ok none) :
      Step u rule ⟨passed, e :: es⟩ ⟨e :: passed, es⟩

/-- A sweep stops behind the last entry, and returns what it has passed, or at a window that the
rule rejects, and fails. -/
inductive Stops (u : Universe) (rule : Rule) : Except Error (List Entry) → Cursor → Prop where
  | finished {passed : List Entry} : Stops u rule (.ok passed.reverse) ⟨passed, []⟩
  | rejected {passed : List Entry} {e : Entry} {es : List Entry} {err : Error}
      (h : rule.replacement? u ((e :: es).take rule.window) = .error err) :
      Stops u rule (.error err) ⟨passed, e :: es⟩

theorem weight_of_step (h : Step u rule c c') : weight c'.ahead < weight c.ahead := by
  cases h with
  | replace h => exact Rule.weight_replace_lt h
  | @move passed e es h => exact Rule.weight_lt_cons e es

/-- A sweep makes steps until it stops. -/
theorem exists_stops (u : Universe) (rule : Rule) (c : Cursor) :
    ∃ c', Relation.ReflTransGen (Step u rule) c c' ∧ Stops u rule (c.sweep u rule) c' := by
  fun_induction Cursor.sweep u rule c with
  | case1 passed => exact ⟨_, .refl, .finished⟩
  | case2 passed e es err h => exact ⟨_, .refl, .rejected h⟩
  | case3 passed e es r h ih =>
    obtain ⟨c', hsteps, hstops⟩ := ih
    exact ⟨c', .head (.replace h) hsteps, hstops⟩
  | case4 passed e es h ih =>
    obtain ⟨c', hsteps, hstops⟩ := ih
    exact ⟨c', .head (.move h) hsteps, hstops⟩

/-- **A sweep ends** after at most four steps per entry. -/
theorem halts_sweep (u : Universe) (rule : Rule) (es : List Entry) :
    Halts (Step u rule) (Stops u rule (sweep u rule ⟨[], es⟩)) ⟨[], es⟩ (4 * es.length) := by
  obtain ⟨c', hsteps, hstops⟩ := exists_stops u rule ⟨[], es⟩
  exact (Halts.of_falling (fun c => weight c.ahead) (fun _ _ => weight_of_step) hsteps
    hstops).mono (weight_le es)

end Cursor

/-! ### Passes end -/

/-- A pass that changes the stream. -/
def Changes (u : Universe) (rules : List Rule) (es out : List Entry) : Prop :=
  pass u rules es = .ok out ∧ out ≠ es

/-- Passes stop at a stream that a pass leaves alone, and return it, or at one on which a pass
fails. -/
inductive Stops (u : Universe) (rules : List Rule) : Except Error (List Entry) → List Entry → Prop
    where
  | unchanged {es : List Entry} (h : pass u rules es = .ok es) : Stops u rules (.ok es) es
  | failed {es : List Entry} {err : Error} (h : pass u rules es = .error err) :
      Stops u rules (.error err) es

theorem exists_stops (u : Universe) (rules : List Rule) (es : List Entry) :
    ∃ out, Relation.ReflTransGen (Changes u rules) es out ∧
      Stops u rules (normalize u rules es) out := by
  fun_induction normalize u rules es with
  | case1 es err h =>
    rw [EntryList.pass_eq] at h
    exact ⟨es, .refl, .failed h⟩
  | case2 es h =>
    rw [EntryList.pass_eq] at h
    exact ⟨es, .refl, .unchanged h⟩
  | case3 es mid h hne ih =>
    rw [EntryList.pass_eq] at h
    obtain ⟨out, hsteps, hstops⟩ := ih
    exact ⟨out, .head ⟨h, hne⟩ hsteps, hstops⟩

/-- **Passes end** after at most four of them per entry. -/
theorem halts_normalize (u : Universe) (rules : List Rule) (es : List Entry) :
    Halts (Changes u rules) (Stops u rules (normalize u rules es)) es (4 * es.length) := by
  obtain ⟨out, hsteps, hstops⟩ := exists_stops u rules es
  exact (Halts.of_falling weight (fun _ _ h => (eq_or_weight_of_pass h.1).resolve_left h.2) hsteps
    hstops).mono (weight_le es)

/-! ### Length -/

/-- Whether an entry is a text and the next one its use as inline assembly. -/
def isInlinePair : Entry → Option Entry → Bool
  | .pending (.loadString ..), some (.pending (.inlineAssemblyCall _)) => true
  | _, _ => false

/-- The number of texts that their use as inline assembly follows directly. -/
def inlinePairs : List Entry → Nat
  | [] => 0
  | e :: es => inlinePairs es + (isInlinePair e es.head?).toNat

@[simp] theorem inlinePairs_nil : inlinePairs [] = 0 := rfl

@[simp] theorem inlinePairs_cons (e : Entry) (es : List Entry) :
    inlinePairs (e :: es) = inlinePairs es + (isInlinePair e es.head?).toNat := rfl

@[simp] theorem isInlinePair_none (e : Entry) : isInlinePair e none = false := by
  unfold isInlinePair
  split
  · rename_i h
    cases h
  · rfl

theorem isInlinePair_left {e : Entry} (he : e.pending? = none) (next : Option Entry) :
    isInlinePair e next = false := by
  cases e with
  | pending p => cases he
  | _ => rfl

theorem isInlinePair_right {e : Entry} (he : e.pending? = none) (first : Entry) :
    isInlinePair first (some e) = false := by
  unfold isInlinePair
  split
  · rename_i heq
    cases Option.some.inj heq
    cases he
  · rfl

theorem inlinePairs_append_le (as bs : List Entry) :
    inlinePairs as + inlinePairs bs ≤ inlinePairs (as ++ bs) := by
  induction as with
  | nil => simp
  | cons a as ih =>
    cases as with
    | nil => simp
    | cons a' as =>
      simp only [List.cons_append, inlinePairs_cons, List.head?_cons] at ih ⊢
      omega

/-- No pair reaches over an entry that is no placeholder. -/
theorem inlinePairs_append_cons {e : Entry} (he : e.pending? = none) (as bs : List Entry) :
    inlinePairs (as ++ e :: bs) = inlinePairs as + inlinePairs bs := by
  induction as with
  | nil => simp [isInlinePair_left he]
  | cons a as ih =>
    cases as with
    | nil => simp [isInlinePair_left he, isInlinePair_right he]
    | cons a' as =>
      simp only [List.cons_append, inlinePairs_cons, List.head?_cons] at ih ⊢
      omega

theorem inlinePairs_around {r : List Entry} (hne : r ≠ []) (hr : leftovers r = [])
    (as bs : List Entry) : inlinePairs (as ++ r ++ bs) = inlinePairs as + inlinePairs bs := by
  rw [leftovers_eq_nil_iff] at hr
  induction r generalizing as with
  | nil => exact absurd rfl hne
  | cons e r ih =>
    obtain ⟨he, hr⟩ := List.forall_mem_cons.1 hr
    cases r with
    | nil => rw [List.append_assoc, List.singleton_append, inlinePairs_append_cons he]
    | cons e' r =>
      have hrest := ih (List.cons_ne_nil e' r) hr (as ++ [e])
      rw [List.append_cons, hrest, inlinePairs_append_cons he, inlinePairs_nil, Nat.add_zero]

/-- Only inline assembly takes more entries than its window. -/
theorem length_of_replaces {rule : Rule} {w r : List Entry} (h : rule.Replaces u w r) :
    r ≠ [] ∧ r.length ≤ w.length + inlinePairs w := by
  cases h <;> simp [isInlinePair]

/-- A replacement makes a stream longer only by as much as it has fewer pairs. -/
theorem length_of_rewrites (h : Rewrites u rules es es') :
    es'.length + inlinePairs es' ≤ es.length + inlinePairs es := by
  obtain @⟨before, after, rule, w, r, -, hw⟩ := h
  obtain ⟨hne, hlength⟩ := length_of_replaces hw
  -- No placeholder is put in, so no pair reaches into the replacement or over it.
  have hafter := inlinePairs_around hne (leftovers_of_replaces hw) before after
  have hbefore := inlinePairs_append_le (before ++ w) after
  have hwindow := inlinePairs_append_le before w
  simp only [List.length_append]
  omega

theorem length_of_reflTransGen (h : Relation.ReflTransGen (Rewrites u rules) es es') :
    es'.length + inlinePairs es' ≤ es.length + inlinePairs es := by
  induction h with
  | refl => exact Nat.le_refl _
  | tail _ hstep ih => exact Nat.le_trans (length_of_rewrites hstep) ih

/-! ### Normal forms -/

/-- What passes return is left alone by further passes. -/
theorem normalize_of_normalize (h : normalize u rules es = .ok out) :
    normalize u rules out = .ok out := by
  have hpass := pass_of_normalize h
  rw [normalize]
  split
  · rename_i err herr
    rw [EntryList.pass_eq, hpass] at herr
    cases herr
  · rename_i out' hout'
    rw [EntryList.pass_eq, hpass] at hout'
    cases hout'
    rw [dif_pos rfl]

/-- **Optimizing ends in a normal form.** The sweeps of every rule over any stream and the passes
over the given one come to an end. If a stream is returned, then no active rule replaces or rejects
a window of it, it is returned again if it is optimized, and it is longer than the given one by at
most one entry for each text that its use as inline assembly follows. -/
theorem normal_of_optimize (ctx : Context) (m : Member) (es : List Entry) :
    (∀ rule ∈ Peephole.rules ctx.options, ∀ stream,
      Halts (Cursor.Step ctx.program rule)
        (Cursor.Stops ctx.program rule (Cursor.sweep ctx.program rule ⟨[], stream⟩)) ⟨[], stream⟩
        (4 * stream.length)) ∧
      Halts (Changes ctx.program (Peephole.rules ctx.options))
        (Stops ctx.program (Peephole.rules ctx.options)
          (normalize ctx.program (Peephole.rules ctx.options) es)) es (4 * es.length) ∧
      ∀ out, optimize ctx m es = .ok out →
        Settled ctx.program (Peephole.rules ctx.options) out ∧ optimize ctx m out = .ok out ∧
          out.length ≤ es.length + inlinePairs es := by
  refine ⟨fun rule _ => Cursor.halts_sweep _ rule, halts_normalize _ _ es, fun out h => ?_⟩
  obtain ⟨hnormal, hleft⟩ := optimize_eq_ok.1 h
  refine ⟨settled_of_normalize hnormal,
    optimize_eq_ok.2 ⟨normalize_of_normalize hnormal, hleft⟩, ?_⟩
  have hlength := length_of_reflTransGen (reflTransGen_of_optimize h)
  omega

/-- A line of inline assembly, an increment that three rules make one after the other, and a jump to
the next entry. -/
theorem normal_of_optimize_increment :
    let score : Label := .global ⟨⟨"Game"⟩, "score"⟩
    let next : Label := .instruction 6
    let i : Instruction := ⟨0, .call, .absent⟩
    let ctx : Context := ⟨⟨[]⟩, {}⟩
    let main : Member := ⟨⟨"Game"⟩, "Main"⟩
    let es : List Entry :=
      [.pending (.loadString i "sta WSYNC"), .pending (.inlineAssemblyCall i),
       .synthetic (.pushGlobal score (.type .byte) (.size .byte)),
       .synthetic (.pushConstant (.byte 1) (.type .byte) (.size .byte)),
       .synthetic .addFromStack, .synthetic (.popToGlobal score (.type .byte) (.size .byte)),
       .synthetic (.branch next), .label next]
    let out : List Entry :=
      [.comment "Begin inline assembly", .inlineAssembly ["sta WSYNC"],
       .comment "End inline assembly",
       .synthetic (.incrementGlobal score (.type .byte) (.size .byte)), .label next]
    optimize ctx main es = .ok out ∧ inlinePairs es = 1 ∧
      Settled ctx.program (Peephole.rules ctx.options) out ∧ optimize ctx main out = .ok out := by
  intro score next i ctx main es out
  have h : optimize ctx main es = .ok out := by decide +kernel
  obtain ⟨hsettled, hagain, -⟩ := (normal_of_optimize ctx main es).2.2 out h
  exact ⟨h, rfl, hsettled, hagain⟩

end Cartridge.Peephole
