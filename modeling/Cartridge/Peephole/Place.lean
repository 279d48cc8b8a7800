import Cartridge.Peephole.EntryList
import Cartridge.Peephole.Pass

/-!
# Passes over linked nodes

What runs is `EntryList.pass`, a pass over a stream of linked nodes. Its sweeps keep the index of
the node at the place and that of the node before, whose link changes with a replacement. A step is
defined for any rule that looks at some entries and may put others in their place (`Rewrite`).

A `Place` of a sweep `Holds` a `Cursor` if the links lead through the entries that the cursor has
passed to the place, and from there through those ahead. `Place.Holds.advance` says what a step does
to the entries, so that a pass over nodes is a pass over lists (`EntryList.pass_eq`).
-/

namespace Cartridge.Peephole

open Rule (weight)

/-- A rule as a sweep sees it: the number of entries that it looks at, and what it puts in their
place, if anything. It may keep notes from one window to the next. -/
structure Rewrite (σ : Type) where
  window : Nat
  window_pos : 0 < window
  apply : σ → List Entry → Except Error (Option (List Entry) × σ)

/-- A peephole rule, which keeps no notes. -/
def Rewrite.ofRule (u : Universe) (rule : Rule) : Rewrite Unit where
  window := rule.window
  window_pos := rule.window_pos
  apply _ w := (rule.replacement? u w).map fun r => (r, ())

namespace Rewrite

variable {u : Universe} {rule : Rule} {w : List Entry}

theorem ofRule_eq_ok {r : Option (List Entry)} :
    (ofRule u rule).apply () w = .ok (r, ()) ↔ rule.replacement? u w = .ok r := by
  simp only [ofRule]
  cases rule.replacement? u w <;> simp [Except.map]

theorem ofRule_eq_error {err : Error} :
    (ofRule u rule).apply () w = .error err ↔ rule.replacement? u w = .error err := by
  simp only [ofRule]
  cases rule.replacement? u w <;> simp [Except.map]

/-- A window that is there is not empty. -/
theorem exists_cons_of_window_le {σ : Type} {rule : Rewrite σ} (h : rule.window ≤ w.length) :
    ∃ e es, w = e :: es :=
  List.exists_cons_of_length_pos (Nat.lt_of_lt_of_le rule.window_pos h)

end Rewrite

/-- A place in a stream of linked nodes. -/
structure Place where
  list : EntryList
  /-- The index of the node before the place. -/
  prev : Option Nat
  /-- The index of the node at the place. -/
  cursor : Option Nat

namespace Place

/-- The place of the first node. -/
def start (list : EntryList) : Place := ⟨list, none, list.head⟩

variable {σ : Type}

/-- One step of a sweep: the window at the place is replaced, or the place moves on by one node.
There is none if the window is cut off by the end of the stream. -/
def advance (rule : Rewrite σ) (notes : σ) : Place → Except Error (Option (Place × σ))
  | ⟨⟨nodes, head⟩, prev, cursor⟩ =>
    match EntryList.window? nodes rule.window cursor with
    | none => .ok none
    | some w =>
      match rule.apply notes (w.map (·.entry)) with
      | .error err => .error err
      | .ok (none, notes) => .ok (some (⟨⟨nodes, head⟩, cursor, w.head?.bind (·.next)⟩, notes))
      | .ok (some r, notes) =>
        let (list, first) := EntryList.splice ⟨nodes, head⟩ prev (w.getLast?.bind (·.next)) r
        .ok (some (⟨list, prev, first⟩, notes))

/-- The entries from the place on. -/
def ahead : Place → List Entry
  | ⟨⟨nodes, _⟩, _, cursor⟩ =>
    (EntryList.follow nodes nodes.size cursor).map (·.2.entry)

/-! ### Places and cursors -/

variable {u : Universe} {rule : Rule} {p p' : Place} {c : Cursor}

/-- The place stands between the entries that the cursor has passed and those ahead. -/
def Holds (p : Place) (c : Cursor) : Prop :=
  ∃ before after, Path p.list.nodes p.list.head before c.passed.reverse p.cursor ∧
    Path p.list.nodes p.cursor after c.ahead none ∧ p.prev = before.getLast?

theorem holds_start {l : EntryList} {es : List Entry} (h : l.Holds es) :
    (start l).Holds ⟨[], es⟩ := by
  obtain ⟨is, his⟩ := h
  exact ⟨[], is, .nil _, his, rfl⟩

namespace Holds

theorem list (h : p.Holds c) : p.list.Holds (c.passed.reverse ++ c.ahead) := by
  obtain ⟨before, after, hbefore, hafter, -⟩ := h
  exact ⟨before ++ after, hbefore.append hafter⟩

theorem ahead_eq (h : p.Holds c) : p.ahead = c.ahead := by
  obtain ⟨before, after, -, hafter, -⟩ := h
  exact (hafter.follow_eq hafter.length_le).2

/-- The place moves on by one node. -/
theorem move {i : Nat} {node : Node} (h : p.Holds c) (hi : p.cursor = some i)
    (hnode : p.list.nodes[i]? = some node) :
    ∃ es, c.ahead = node.entry :: es ∧
      { p with prev := p.cursor, cursor := node.next : Place }.Holds
        ⟨node.entry :: c.passed, es⟩ := by
  obtain ⟨before, after, hbefore, hafter, -⟩ := h
  rw [hi] at hbefore hafter
  generalize hes : c.ahead = es at hafter
  cases hafter with
  | @cons _ e next _ after es hfirst rest =>
    cases hfirst.symm.trans hnode
    refine ⟨es, rfl, before ++ [i], after, ?_, rest, ?_⟩
    · rw [List.reverse_cons]
      exact hbefore.append (.cons hnode (.nil next))
    · rw [hi, List.getLast?_concat]

/-- The first entries ahead are replaced. -/
theorem splice {n : Nat} {before after : List Nat} {mid : Option Nat}
    (hbefore : Path p.list.nodes p.list.head before c.passed.reverse p.cursor)
    (hafter : Path p.list.nodes p.cursor after c.ahead none) (hprev : p.prev = before.getLast?)
    (hrest : Path p.list.nodes mid (after.drop n) (c.ahead.drop n) none) (r : List Entry) :
    { p with
      list := (p.list.splice p.prev mid r).1
      cursor := (p.list.splice p.prev mid r).2 : Place }.Holds
      ⟨c.passed, r ++ c.ahead.drop n⟩ := by
  have hnodup := (hbefore.append hafter).nodup
  rw [← List.take_append_drop n after, ← List.append_assoc] at hnodup
  obtain ⟨hleft, -, hapart⟩ := List.nodup_append.1 hnodup
  obtain ⟨hsize, hsame, new, hnew, hge⟩ := EntryList.of_prepend p.list.nodes mid r
  unfold EntryList.splice
  generalize EntryList.prepend p.list.nodes mid r = added at hsize hsame hnew
  have hrest' : Path added.1 mid (after.drop n) (c.ahead.drop n) none :=
    hrest.congr fun i hi => hsame i (hrest.lt_size i hi)
  cases hp : p.prev with
  | none =>
    -- Nothing has been passed, and the new nodes are the first ones.
    obtain rfl : before = [] := List.getLast?_eq_none_iff.1 (hprev.symm.trans hp)
    have hpassed : c.passed.reverse = [] := List.length_eq_zero_iff.1 hbefore.length_eq.symm
    refine ⟨[], new ++ after.drop n, ?_, hnew.append hrest', rfl⟩
    rw [hpassed]
    exact .nil _
  | some i =>
    -- The link that changes is that of the last node passed, which is not visited again.
    have hi : before.getLast? = some i := hprev.symm.trans hp
    have hmem := List.mem_of_getLast? hi
    refine ⟨before, new ++ after.drop n, ?_, ?_, hi.symm⟩
    · exact (hbefore.congr fun j hj => hsame j (hbefore.lt_size j hj)).modify_next hi
        (List.nodup_append.1 hleft).1 _
    · refine (hnew.append hrest').congr fun j hj => ?_
      rw [Array.getElem?_modify, if_neg ?_]
      rintro rfl
      rcases List.mem_append.1 hj with hj | hj
      · exact absurd (hbefore.lt_size i hmem) (Nat.not_lt.2 (hge i hj))
      · exact hapart i (List.mem_append_left _ hmem) i hj rfl

end Holds

/-- What a step can do to the entries at a cursor. -/
inductive Advances (rule : Rewrite σ) (notes : σ) (c : Cursor) :
    Except Error (Option (Place × σ)) → Prop where
  | ends (h : c.ahead.length < rule.window) : Advances rule notes c (.ok none)
  | rejected {err : Error} (h : rule.window ≤ c.ahead.length)
      (hr : rule.apply notes (c.ahead.take rule.window) = .error err) :
      Advances rule notes c (.error err)
  | replaced {r : List Entry} {notes' : σ} {p' : Place} (h : rule.window ≤ c.ahead.length)
      (hr : rule.apply notes (c.ahead.take rule.window) = .ok (some r, notes'))
      (hp : p'.Holds ⟨c.passed, r ++ c.ahead.drop rule.window⟩) :
      Advances rule notes c (.ok (some (p', notes')))
  | moved {e : Entry} {es : List Entry} {notes' : σ} {p' : Place}
      (h : rule.window ≤ c.ahead.length) (hes : c.ahead = e :: es)
      (hr : rule.apply notes (c.ahead.take rule.window) = .ok (none, notes'))
      (hp : p'.Holds ⟨e :: c.passed, es⟩) : Advances rule notes c (.ok (some (p', notes')))

namespace Holds

/-- **What a step does to the entries.** -/
theorem advance (h : p.Holds c) (rule : Rewrite σ) (notes : σ) :
    Advances rule notes c (p.advance rule notes) := by
  obtain ⟨⟨nodes, head⟩, prev, cursor⟩ := p
  obtain ⟨before, after, hbefore, hafter, hprev⟩ := id h
  have hlength := hafter.length_eq
  unfold Place.advance
  by_cases hlt : after.length < rule.window
  · simp only [hafter.window?_eq_none hlt]
    exact .ends (by omega)
  · have hle : rule.window ≤ c.ahead.length := by omega
    obtain ⟨mid, hfirst, hrest⟩ := hafter.split rule.window
    obtain ⟨w, hw, hentries, hlast⟩ := hfirst.exists_window?
    rw [List.length_take_of_le (by omega)] at hw
    obtain ⟨i, node, rest, rfl, hnode, rfl⟩ := EntryList.of_window? hw rule.window_pos
    simp only [hw, hentries]
    rcases hr : rule.apply notes (c.ahead.take rule.window) with err | ⟨o, notes'⟩
    · exact .rejected hle hr
    · cases o with
      | none =>
        obtain ⟨es, hes, hmove⟩ := h.move rfl hnode
        exact .moved hle hes hr hmove
      | some r =>
        have hmid : (node :: rest).getLast?.bind (·.next) = mid := by
          rw [List.getLast?_eq_some_getLast (List.cons_ne_nil node rest)] at hlast ⊢
          exact hlast _ rfl
        rw [hmid]
        exact .replaced hle hr (splice hbefore hafter hprev hrest r)

end Holds

/-! ### Sweeps -/

namespace Holds

/-- A sweep fails where a step does. -/
theorem sweep_of_rejected {err : Error} (h : p.Holds c)
    (hp : p.advance (.ofRule u rule) () = .error err) : c.sweep u rule = .error err := by
  have hstep := h.advance (.ofRule u rule) ()
  rw [hp] at hstep
  obtain ⟨passed, ahead⟩ := c
  cases hstep with
  | rejected hle hr =>
    obtain ⟨e, es, rfl⟩ := Rewrite.exists_cons_of_window_le hle
    have hr : rule.replacement? u ((e :: es).take rule.window) = .error err :=
      Rewrite.ofRule_eq_error.1 hr
    rw [Cursor.sweep_cons, hr]

/-- Without a step a sweep ends, and returns the stream. -/
theorem sweep_of_ends (h : p.Holds c) (hp : p.advance (.ofRule u rule) () = .ok none) :
    c.sweep u rule = .ok (c.passed.reverse ++ c.ahead) := by
  have hstep := h.advance (.ofRule u rule) ()
  rw [hp] at hstep
  cases hstep with
  | ends hlt =>
    rw [Cursor.sweep_eq, sweep_of_length_lt hlt]
    rfl

/-- There is less to be done after a step, and the sweep goes on from there. -/
theorem of_advance {notes : Unit} (h : p.Holds c)
    (hp : p.advance (.ofRule u rule) () = .ok (some (p', notes))) :
    ∃ c', p'.Holds c' ∧ weight c'.ahead < weight c.ahead ∧ c.sweep u rule = c'.sweep u rule := by
  have hstep := h.advance (.ofRule u rule) ()
  rw [hp] at hstep
  obtain ⟨passed, ahead⟩ := c
  cases hstep with
  | @replaced r _ _ hle hr hp' =>
    obtain ⟨e, es, rfl⟩ := Rewrite.exists_cons_of_window_le hle
    have hr : rule.replacement? u ((e :: es).take rule.window) = .ok (some r) :=
      Rewrite.ofRule_eq_ok.1 hr
    refine ⟨_, hp', Rule.weight_replace_lt hr, ?_⟩
    rw [Cursor.sweep_cons, hr]
    rfl
  | @moved e es _ _ hle hes hr hp' =>
    cases hes
    have hr : rule.replacement? u ((e :: es).take rule.window) = .ok none :=
      Rewrite.ofRule_eq_ok.1 hr
    refine ⟨_, hp', Rule.weight_lt_cons e es, ?_⟩
    rw [Cursor.sweep_cons, hr]

end Holds

/-- A sweep of a rule from a place on. -/
def sweep (u : Universe) (rule : Rule) (p : Place) (hp : ∃ c, p.Holds c) :
    Except Error EntryList.Linked :=
  match _h : p.advance (.ofRule u rule) () with
  | .error err => .error err
  | .ok none => .ok ⟨p.list, hp.elim fun _ hc => ⟨_, hc.list⟩⟩
  | .ok (some (p', _)) =>
    sweep u rule p' (hp.elim fun _ hc => (hc.of_advance _h).imp fun _ hc' => hc'.1)
termination_by weight p.ahead
decreasing_by
  obtain ⟨c, hc⟩ := hp
  obtain ⟨c', hc', hlt, -⟩ := hc.of_advance _h
  rwa [hc.ahead_eq, hc'.ahead_eq]

/-- A sweep over nodes is a sweep with a cursor. -/
theorem sweep_eq (hp : ∃ c, p.Holds c) (hc : p.Holds c) :
    (p.sweep u rule hp).map (·.1.toList) = c.sweep u rule := by
  fun_induction Place.sweep u rule p hp generalizing c with
  | case1 p hp err h => exact (hc.sweep_of_rejected h).symm
  | case2 p hp h =>
    rw [hc.sweep_of_ends h]
    exact congrArg Except.ok hc.list.toList_eq
  | case3 p hp p' _ h ih =>
    obtain ⟨c', hc', -, hsweep⟩ := hc.of_advance h
    rw [hsweep]
    exact ih hc'

end Place

namespace EntryList

/-- Sweeps of rules in turn. -/
def sweeps (u : Universe) : List Rule → Linked → Except Error Linked
  | [], l => .ok l
  | rule :: rules, l =>
    match Place.sweep u rule (.start l.1) ⟨_, Place.holds_start l.holds⟩ with
    | .error err => .error err
    | .ok l => sweeps u rules l

/-- A pass: a sweep of every rule in turn. -/
def pass (u : Universe) (rules : List Rule) (es : List Entry) : Except Error (List Entry) :=
  (sweeps u rules ⟨ofList es, es, holds_ofList es⟩).map (·.1.toList)

theorem sweeps_eq (u : Universe) (rules : List Rule) (l : Linked) :
    (sweeps u rules l).map (·.1.toList) = Peephole.pass u rules l.1.toList := by
  induction rules generalizing l with
  | nil => rfl
  | cons rule rules ih =>
    have hstart := Place.holds_start l.holds
    rw [sweeps, Peephole.pass, ← Place.sweep_eq ⟨_, hstart⟩ hstart]
    cases Place.sweep u rule (.start l.1) ⟨_, hstart⟩ with
    | error err => rfl
    | ok out => exact ih out

/-- **A pass over nodes is a pass over lists.** -/
theorem pass_eq (u : Universe) (rules : List Rule) (es : List Entry) :
    pass u rules es = Peephole.pass u rules es := by
  rw [pass, sweeps_eq, (holds_ofList es).toList_eq]

end EntryList

end Cartridge.Peephole
