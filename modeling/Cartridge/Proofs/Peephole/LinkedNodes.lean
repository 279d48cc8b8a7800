import Cartridge.Peephole.Place
import Mathlib.Logic.Relation

/-!
# Linked nodes stand for plain lists

A pass over linked nodes is a loop (`PassStep`) whose state is a place in the nodes, the rules that
are still to be swept and the notes that the rules keep. It is a loop for any rules, also for those
that take entries away or never come to an end. In each of its states

* every index that is stored anywhere, also in nodes that no link leads to, is that of a node
  (`Place.InRange`),
* the links from the first node lead through nodes that are all distinct to an end, and the place is
  at one of them or behind them all (`Place.Holds`).

`ListStep` is the same loop on plain lists, where a replacement is put in front of what is left.

**`EntryList.pass_refines_lists`**: a pass over nodes takes the steps of a pass over lists and
returns the same, and all its states are of this kind. With the peephole rules, both return what
`EntryList.pass` computes.
-/

namespace Cartridge.Peephole

open Relation (ReflTransGen)

variable {σ : Type}

/-! ### Indices -/

/-- Every link is to a node. -/
def LinksIn (nodes : Array Node) : Prop :=
  ∀ (i : Nat) (node : Node), nodes[i]? = some node → ∀ j ∈ node.next, j < nodes.size

theorem LinksIn.push {nodes : Array Node} {first : Option Nat} (h : LinksIn nodes)
    (hfirst : ∀ j ∈ first, j < nodes.size) (e : Entry) : LinksIn (nodes.push ⟨e, first⟩) := by
  intro i node hi j hj
  rw [Array.size_push]
  rw [Array.getElem?_push] at hi
  split at hi
  · cases hi
    exact Nat.lt_succ_of_lt (hfirst j hj)
  · exact Nat.lt_succ_of_lt (h i node hi j hj)

theorem LinksIn.modify {nodes : Array Node} {first : Option Nat} (h : LinksIn nodes)
    (hfirst : ∀ j ∈ first, j < nodes.size) (k : Nat) :
    LinksIn (nodes.modify k fun node => { node with next := first }) := by
  intro i node hi j hj
  rw [Array.size_modify]
  rw [Array.getElem?_modify] at hi
  split at hi
  · obtain ⟨old, -, rfl⟩ := Option.map_eq_some_iff.1 hi
    exact hfirst j hj
  · exact h i node hi j hj

theorem LinksIn.prepend {nodes : Array Node} {after : Option Nat} (h : LinksIn nodes)
    (hafter : ∀ j ∈ after, j < nodes.size) (es : List Entry) :
    LinksIn (EntryList.prepend nodes after es).1 ∧ ∀ j ∈ (EntryList.prepend nodes after es).2,
      j < (EntryList.prepend nodes after es).1.size := by
  induction es with
  | nil => exact ⟨h, hafter⟩
  | cons e es ih =>
    refine ⟨ih.1.push ih.2 e, fun j hj => ?_⟩
    cases hj
    exact (Array.size_push ..).symm ▸ Nat.lt_succ_self _

/-- The links of a window are to nodes. -/
theorem LinksIn.window? {nodes : Array Node} {n : Nat} {s : Option Nat} {w : List Node}
    (h : LinksIn nodes) (hw : EntryList.window? nodes n s = some w) :
    ∀ node ∈ w, ∀ j ∈ node.next, j < nodes.size := by
  induction n generalizing s w with
  | zero =>
    cases hw
    exact fun node hnode => nomatch hnode
  | succ n ih =>
    obtain ⟨i, node, rest, rfl, hi, rfl⟩ := EntryList.of_window? hw (Nat.succ_pos n)
    simp only [EntryList.window?, hi] at hw
    obtain ⟨rest', hrest, heq⟩ := Option.map_eq_some_iff.1 hw
    cases heq
    exact List.forall_mem_cons.2 ⟨h i node hi, ih hrest⟩

/-- Every index that is stored is that of a node. -/
structure Place.InRange (p : Place) : Prop where
  links : LinksIn p.list.nodes
  head : ∀ i ∈ p.list.head, i < p.list.nodes.size
  prev : ∀ i ∈ p.prev, i < p.list.nodes.size
  cursor : ∀ i ∈ p.cursor, i < p.list.nodes.size

namespace Place.InRange

variable {p p' : Place}

theorem start {l : EntryList} (hlinks : LinksIn l.nodes)
    (hhead : ∀ i ∈ l.head, i < l.nodes.size) : (Place.start l).InRange :=
  ⟨hlinks, hhead, fun _ hi => (nomatch hi), hhead⟩

theorem ofList (es : List Entry) : (Place.start (.ofList es)).InRange := by
  have hsize : (EntryList.ofList es).nodes.size = es.length := by simp [EntryList.ofList]
  refine .start (fun i node hi j hj => ?_) fun i hi => ?_
  · simp only [EntryList.ofList, List.getElem?_toArray, List.getElem?_map] at hi
    obtain ⟨e, -, rfl⟩ := Option.map_eq_some_iff.1 hi
    rw [hsize]
    grind
  · rw [hsize]
    grind [EntryList.ofList]

theorem splice {after : Option Nat} (h : p.InRange)
    (hafter : ∀ j ∈ after, j < p.list.nodes.size) (r : List Entry) :
    { p with
      list := (p.list.splice p.prev after r).1
      cursor := (p.list.splice p.prev after r).2 : Place }.InRange := by
  obtain ⟨hlinks, hhead, hprev, -⟩ := h
  obtain ⟨hadded, hfirst⟩ := hlinks.prepend hafter r
  have hsize := (EntryList.of_prepend p.list.nodes after r).1
  unfold EntryList.splice
  generalize EntryList.prepend p.list.nodes after r = added at hadded hfirst hsize
  cases hp : p.prev with
  | none => exact ⟨hadded, hfirst, fun _ hi => (nomatch hi), hfirst⟩
  | some i =>
    refine ⟨hadded.modify hfirst i, ?_, ?_, ?_⟩
    all_goals
      intro j hj
      rw [Array.size_modify]
    · exact Nat.lt_of_lt_of_le (hhead j hj) hsize
    · exact Nat.lt_of_lt_of_le (hprev j (hp ▸ hj)) hsize
    · exact hfirst j hj

/-- **A step stores no index that is out of range.** -/
theorem advance {rule : Rewrite σ} {notes notes' : σ} (h : p.InRange)
    (hp : p.advance rule notes = .ok (some (p', notes'))) : p'.InRange := by
  obtain ⟨⟨nodes, first⟩, prev, cursor⟩ := p
  simp only [Place.advance] at hp
  split at hp
  · cases hp
  · rename_i w hw
    have hlinks := h.links.window? hw
    split at hp
    · cases hp
    · cases hp
      refine ⟨h.links, h.head, h.cursor, fun j hj => ?_⟩
      obtain ⟨node, hnode, hj⟩ := Option.bind_eq_some_iff.1 hj
      exact hlinks node (List.mem_of_head? hnode) j hj
    · cases hp
      refine h.splice (fun j hj => ?_) _
      obtain ⟨node, hnode, hj⟩ := Option.bind_eq_some_iff.1 hj
      exact hlinks node (List.mem_of_getLast? hnode) j hj

end Place.InRange

/-! ### Passes as loops -/

/-- One step of a pass over nodes: a step of the sweep of the first rule, or the beginning of the
next sweep if there is none. -/
inductive PassStep : List (Rewrite σ) × σ × Place → List (Rewrite σ) × σ × Place → Prop where
  | advance {rule : Rewrite σ} {rules : List (Rewrite σ)} {notes notes' : σ} {p p' : Place}
      (h : p.advance rule notes = .ok (some (p', notes'))) :
      PassStep (rule :: rules, notes, p) (rule :: rules, notes', p')
  | next {rule : Rewrite σ} {rules : List (Rewrite σ)} {notes : σ} {p : Place}
      (h : p.advance rule notes = .ok none) :
      PassStep (rule :: rules, notes, p) (rules, notes, .start p.list)

/-- A pass over nodes stops when no rule is left, and returns the entries, or at a window that a
rule rejects. -/
inductive PassStops : List (Rewrite σ) × σ × Place → Except Error (List Entry × σ) → Prop where
  | finished (notes : σ) (p : Place) : PassStops ([], notes, p) (.ok (p.list.toList, notes))
  | rejected {rule : Rewrite σ} {rules : List (Rewrite σ)} {notes : σ} {p : Place} {err : Error}
      (h : p.advance rule notes = .error err) : PassStops (rule :: rules, notes, p) (.error err)

/-- A pass over nodes comes to this result. -/
def PassReturns (rules : List (Rewrite σ)) (notes : σ) (es : List Entry)
    (result : Except Error (List Entry × σ)) : Prop :=
  ∃ s, ReflTransGen PassStep (rules, notes, .start (.ofList es)) s ∧ PassStops s result

/-- One step of a pass over lists. A window that the first rule applies to is replaced, and the rule
is tried again where the replacement begins, which is at what follows if it is empty. Otherwise one
entry is passed. Where less is left than a window, the next rule starts from the left. -/
inductive ListStep : List (Rewrite σ) × σ × Cursor → List (Rewrite σ) × σ × Cursor → Prop where
  | replaced {rule : Rewrite σ} {rules : List (Rewrite σ)} {notes notes' : σ}
      {passed ahead r : List Entry} (h : rule.window ≤ ahead.length)
      (hr : rule.apply notes (ahead.take rule.window) = .ok (some r, notes')) :
      ListStep (rule :: rules, notes, ⟨passed, ahead⟩)
        (rule :: rules, notes', ⟨passed, r ++ ahead.drop rule.window⟩)
  | moved {rule : Rewrite σ} {rules : List (Rewrite σ)} {notes notes' : σ} {e : Entry}
      {passed es : List Entry} (h : rule.window ≤ (e :: es).length)
      (hr : rule.apply notes ((e :: es).take rule.window) = .ok (none, notes')) :
      ListStep (rule :: rules, notes, ⟨passed, e :: es⟩) (rule :: rules, notes', ⟨e :: passed, es⟩)
  | next {rule : Rewrite σ} {rules : List (Rewrite σ)} {notes : σ} {passed ahead : List Entry}
      (h : ahead.length < rule.window) :
      ListStep (rule :: rules, notes, ⟨passed, ahead⟩) (rules, notes, ⟨[], passed.reverse ++ ahead⟩)

/-- A pass over lists stops when no rule is left, or at a window that a rule rejects. -/
inductive ListStops : List (Rewrite σ) × σ × Cursor → Except Error (List Entry × σ) → Prop where
  | finished (notes : σ) (passed ahead : List Entry) :
      ListStops ([], notes, ⟨passed, ahead⟩) (.ok (passed.reverse ++ ahead, notes))
  | rejected {rule : Rewrite σ} {rules : List (Rewrite σ)} {notes : σ} {passed ahead : List Entry}
      {err : Error} (h : rule.window ≤ ahead.length)
      (hr : rule.apply notes (ahead.take rule.window) = .error err) :
      ListStops (rule :: rules, notes, ⟨passed, ahead⟩) (.error err)

/-- A pass over lists comes to this result. -/
def ListReturns (rules : List (Rewrite σ)) (notes : σ) (es : List Entry)
    (result : Except Error (List Entry × σ)) : Prop :=
  ∃ s, ReflTransGen ListStep (rules, notes, ⟨[], es⟩) s ∧ ListStops s result

/-! ### Steps over nodes and over lists -/

section Simulation

variable {rules rules' : List (Rewrite σ)} {notes notes' : σ} {p p' : Place} {c c' : Cursor}
  {result : Except Error (List Entry × σ)}

/-- **A step over nodes is a step over lists.** -/
theorem PassStep.exists_listStep (h : PassStep (rules, notes, p) (rules', notes', p'))
    (hc : p.Holds c) : ∃ c', ListStep (rules, notes, c) (rules', notes', c') ∧ p'.Holds c' := by
  cases h with
  | @advance rule rules _ _ _ _ h =>
    have hstep := hc.advance rule notes
    rw [h] at hstep
    obtain ⟨passed, ahead⟩ := c
    cases hstep with
    | replaced hle hr hp => exact ⟨_, .replaced hle hr, hp⟩
    | moved hle hes hr hp =>
      cases hes
      exact ⟨_, .moved hle hr, hp⟩
  | @next rule rules _ _ h =>
    have hstep := hc.advance rule notes
    rw [h] at hstep
    cases hstep with
    | ends hlt => exact ⟨_, .next hlt, Place.holds_start hc.list⟩

theorem PassStep.inRange {s s' : List (Rewrite σ) × σ × Place} (h : PassStep s s')
    (hs : s.2.2.InRange) : s'.2.2.InRange := by
  cases h with
  | advance h => exact hs.advance h
  | next => exact .start hs.links hs.head

/-- A pass over nodes stops where a pass over lists does, with the same result. -/
theorem PassStops.listStops (h : PassStops (rules, notes, p) result) (hc : p.Holds c) :
    ListStops (rules, notes, c) result := by
  cases h with
  | finished =>
    rw [hc.list.toList_eq]
    exact .finished notes c.passed c.ahead
  | @rejected rule rules _ _ err h =>
    have hstep := hc.advance rule notes
    rw [h] at hstep
    cases hstep with
    | rejected hle hr => exact .rejected hle hr

/-- A pass over nodes goes on or stops. -/
theorem exists_passStep_or_passStops (rules : List (Rewrite σ)) (notes : σ) (p : Place) :
    (∃ s, PassStep (rules, notes, p) s) ∨ ∃ result, PassStops (rules, notes, p) result := by
  cases rules with
  | nil => exact .inr ⟨_, .finished notes p⟩
  | cons rule rules =>
    cases h : p.advance rule notes with
    | error err => exact .inr ⟨_, .rejected h⟩
    | ok o =>
      cases o with
      | none => exact .inl ⟨_, .next h⟩
      | some next => exact .inl ⟨_, .advance h⟩

/-- At most one step can be taken. -/
theorem rightUnique_listStep : Relator.RightUnique (@ListStep σ) := by
  intro s s₁ s₂ h₁ h₂
  cases h₁ with
  | replaced hle hr =>
    cases h₂ with
    | replaced _ hr' =>
      cases hr.symm.trans hr'
      rfl
    | moved _ hr' => cases hr.symm.trans hr'
    | next hlt => exact absurd hlt (Nat.not_lt.2 hle)
  | moved hle hr =>
    cases h₂ with
    | replaced _ hr' => cases hr.symm.trans hr'
    | moved _ hr' =>
      cases hr.symm.trans hr'
      rfl
    | next hlt => exact absurd hlt (Nat.not_lt.2 hle)
  | next hlt =>
    cases h₂ with
    | replaced hle => exact absurd hlt (Nat.not_lt.2 hle)
    | moved hle => exact absurd hlt (Nat.not_lt.2 hle)
    | next => rfl

namespace ListStops

variable {s s' : List (Rewrite σ) × σ × Cursor} {result result' : Except Error (List Entry × σ)}

theorem not_listStep (h : ListStops s result) : ¬ ListStep s s' := by
  intro hstep
  cases h with
  | finished => cases hstep
  | rejected hle hr =>
    cases hstep with
    | replaced _ hr' => cases hr.symm.trans hr'
    | moved _ hr' => cases hr.symm.trans hr'
    | next hlt => exact absurd hlt (Nat.not_lt.2 hle)

theorem unique (h : ListStops s result) (h' : ListStops s result') : result = result' := by
  cases h with
  | finished =>
    cases h'
    rfl
  | rejected _ hr =>
    cases h' with
    | rejected _ hr' =>
      cases hr.symm.trans hr'
      rfl

/-- A pass that has stopped stays where it is. -/
theorem eq_of_reflTransGen (h : ListStops s result) (hsteps : ReflTransGen ListStep s s') :
    s = s' := by
  rcases hsteps.cases_head with rfl | ⟨_, hstep, -⟩
  · rfl
  · exact absurd hstep h.not_listStep

end ListStops

variable {rules : List (Rewrite σ)} {notes : σ} {es : List Entry}

/-- A pass over lists comes to one result at most. -/
theorem ListReturns.unique {result result' : Except Error (List Entry × σ)}
    (h : ListReturns rules notes es result) (h' : ListReturns rules notes es result') :
    result = result' := by
  obtain ⟨s, hsteps, hs⟩ := h
  obtain ⟨s', hsteps', hs'⟩ := h'
  rcases ReflTransGen.total_of_right_unique rightUnique_listStep hsteps hsteps' with hss' | hss'
  · cases hs.eq_of_reflTransGen hss'
    exact hs.unique hs'
  · cases hs'.eq_of_reflTransGen hss'
    exact hs.unique hs'

/-- **A state of a pass over nodes** has its indices in range, and stands for a state of the pass
over lists. -/
theorem of_passSteps {s : List (Rewrite σ) × σ × Place}
    (h : ReflTransGen PassStep (rules, notes, .start (.ofList es)) s) :
    s.2.2.InRange ∧
      ∃ c, ReflTransGen ListStep (rules, notes, ⟨[], es⟩) (s.1, s.2.1, c) ∧ s.2.2.Holds c := by
  induction h with
  | refl => exact ⟨.ofList es, _, .refl, Place.holds_start (EntryList.holds_ofList es)⟩
  | tail _ hstep ih =>
    obtain ⟨hrange, c, hsteps, hc⟩ := ih
    obtain ⟨c', hlist, hc'⟩ := hstep.exists_listStep hc
    exact ⟨hstep.inRange hrange, c', hsteps.tail hlist, hc'⟩

/-- A pass over lists stops only if the one over nodes does. The induction is on the steps that are
left, and each of them is the step over nodes. -/
theorem exists_passStops {s s' : List (Rewrite σ) × σ × Cursor}
    {result : Except Error (List Entry × σ)} (hsteps : ReflTransGen ListStep s s')
    (hstops : ListStops s' result) {p : Place} (hc : p.Holds s.2.2) :
    ∃ t, ReflTransGen PassStep (s.1, s.2.1, p) t ∧ PassStops t result := by
  induction hsteps using ReflTransGen.head_induction_on generalizing p with
  | refl =>
    rcases exists_passStep_or_passStops s'.1 s'.2.1 p with ⟨t, hstep⟩ | ⟨result', hstops'⟩
    · obtain ⟨c, hlist, -⟩ := hstep.exists_listStep hc
      exact absurd hlist hstops.not_listStep
    · cases (hstops'.listStops hc).unique hstops
      exact ⟨_, .refl, hstops'⟩
  | @head s next hlist _ ih =>
    rcases exists_passStep_or_passStops s.1 s.2.1 p with ⟨t, hstep⟩ | ⟨result', hstops'⟩
    · obtain ⟨c, hlist', hc'⟩ := hstep.exists_listStep hc
      cases rightUnique_listStep hlist hlist'
      obtain ⟨t', hsteps', hstops'⟩ := ih hc'
      exact ⟨t', .head hstep hsteps', hstops'⟩
    · exact absurd hlist (hstops'.listStops hc).not_listStep

/-- **A pass over nodes returns what the pass over lists does.** -/
theorem passReturns_iff {result : Except Error (List Entry × σ)} :
    PassReturns rules notes es result ↔ ListReturns rules notes es result := by
  constructor
  · rintro ⟨⟨rest, notes', p⟩, hsteps, hstops⟩
    obtain ⟨-, c, hlist, hc⟩ := of_passSteps hsteps
    exact ⟨_, hlist, hstops.listStops hc⟩
  · rintro ⟨s, hsteps, hstops⟩
    exact exists_passStops hsteps hstops (Place.holds_start (EntryList.holds_ofList es))

end Simulation

/-! ### Peephole rules -/

section Rules

variable {u : Universe} {rule : Rule}

theorem passSteps_of_sweep {p : Place} {hp : ∃ c, p.Holds c} {l : EntryList.Linked}
    (h : p.sweep u rule hp = .ok l) (rules : List (Rewrite Unit)) :
    ReflTransGen PassStep (.ofRule u rule :: rules, (), p) (rules, (), .start l.1) := by
  fun_induction Place.sweep u rule p hp with
  | case1 => cases h
  | case2 p hp hend =>
    cases h
    exact .single (.next hend)
  | case3 p hp p' _ hstep ih => exact .head (.advance hstep) (ih h)

theorem exists_rejected_of_sweep {p : Place} {hp : ∃ c, p.Holds c} {err : Error}
    (h : p.sweep u rule hp = .error err) (rules : List (Rewrite Unit)) :
    ∃ p', ReflTransGen PassStep (.ofRule u rule :: rules, (), p) (.ofRule u rule :: rules, (), p') ∧
      p'.advance (.ofRule u rule) () = .error err := by
  fun_induction Place.sweep u rule p hp with
  | case1 p hp err' hp' =>
    cases h
    exact ⟨p, .refl, hp'⟩
  | case2 => cases h
  | case3 p hp p' _ hstep ih =>
    obtain ⟨q, hsteps, hq⟩ := ih h
    exact ⟨q, .head (.advance hstep) hsteps, hq⟩

/-- Sweeps of rules in turn are a pass over nodes. -/
theorem exists_passStops_sweeps (u : Universe) (rules : List Rule) (l : EntryList.Linked) :
    ∃ s, ReflTransGen PassStep (rules.map (.ofRule u), (), .start l.1) s ∧
      PassStops s ((EntryList.sweeps u rules l).map fun l => (l.1.toList, ())) := by
  induction rules generalizing l with
  | nil => exact ⟨_, .refl, .finished () _⟩
  | cons rule rules ih =>
    rw [EntryList.sweeps]
    cases hl : Place.sweep u rule (.start l.1) ⟨_, Place.holds_start l.holds⟩ with
    | error err =>
      obtain ⟨p, hsteps, hp⟩ := exists_rejected_of_sweep hl (rules.map (.ofRule u))
      exact ⟨_, hsteps, .rejected hp⟩
    | ok out =>
      obtain ⟨s, hsteps, hstops⟩ := ih out
      exact ⟨s, (passSteps_of_sweep hl _).trans hsteps, hstops⟩

theorem passReturns_pass (u : Universe) (rules : List Rule) (es : List Entry) :
    PassReturns (rules.map (.ofRule u)) () es
      ((EntryList.pass u rules es).map fun out => (out, ())) := by
  obtain ⟨s, hsteps, hstops⟩ :=
    exists_passStops_sweeps u rules ⟨.ofList es, es, EntryList.holds_ofList es⟩
  refine ⟨s, hsteps, ?_⟩
  rw [EntryList.pass]
  cases h : EntryList.sweeps u rules ⟨.ofList es, es, EntryList.holds_ofList es⟩ <;>
    rwa [h] at hstops

end Rules

/-- **Linked nodes stand for plain lists.** For all rules, whatever they put in the place of a
window, and all entries:

* In every state that a pass over nodes reaches, all indices are in range, the links from the first
  node lead through distinct nodes to an end, and the stream is the entries of these nodes. The pass
  over lists reaches the same place, with the same rules left and the same notes.
* The pass over nodes comes to a result, entries or the first error, iff the pass over lists comes
  to it.
* The peephole rules always come to a result, and it is what `EntryList.pass` computes. -/
theorem EntryList.pass_refines_lists {σ : Type} (rules : List (Rewrite σ)) (notes : σ)
    (es : List Entry) :
    (∀ rest notes' p,
      ReflTransGen PassStep (rules, notes, .start (.ofList es)) (rest, notes', p) →
      p.InRange ∧
        (∃ is live, Path p.list.nodes p.list.head is live none ∧ is.Nodup ∧
          (∀ i ∈ is, i < p.list.nodes.size) ∧ p.list.toList = live) ∧
        ∃ c, ReflTransGen ListStep (rules, notes, ⟨[], es⟩) (rest, notes', c) ∧ p.Holds c) ∧
    (∀ result, PassReturns rules notes es result ↔ ListReturns rules notes es result) ∧
    ∀ (u : Universe) (shipped : List Rule) (result : Except Error (List Entry × Unit)),
      ListReturns (shipped.map (.ofRule u)) () es result ↔
        result = (EntryList.pass u shipped es).map fun out => (out, ()) := by
  refine ⟨fun rest notes' p h => ?_, fun result => passReturns_iff, fun u shipped result => ?_⟩
  · obtain ⟨hrange, c, hsteps, hc⟩ := of_passSteps h
    obtain ⟨is, his⟩ := hc.list
    exact ⟨hrange, ⟨is, _, his, his.nodup, his.lt_size, hc.list.toList_eq⟩, c, hsteps, hc⟩
  · have hpass := passReturns_iff.1 (passReturns_pass u shipped es)
    constructor
    · exact fun h => h.unique hpass
    · rintro rfl
      exact hpass

end Cartridge.Peephole
