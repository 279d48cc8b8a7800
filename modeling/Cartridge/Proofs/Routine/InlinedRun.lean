import Cartridge.Proofs.Peephole.Meaning
import Cartridge.Proofs.Routine.Shape

/-!
# Runs of inlined bodies

A body that is put in place of a call does what the body does (`run_wrapInline_iff`): its runs get
to the end of the block with the stores with which the runs of the body end, be it at a return or
past the last entry. Nothing is assumed of what macros do to the store (`Behaviour`).

The entry at `p` of the body stands at `p + 1` of the block, and a return there leads to the label
at the end. No other jump leads to that label, and nothing happens after it (`Run.eq_of_end`).
-/

namespace Cartridge

open Peephole (definedLabels branchTargets)
open Routine (inlineEnd jumpInstead wrapInline)

/-- What entries do to the store, where this does not concern the flow of control; without a value
they never come to an end. -/
structure Behaviour where
  /-- The effect of a macro that neither jumps nor returns. -/
  transform : MacroOp → Store → Option Store
  /-- Whether a conditional jump is taken, and its effect. -/
  test : MacroOp → Store → Option (Bool × Store)
  assembly : List String → Store → Option Store
  placeholder : Pending → Store → Option Store

namespace Behaviour

variable (B : Behaviour)

/-- The effect of a conditional jump. -/
def jumpIf (op : MacroOp) (target : Label) (s : Store) : Option Move :=
  (B.test op s).map fun p => if p.1 then .jump target p.2 else .next p.2

/-- The effect of a macro. -/
def act : MacroOp → Store → Option Move
  | .branch target, s => some (.jump target s)
  | .branchTrueFromStack target, s => B.jumpIf (.branchTrueFromStack target) target s
  | .branchFalseFromStack target, s => B.jumpIf (.branchFalseFromStack target) target s
  | .branchLessFromStack target, s => B.jumpIf (.branchLessFromStack target) target s
  | .returnVoid, s | .returnNonVoid .., s => some (.leave s)
  | op, s => (B.transform op s).map .next

/-- The effect of an entry; labels, directives, comments and marks have none. -/
def perform : Entry → Store → Option Move
  | .invoke call, s => B.act call.op s
  | .inlineAssembly lines, s => (B.assembly lines s).map .next
  | .pending p, s => (B.placeholder p s).map .next
  | _, s => some (.next s)

/-- A run of a stream from a position and a store ends in a given way with a given store. -/
inductive Run (es : List Entry) : Nat → Store → Ending → Store → Prop where
  | ranOff (s : Store) : Run es es.length s .ranOff s
  | leave {p : Nat} {e : Entry} {s t : Store} (he : es[p]? = some e)
      (hm : B.perform e s = some (.leave t)) : Run es p s .returned t
  | next {p : Nat} {e : Entry} {s s' t : Store} {o : Ending} (he : es[p]? = some e)
      (hm : B.perform e s = some (.next s')) (h : Run es (p + 1) s' o t) : Run es p s o t
  | jump {p q : Nat} {e : Entry} {l : Label} {s s' t : Store} {o : Ending} (he : es[p]? = some e)
      (hm : B.perform e s = some (.jump l s')) (hq : position? es l = some q)
      (h : Run es q s' o t) : Run es p s o t

variable {B}

theorem jumpIf_eq_some {op : MacroOp} {target : Label} {s : Store} {m : Move}
    (h : B.jumpIf op target s = some m) : (∃ s', m = .next s') ∨ ∃ s', m = .jump target s' := by
  obtain ⟨⟨taken, s'⟩, -, rfl⟩ := Option.map_eq_some_iff.1 h
  cases taken with
  | true => exact .inr ⟨s', rfl⟩
  | false => exact .inl ⟨s', rfl⟩

/-- What control can do after an entry. -/
theorem perform_eq_some {e : Entry} {s : Store} {m : Move} (h : B.perform e s = some m) :
    (∃ s', m = .next s') ∨
      (∃ l s', e.op?.bind (·.branchTarget?) = some l ∧ m = .jump l s') ∨
      ∃ op, e.op? = some op ∧ op.isReturn = true ∧ m = .leave s := by
  have hnext : ∀ {o : Option Store}, o.map Move.next = some m → ∃ s', m = .next s' := by
    intro o ho
    obtain ⟨s', -, rfl⟩ := Option.map_eq_some_iff.1 ho
    exact ⟨s', rfl⟩
  cases e with
  | invoke call =>
    obtain ⟨op, sources⟩ := call
    cases op
    case branch target => exact .inr (.inl ⟨target, s, rfl, (Option.some.inj h).symm⟩)
    case branchTrueFromStack | branchFalseFromStack | branchLessFromStack =>
      exact (jumpIf_eq_some h).imp_right fun ⟨s', hs'⟩ => .inl ⟨_, s', rfl, hs'⟩
    case returnVoid | returnNonVoid =>
      exact .inr (.inr ⟨_, rfl, rfl, (Option.some.inj h).symm⟩)
    all_goals exact .inl (hnext h)
  | inlineAssembly lines => exact .inl (hnext h)
  | pending p => exact .inl (hnext h)
  | _ => exact .inl ⟨s, (Option.some.inj h).symm⟩

/-! ### Positions in the block -/

section Positions

variable {m : Member} {body : List Entry} {p : Nat} {e : Entry} {l : Label}

theorem length_wrapInline (m : Member) (body : List Entry) :
    (wrapInline m body).length = body.length + 3 := by
  simp [wrapInline]

theorem getElem?_wrapInline (he : body[p]? = some e) :
    (wrapInline m body)[p + 1]? = some (jumpInstead (inlineEnd m) e) := by
  obtain ⟨hp, -⟩ := List.getElem?_eq_some_iff.1 he
  rw [wrapInline, List.getElem?_append_left (by simpa using hp), List.getElem?_cons_succ,
    List.getElem?_map, he]
  rfl

/-- The entries after the body do nothing. -/
theorem perform_wrapInline_end (hp : body.length < p) (he : (wrapInline m body)[p]? = some e)
    (s : Store) : B.perform e s = some (.next s) := by
  obtain ⟨k, rfl⟩ := Nat.exists_eq_add_of_lt hp
  have hend : [Entry.label (inlineEnd m), .directive .endBlock][k]? = some e := by
    rw [wrapInline, List.getElem?_append_right (by simp)] at he
    simpa [Nat.add_right_comm] using he
  rcases k with _ | _ | k
  · cases hend
    rfl
  · cases hend
    rfl
  · cases hend

theorem position?_map_jumpInstead (stop : Label) (es : List Entry) (l : Label) :
    position? (es.map (jumpInstead stop)) l = position? es l := by
  unfold position?
  rw [List.findIdx?_map]
  congr 1
  funext e
  rw [Function.comp_apply]
  unfold jumpInstead
  split <;> rfl

theorem position?_wrapInline (m : Member) (body : List Entry) (l : Label) :
    position? (wrapInline m body) l = ((position? body l).map (· + 1)).or
      (if l = inlineEnd m then some (body.length + 1) else none) := by
  have hbegin : position? [.directive .beginBlock] l = none := rfl
  have hend : position? [.label (inlineEnd m), .directive .endBlock] l =
      if l = inlineEnd m then some 0 else none := by
    unfold position?
    by_cases hl : l = inlineEnd m
    · simp [List.findIdx?_cons, Entry.definedLabel?, hl]
    · simp [List.findIdx?_cons, Entry.definedLabel?, hl, Ne.symm hl]
  rw [wrapInline, ← List.singleton_append, position?_append, position?_append,
    position?_map_jumpInstead, hbegin, hend]
  by_cases hl : l = inlineEnd m
  · simp [hl]
  · simp [hl]

theorem position?_inlineEnd (h : inlineEnd m ∉ definedLabels body) :
    position? (wrapInline m body) (inlineEnd m) = some (body.length + 1) := by
  rw [position?_wrapInline, position?_eq_none_of_not_mem h, if_pos rfl]
  rfl

end Positions

/-! ### Runs of the block -/

variable {m : Member} {body : List Entry} {p : Nat} {s t : Store} {o : Ending}

theorem Run.of_next {es : List Entry} {e : Entry} {s' : Store} (h : B.Run es p s o t)
    (he : es[p]? = some e) (hm : B.perform e s = some (.next s')) : B.Run es (p + 1) s' o t := by
  cases h with
  | ranOff => simp at he
  | leave he' hm' =>
    cases he'.symm.trans he
    cases hm'.symm.trans hm
  | next he' hm' hrest =>
    cases he'.symm.trans he
    cases hm'.symm.trans hm
    exact hrest
  | jump he' hm' =>
    cases he'.symm.trans he
    cases hm'.symm.trans hm

/-- A run that is past the body is done. -/
theorem Run.eq_of_end (h : B.Run (wrapInline m body) p s o t) (hp : body.length < p) : t = s := by
  induction h with
  | ranOff s => rfl
  | leave he hm =>
    rw [perform_wrapInline_end hp he] at hm
    cases hm
  | next he hm _ ih =>
    rw [perform_wrapInline_end hp he] at hm
    cases hm
    exact ih (Nat.lt_succ_of_lt hp)
  | jump he hm =>
    rw [perform_wrapInline_end hp he] at hm
    cases hm

theorem run_end (m : Member) (body : List Entry) (s : Store) :
    B.Run (wrapInline m body) (body.length + 1) s .ranOff s := by
  have hlabel : (wrapInline m body)[body.length + 1]? = some (.label (inlineEnd m)) := by
    simp [wrapInline]
  have hblock : (wrapInline m body)[body.length + 2]? = some (.directive .endBlock) := by
    simp [wrapInline]
  refine .next hlabel rfl (.next hblock rfl ?_)
  have hend : B.Run (wrapInline m body) (wrapInline m body).length s .ranOff s := .ranOff s
  rwa [length_wrapInline] at hend

/-- An entry is a return or stays as it is in the block. -/
theorem returns_or_stays (stop : Label) (e : Entry) :
    (∃ sources, e = .invoke ⟨.returnVoid, sources⟩) ∨
      e.op? ≠ some .returnVoid ∧ jumpInstead stop e = e := by
  by_cases hop : e.op? = some .returnVoid
  · cases e with
    | invoke call =>
      obtain ⟨op, sources⟩ := call
      cases Option.some.inj hop
      exact .inl ⟨sources, rfl⟩
    | _ => cases hop
  · exact .inr ⟨hop, Routine.jumpInstead_of_ne hop⟩

/-- **A run of the body is one of the block.** -/
theorem Run.wrap (hresult : ∀ op ∈ body.filterMap (·.op?), op.isReturn = true → op = .returnVoid)
    (hdefined : inlineEnd m ∉ definedLabels body) (h : B.Run body p s o t) :
    B.Run (wrapInline m body) (p + 1) s .ranOff t := by
  induction h with
  | ranOff s => exact run_end m body s
  | @leave p e s t he hm =>
    have he' := getElem?_wrapInline (m := m) he
    rcases returns_or_stays (inlineEnd m) e with ⟨sources, rfl⟩ | ⟨hne, -⟩
    · -- The return has become a jump to the end.
      cases hm
      exact .jump he' rfl (position?_inlineEnd hdefined) (run_end m body s)
    · rcases perform_eq_some hm with ⟨s', h⟩ | ⟨l, s', -, h⟩ | ⟨op, hop, hreturn, -⟩
      · cases h
      · cases h
      · have hmem : op ∈ body.filterMap (·.op?) :=
          List.mem_filterMap.2 ⟨e, List.mem_of_getElem? he, hop⟩
        exact absurd (hresult op hmem hreturn ▸ hop) hne
  | @next p e s s' t o he hm _ ih =>
    have he' := getElem?_wrapInline (m := m) he
    rcases returns_or_stays (inlineEnd m) e with ⟨sources, rfl⟩ | ⟨-, hsame⟩
    · cases hm
    · rw [hsame] at he'
      exact .next he' hm ih
  | @jump p q e l s s' t o he hm hq _ ih =>
    have he' := getElem?_wrapInline (m := m) he
    rcases returns_or_stays (inlineEnd m) e with ⟨sources, rfl⟩ | ⟨-, hsame⟩
    · cases hm
    · rw [hsame] at he'
      refine .jump he' hm ?_ ih
      rw [position?_wrapInline, hq]
      rfl

/-- A jump of the body leads to the same place in the block. -/
theorem exists_position? {e : Entry} {l : Label} {q : Nat}
    (htarget : inlineEnd m ∉ branchTargets body) (he : e ∈ body)
    (hl : e.op?.bind (·.branchTarget?) = some l)
    (hq : position? (wrapInline m body) l = some q) :
    ∃ k, q = k + 1 ∧ position? body l = some k := by
  have hne : l ≠ inlineEnd m := by
    rintro rfl
    exact htarget (List.mem_filterMap.2 ⟨e, he, hl⟩)
  rw [position?_wrapInline, if_neg hne, Option.or_none, Option.map_eq_some_iff] at hq
  obtain ⟨k, hk, rfl⟩ := hq
  exact ⟨k, rfl, hk⟩

theorem Run.unwrap_of_le (hp : p ≤ body.length) (h : B.Run (wrapInline m body) (p + 1) s o t)
    (hinside : p < body.length → ∃ o', B.Run body p s o' t) : ∃ o', B.Run body p s o' t := by
  by_cases hlt : p < body.length
  · exact hinside hlt
  · obtain rfl : p = body.length := by omega
    rw [h.eq_of_end (Nat.lt_succ_self _)]
    exact ⟨.ranOff, .ranOff s⟩

/-- An entry of the block is that of the body, or a jump in place of a return. -/
theorem getElem?_of_wrapInline {e : Entry} (hp : p < body.length)
    (he : (wrapInline m body)[p + 1]? = some e) :
    (∃ sources, body[p]? = some (.invoke ⟨.returnVoid, sources⟩) ∧
      e = .invoke ⟨.branch (inlineEnd m), sources⟩) ∨ body[p]? = some e := by
  have hbody : body[p]? = some body[p] := List.getElem?_eq_getElem hp
  obtain rfl := Option.some.inj ((getElem?_wrapInline hbody).symm.trans he)
  rcases returns_or_stays (inlineEnd m) body[p] with ⟨sources, hreturn⟩ | ⟨-, hsame⟩
  · rw [hreturn] at hbody ⊢
    exact .inl ⟨sources, hbody, rfl⟩
  · rw [hsame]
    exact .inr hbody

/-- **A run of the block is one of the body.** -/
theorem Run.unwrap (hdefined : inlineEnd m ∉ definedLabels body)
    (htarget : inlineEnd m ∉ branchTargets body) (hp : p < body.length)
    (h : B.Run (wrapInline m body) (p + 1) s o t) : ∃ o', B.Run body p s o' t := by
  -- Induction on the run of the block, as long as it is at an entry of the body; past the body it
  -- is done (`unwrap_of_le`).
  generalize hpos : p + 1 = pos at h
  induction h generalizing p with
  | ranOff s =>
    rw [length_wrapInline] at hpos
    omega
  | leave he hm =>
    subst hpos
    rcases getElem?_of_wrapInline hp he with ⟨sources, hbody, rfl⟩ | hbody
    · cases hm
    · exact ⟨.returned, .leave hbody hm⟩
  | next he hm hrun ih =>
    subst hpos
    rcases getElem?_of_wrapInline hp he with ⟨sources, hbody, rfl⟩ | hbody
    · cases hm
    · obtain ⟨o', hrest⟩ := hrun.unwrap_of_le hp fun hlt => ih hlt rfl
      exact ⟨o', .next hbody hm hrest⟩
  | jump he hm hq hrun ih =>
    subst hpos
    rcases getElem?_of_wrapInline hp he with ⟨sources, hbody, rfl⟩ | hbody
    · -- The jump to the end has been a return.
      cases hm
      rw [position?_inlineEnd hdefined] at hq
      cases hq
      rw [hrun.eq_of_end (Nat.lt_succ_self _)]
      exact ⟨.returned, .leave hbody rfl⟩
    · -- Any other jump stays in the body, since no branch of the body leads to the end.
      rcases perform_eq_some hm with ⟨s₁, h⟩ | ⟨l', s₁, hl, h⟩ | ⟨op, -, -, h⟩
      · cases h
      · cases h
        obtain ⟨k, rfl, hk⟩ := exists_position? htarget (List.mem_of_getElem? hbody) hl hq
        obtain ⟨o', hrest⟩ := ih (position?_lt hk) rfl
        exact ⟨o', .jump hbody hm hk hrest⟩
      · cases h

/-- **Inlining a body is running it.** Runs of the block get to its end with the stores with which
runs of the body return or end past the last entry, and the block has no return. -/
theorem run_wrapInline_iff (B : Behaviour) (m : Member) (body : List Entry)
    (hresult : ∀ op ∈ body.filterMap (·.op?), op.isReturn = true → op = .returnVoid)
    (hdefined : inlineEnd m ∉ definedLabels body) (htarget : inlineEnd m ∉ branchTargets body) :
    (∀ s t, B.Run (wrapInline m body) 0 s .ranOff t ↔
        B.Run body 0 s .returned t ∨ B.Run body 0 s .ranOff t) ∧
      .returnVoid ∉ (wrapInline m body).filterMap (·.op?) := by
  have hbegin : (wrapInline m body)[0]? = some (.directive .beginBlock) := rfl
  refine ⟨fun s t => ⟨fun h => ?_, fun h => ?_⟩, ?_⟩
  · have hone : B.Run (wrapInline m body) 1 s .ranOff t := h.of_next hbegin rfl
    obtain ⟨o, hrun⟩ := hone.unwrap_of_le (Nat.zero_le _) (hone.unwrap hdefined htarget)
    cases o with
    | returned => exact .inl hrun
    | ranOff => exact .inr hrun
  · rcases h with hrun | hrun
    · exact .next hbegin rfl (hrun.wrap hresult hdefined)
    · exact .next hbegin rfl (hrun.wrap hresult hdefined)
  · intro h
    simp only [wrapInline, List.cons_append, List.filterMap_cons, List.filterMap_append,
      List.mem_append, Entry.op?, List.filterMap_nil, List.not_mem_nil, or_false] at h
    exact Routine.returnVoid_map_jumpInstead _ _ h

/-- A body that returns early unless a test succeeds gets to the end of its block when it fails. -/
theorem run_wrapInline_iff_early :
    let B : Behaviour :=
      ⟨fun _ _ => none, fun _ s => some (false, s), fun _ _ => none, fun _ _ => none⟩
    let m : Member := ⟨⟨"Game"⟩, "Tick"⟩
    let body : List Entry :=
      [.synthetic (.branchTrueFromStack (.instruction 2)), .synthetic .returnVoid,
       .label (.instruction 2), .synthetic .addFromStack]
    (∀ op ∈ body.filterMap (·.op?), op.isReturn = true → op = .returnVoid) ∧
      inlineEnd m ∉ definedLabels body ∧ inlineEnd m ∉ branchTargets body ∧
      ∀ s, B.Run (wrapInline m body) 0 s .ranOff s := by
  intro B m body
  have hresult : ∀ op ∈ body.filterMap (·.op?), op.isReturn = true → op = .returnVoid := by decide
  have hdefined : inlineEnd m ∉ definedLabels body := by decide
  have htarget : inlineEnd m ∉ branchTargets body := by decide
  refine ⟨hresult, hdefined, htarget, fun s => ?_⟩
  have hrun : B.Run body 0 s .returned s := .next rfl rfl (.leave rfl rfl)
  exact ((run_wrapInline_iff B m body hresult hdefined htarget).1 s s).2 (.inl hrun)

end Behaviour

end Cartridge
