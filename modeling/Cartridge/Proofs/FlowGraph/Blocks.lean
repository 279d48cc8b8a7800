import Cartridge.FlowGraph
import Cartridge.Proofs.FirstOccurrence
import Mathlib.Data.List.Range
import Mathlib.Tactic.Common

/-!
# Blocks

`cut` is the same cutting of a stream as that of a flow graph, by recursion on the stream and not by
positions. It makes blocks that begin at a label if they hold one and that end at the first macro
after which control may be elsewhere (`IsBody`). So the last macro of a block decides where control
goes only if it is the last entry (`lastOp?_eq_iff`), and the links of a block can be read off from
its last entry (`mem_successors_iff`).
-/

namespace Cartridge

namespace MacroOp

variable {op : MacroOp}

theorem endsBlock_of_isReturn (h : op.isReturn = true) : op.endsBlock = true := by
  cases op <;> first | rfl | cases h

theorem endsBlock_of_isJump (h : op.isJump = true) : op.endsBlock = true := by
  cases op <;> first | rfl | cases h

theorem endsBlock_of_isReturn_or_isJump (h : (op.isReturn || op.isJump) = true) :
    op.endsBlock = true := by
  rcases Bool.or_eq_true_iff.1 h with h | h
  · exact endsBlock_of_isReturn h
  · exact endsBlock_of_isJump h

theorem endsBlock_of_branchTarget? {l : Label} (h : op.branchTarget? = some l) :
    op.endsBlock = true := by
  cases op <;> first | rfl | cases h

theorem branchTarget?_of_isReturn (h : op.isReturn = true) : op.branchTarget? = none := by
  cases op <;> first | rfl | cases h

end MacroOp

namespace Entry

/-- Whether control may go on to the next entry. -/
def goesOn (e : Entry) : Bool := !e.op?.any fun op => op.isReturn || op.isJump

/-- The label that an entry may jump to. -/
def target? (e : Entry) : Option Label := e.op?.bind (·.branchTarget?)

/-- Whether an entry is a return. -/
def isReturn (e : Entry) : Bool := e.op?.any (·.isReturn)

end Entry

namespace FlowGraph

variable {es body : List Entry} {bodies : List (List Entry)} {e : Entry} {i j k : Nat}

/-! ### Cutting -/

/-- The label that a block starts with. -/
def labelOf? (body : List Entry) : Option Label := body.head?.bind (·.definedLabel?)

/-- Cuts a stream into the bodies of its blocks. -/
def cut : List Entry → List (List Entry)
  | [] => []
  | e :: es =>
    match cut es with
    | [] => [[e]]
    | body :: bodies =>
      if endsBlock e || (labelOf? body).isSome then [e] :: body :: bodies
      else (e :: body) :: bodies

/-- The body of a block: a label stands at its start or not at all, and no macro but its last entry
ends it. -/
structure IsBody (body : List Entry) : Prop where
  nonempty : body ≠ []
  label : ∀ e ∈ body.tail, e.definedLabel? = none
  ends : ∀ e ∈ body.dropLast, endsBlock e = false

theorem IsBody.singleton (e : Entry) : IsBody [e] := ⟨List.cons_ne_nil e [], by simp, by simp⟩

theorem IsBody.exists_last (h : IsBody body) : ∃ e, body.getLast? = some e :=
  ⟨_, List.getLast?_eq_some_getLast h.nonempty⟩

theorem IsBody.eq_zero_of_label (h : IsBody body) {l : Label} (hl : body[j]? = some (.label l)) :
    j = 0 := by
  cases j with
  | zero => rfl
  | succ j =>
    rw [← List.getElem?_tail] at hl
    cases h.label _ (List.mem_of_getElem? hl)

theorem IsBody.succ_eq_length (h : IsBody body) (he : body[j]? = some e)
    (hends : endsBlock e = true) : j + 1 = body.length := by
  obtain ⟨hlt, -⟩ := List.getElem?_eq_some_iff.1 he
  by_contra hne
  have hinit : body.dropLast[j]? = some e := by
    rw [List.getElem?_dropLast, if_pos (by omega)]
    exact he
  exact Bool.false_ne_true ((h.ends e (List.mem_of_getElem? hinit)).symm.trans hends)

theorem IsBody.cons (h : IsBody body) (he : endsBlock e = false) (hlabel : labelOf? body = none) :
    IsBody (e :: body) := by
  refine ⟨List.cons_ne_nil e body, fun x hx => ?_, fun x hx => ?_⟩
  · cases body with
    | nil => cases hx
    | cons first rest =>
      rcases List.mem_cons.1 hx with rfl | hx
      · exact hlabel
      · exact h.label x hx
  · rw [List.dropLast_cons_of_ne_nil h.nonempty] at hx
    rcases List.mem_cons.1 hx with rfl | hx
    · exact he
    · exact h.ends x hx

theorem isBody_of_mem_cut (es : List Entry) : ∀ body ∈ cut es, IsBody body := by
  induction es with
  | nil => exact List.forall_mem_nil _
  | cons e es ih =>
    rw [cut]
    split
    · exact List.forall_mem_singleton.2 (.singleton e)
    · rename_i body bodies hcut
      rw [hcut] at ih
      obtain ⟨hbody, hbodies⟩ := List.forall_mem_cons.1 ih
      split
      · exact List.forall_mem_cons.2 ⟨.singleton e, ih⟩
      · rename_i hjoin
        simp only [Bool.or_eq_true, not_or, Bool.not_eq_true, Option.isSome_eq_false_iff,
          Option.isNone_iff_eq_none] at hjoin
        exact List.forall_mem_cons.2 ⟨hbody.cons hjoin.1 hjoin.2, hbodies⟩

theorem isBody_of_getElem? (h : (cut es)[k]? = some body) : IsBody body :=
  isBody_of_mem_cut es body (List.mem_of_getElem? h)

/-- **Cutting loses nothing.** -/
theorem flatten_cut (es : List Entry) : (cut es).flatten = es := by
  induction es with
  | nil => rfl
  | cons e es ih =>
    rw [cut]
    split
    · rename_i hcut
      rw [hcut] at ih
      exact congrArg (e :: ·) ih
    · rename_i body bodies hcut
      rw [hcut] at ih
      split
      · exact congrArg (e :: ·) ih
      · exact congrArg (e :: ·) ih

/-! ### Positions -/

/-- The position where a body begins. -/
def offset (bodies : List (List Entry)) (k : Nat) : Nat := (bodies.take k).flatten.length

theorem offset_succ (h : bodies[k]? = some body) :
    offset bodies (k + 1) = offset bodies k + body.length := by
  simp [offset, List.take_add_one, h]

theorem flatten_eq (h : bodies[k]? = some body) :
    bodies.flatten = (bodies.take k).flatten ++ (body ++ (bodies.drop (k + 1)).flatten) := by
  obtain ⟨hk, hbody⟩ := List.getElem?_eq_some_iff.1 h
  rw [← hbody, ← List.flatten_cons, ← List.drop_eq_getElem_cons hk, ← List.flatten_append,
    List.take_append_drop]

theorem getElem?_flatten (h : bodies[k]? = some body) (hj : j < body.length) :
    bodies.flatten[offset bodies k + j]? = body[j]? := by
  rw [flatten_eq h, offset, List.getElem?_append_right (Nat.le_add_right ..),
    Nat.add_sub_cancel_left, List.getElem?_append_left hj]

/-! ### Links -/

/-- The block that a label stands for. -/
def target? (bodies : List (List Entry)) (l : Label) : Option Nat :=
  (bodies.zipIdx.filter fun placed => labelOf? placed.1 = some l).getLast?.map (·.2)

/-- The block after a block. -/
def next (bodies : List (List Entry)) (i : Nat) : List Nat :=
  if i + 1 < bodies.length then [i + 1] else []

/-- Where control may go from a block, jump first. -/
def edges (bodies : List (List Entry)) (i : Nat) (body : List Entry) : List Nat :=
  match lastOp? body with
  | none => next bodies i
  | some op =>
    if op.isReturn then []
    else (op.branchTarget?.bind (target? bodies)).toList ++
      if op.isJump then [] else next bodies i

/-- The same, each block once. -/
def successors (bodies : List (List Entry)) (i : Nat) (body : List Entry) : List Nat :=
  (edges bodies i body).eraseDups

theorem lastOp?_concat (init : List Entry) (e : Entry) :
    lastOp? (init ++ [e]) = e.op?.or (lastOp? init) := by
  rw [lastOp?, lastOp?, List.reverse_concat, List.findSome?_cons]
  cases e.op? <;> rfl

/-- If the last macro of a body ends it, then it is its last entry. -/
theorem lastOp?_eq_iff (h : IsBody body) (he : body.getLast? = some e) {op : MacroOp}
    (hop : op.endsBlock = true) : lastOp? body = some op ↔ e.op? = some op := by
  obtain ⟨init, rfl⟩ := List.getLast?_eq_some_iff.1 he
  have hinit := h.ends
  rw [List.dropLast_concat] at hinit
  rw [lastOp?_concat]
  cases hlast : e.op? with
  | some last => simp
  | none =>
    refine iff_of_false (fun hmem => ?_) nofun
    obtain ⟨x, hx, hxop⟩ := List.exists_of_findSome?_eq_some hmem
    have hfalse := hinit x (List.mem_reverse.1 hx)
    rw [endsBlock, hxop, Option.any_some, hop] at hfalse
    cases hfalse

theorem any_lastOp? (h : IsBody body) (he : body.getLast? = some e) {p : MacroOp → Bool}
    (hp : ∀ op, p op = true → op.endsBlock = true) : (lastOp? body).any p = e.op?.any p := by
  rw [Bool.eq_iff_iff, Option.any_eq_true, Option.any_eq_true]
  exact exists_congr fun op => and_congr_left fun hop => lastOp?_eq_iff h he (hp op hop)

theorem bind_lastOp? (h : IsBody body) (he : body.getLast? = some e) :
    (lastOp? body).bind (·.branchTarget?) = e.target? := by
  refine Option.ext fun l => ?_
  rw [Entry.target?, Option.bind_eq_some_iff, Option.bind_eq_some_iff]
  refine exists_congr fun op => and_congr_left fun hop => ?_
  exact lastOp?_eq_iff h he (MacroOp.endsBlock_of_branchTarget? hop)

theorem mem_next : k ∈ next bodies i ↔ k = i + 1 ∧ k < bodies.length := by
  unfold next
  split
  · rw [List.mem_singleton]
    exact ⟨fun hk => ⟨hk, by omega⟩, And.left⟩
  · exact iff_of_false List.not_mem_nil fun ⟨hk, hlt⟩ => by omega

theorem mem_successors : k ∈ successors bodies i body ↔
    ((lastOp? body).bind (·.branchTarget?)).bind (target? bodies) = some k ∨
      ((lastOp? body).any fun op => op.isReturn || op.isJump) = false ∧ k ∈ next bodies i := by
  rw [successors, List.mem_eraseDups]
  unfold edges
  cases lastOp? body with
  | none => simp
  | some op =>
    simp only [Option.bind_some, Option.any_some]
    split
    · rename_i hret
      simp [MacroOp.branchTarget?_of_isReturn hret, hret]
    · rename_i hret
      split
      · rename_i hjump
        simp [hjump, Option.mem_toList]
      · rename_i hjump
        simp [hret, hjump, Option.mem_toList]

/-- **Where control goes from a block** is where it goes from its last entry. -/
theorem mem_successors_iff (h : IsBody body) (he : body.getLast? = some e) :
    k ∈ successors bodies i body ↔
      (∃ l, e.target? = some l ∧ target? bodies l = some k) ∨
        e.goesOn = true ∧ k = i + 1 ∧ k < bodies.length := by
  have hany := any_lastOp? h he fun _ => MacroOp.endsBlock_of_isReturn_or_isJump
  rw [mem_successors, bind_lastOp? h he, hany, mem_next, Option.bind_eq_some_iff, Entry.goesOn,
    Bool.not_eq_true']

theorem target?_eq_some {l : Label} (h : target? bodies l = some k) :
    ∃ body, bodies[k]? = some body ∧ labelOf? body = some l := by
  obtain ⟨⟨body, k'⟩, hlast, rfl⟩ := Option.map_eq_some_iff.1 h
  obtain ⟨hmem, hlabel⟩ := List.mem_filter.1 (List.mem_of_getLast? hlast)
  exact ⟨body, List.mk_mem_zipIdx_iff_getElem?.1 hmem, of_decide_eq_true hlabel⟩

theorem lt_of_mem_successors (h : IsBody body) (hk : k ∈ successors bodies i body) :
    k < bodies.length := by
  obtain ⟨e, he⟩ := h.exists_last
  rcases (mem_successors_iff h he).1 hk with ⟨l, -, hl⟩ | ⟨-, -, hlt⟩
  · obtain ⟨body', hbody, -⟩ := target?_eq_some hl
    exact (List.getElem?_eq_some_iff.1 hbody).1
  · exact hlt

end FlowGraph

end Cartridge
