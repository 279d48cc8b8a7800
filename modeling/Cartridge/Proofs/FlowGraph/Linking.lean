import Cartridge.Proofs.FlowGraph.Blocks
import Mathlib.Data.List.Sort
import Std.Data.HashMap.Lemmas

/-!
# Building a flow graph

A flow graph is built in three loops: over the entries for the positions where blocks start, over
these for the blocks, and over the blocks for their links. What they build is said here without
them:

* blocks start where `cut` cuts the stream (`leaders_eq`);
* a label stands for the last block that starts with it (`getElem?_targets`);
* after some turns of the last loop the blocks before are linked and the others are not
  (`linkedUpTo`), of which one turn adds one block (`link_linkedUpTo`).

**`ofEntries_eq`**: the graph of a stream is that of its bodies, all of them linked. From this it is
read off that its blocks are a partition of the stream (`partition_ofEntries`).
-/

namespace Cartridge.FlowGraph

variable {es body : List Entry} {bodies : List (List Entry)} {i j k : Nat}

/-! ### Leaders -/

theorem mem_insertPosition {js : List Nat} : k ∈ insertPosition i js ↔ k = i ∨ k ∈ js := by
  fun_induction insertPosition i js with
  | case1 => simp
  | case2 j js hlt => simp
  | case3 js => simp
  | case4 j js hlt hne ih =>
    rw [List.mem_cons, ih, List.mem_cons]
    tauto

theorem pairwise_insertPosition {js : List Nat} (h : js.Pairwise (· < ·)) :
    (insertPosition i js).Pairwise (· < ·) := by
  fun_induction insertPosition i js with
  | case1 => exact List.pairwise_singleton ..
  | case2 j js hlt =>
    refine List.pairwise_cons.2 ⟨List.forall_mem_cons.2 ⟨hlt, fun k hk => ?_⟩, h⟩
    exact hlt.trans ((List.pairwise_cons.1 h).1 k hk)
  | case3 js => exact h
  | case4 j js hlt hne ih =>
    obtain ⟨hfirst, hrest⟩ := List.pairwise_cons.1 h
    refine List.pairwise_cons.2 ⟨fun k hk => ?_, ih hrest⟩
    rcases mem_insertPosition.1 hk with rfl | hk
    · omega
    · exact hfirst k hk

/-- Whether a block starts at a position of the stream. -/
def leads (es : List Entry) (i : Nat) : Bool :=
  i == 0 || (es[i]?.bind (·.definedLabel?)).isSome || es[i - 1]?.any endsBlock

theorem leader?_eq_some {n : Nat} {e : Entry} :
    leader? n e i = some k ↔
      k = i ∧ e.definedLabel?.isSome = true ∨ k = i + 1 ∧ k < n ∧ endsBlock e = true := by
  cases e with
  | label l => simp [leader?, Entry.definedLabel?, endsBlock, Entry.op?, eq_comm]
  | invoke call =>
    simp only [leader?, Entry.definedLabel?]
    grind
  | _ => simp [leader?, Entry.definedLabel?, endsBlock, Entry.op?]

theorem mem_foldl_insertPosition {is js : List Nat} :
    k ∈ is.foldl (fun positions i => insertPosition i positions) js ↔ k ∈ is ∨ k ∈ js := by
  induction is generalizing js with
  | nil => simp
  | cons i is ih =>
    rw [List.foldl_cons, ih, mem_insertPosition, List.mem_cons]
    tauto

theorem pairwise_foldl_insertPosition (is : List Nat) {js : List Nat} (h : js.Pairwise (· < ·)) :
    (is.foldl (fun positions i => insertPosition i positions) js).Pairwise (· < ·) := by
  induction is generalizing js with
  | nil => exact h
  | cons i is ih => exact ih (pairwise_insertPosition h)

theorem mem_leaders (hes : es ≠ []) : k ∈ leaders es ↔ k < es.length ∧ leads es k = true := by
  have hpos := List.length_pos_iff.2 hes
  simp only [leaders, mem_foldl_insertPosition, List.mem_filterMap, List.mem_singleton,
    Prod.exists, List.mk_mem_zipIdx_iff_getElem?, leader?_eq_some, leads, Bool.or_eq_true,
    beq_iff_eq, Option.any_eq_true]
  constructor
  · rintro (⟨e, i, he, ⟨rfl, hlabel⟩ | ⟨rfl, hlt, hends⟩⟩ | rfl)
    · exact ⟨(List.getElem?_eq_some_iff.1 he).1, .inl (.inr (by rw [he]; exact hlabel))⟩
    · exact ⟨hlt, .inr ⟨e, he, hends⟩⟩
    · exact ⟨hpos, .inl (.inl rfl)⟩
  · rintro ⟨hlt, (hzero | hlabel) | ⟨e, he, hends⟩⟩
    · exact .inr hzero
    · obtain ⟨e, he⟩ : ∃ e, es[k]? = some e := ⟨_, List.getElem?_eq_getElem hlt⟩
      rw [he] at hlabel
      exact .inl ⟨e, k, he, .inl ⟨rfl, hlabel⟩⟩
    · cases k with
      | zero => exact .inr rfl
      | succ k => exact .inl ⟨e, k, he, .inr ⟨rfl, hlt, hends⟩⟩

/-- **Leaders are found in ascending order.** -/
theorem leaders_eq_filter (hes : es ≠ []) :
    leaders es = (List.range es.length).filter (leads es) := by
  have hasc : (leaders es).Pairwise (· < ·) :=
    pairwise_foldl_insertPosition _ (List.pairwise_singleton ..)
  have hasc' : ((List.range es.length).filter (leads es)).Pairwise (· < ·) :=
    List.pairwise_lt_range.filter _
  refine List.Perm.eq_of_pairwise (fun a b _ _ hab hba => absurd hab hba.asymm) hasc hasc' ?_
  refine (List.perm_ext_iff_of_nodup (hasc.imp Nat.ne_of_lt) (hasc'.imp Nat.ne_of_lt)).2 fun k => ?_
  rw [mem_leaders hes, List.mem_filter, List.mem_range]

/-- The positions where bodies begin. -/
def starts (bodies : List (List Entry)) : List Nat := (List.range bodies.length).map (offset bodies)

theorem starts_cons (body : List Entry) (bodies : List (List Entry)) :
    starts (body :: bodies) = 0 :: (starts bodies).map (body.length + ·) := by
  simp [starts, List.range_succ_eq_map, offset, Function.comp_def]

theorem filter_range_succ (p : Nat → Bool) (n : Nat) :
    (List.range (n + 1)).filter p =
      (if p 0 then [0] else []) ++ ((List.range n).filter (p <| · + 1)).map (· + 1) := by
  rw [List.range_succ_eq_map, List.filter_cons, List.filter_map]
  split <;> rfl

/-- **Bodies begin at the leaders.** -/
theorem starts_cut (es : List Entry) :
    starts (cut es) = (List.range es.length).filter (leads es) := by
  induction es with
  | nil => rfl
  | cons e es ih =>
    rw [List.length_cons, filter_range_succ, cut]
    split
    · rename_i hcut
      have hes : es = [] := by rw [← flatten_cut es, hcut]; rfl
      subst hes
      rfl
    · rename_i body bodies hcut
      -- Behind the first body nothing changes; whether it begins anew depends on `e` and its label.
      rw [hcut] at ih
      have hbody := isBody_of_mem_cut es body (hcut ▸ List.mem_cons_self)
      obtain ⟨first, rest, rfl⟩ := List.exists_cons_of_ne_nil hbody.nonempty
      have hes : es = first :: (rest ++ bodies.flatten) := by
        rw [← flatten_cut es, hcut]
        rfl
      have hfirst : leads (e :: es) 1 = (endsBlock e || (labelOf? (first :: rest)).isSome) := by
        rw [hes, Bool.or_comm]
        rfl
      have hlater : ∀ k, leads (e :: es) (k + 1 + 1) = leads es (k + 1) := fun k => rfl
      rw [hes, List.length_cons, filter_range_succ, ← hes, starts_cons] at ih
      have htail : (starts bodies).map ((first :: rest).length + ·) =
          ((List.range (rest ++ bodies.flatten).length).filter (leads es <| · + 1)).map (· + 1) :=
        (List.cons.inj ih).2
      rw [hes, List.length_cons, filter_range_succ, ← hes]
      simp only [hfirst, hlater, Nat.zero_add]
      split
      · rw [starts_cons, starts_cons, htail]
        simp [leads, Nat.add_comm 1]
      · rw [starts_cons, List.nil_append, ← htail]
        simp [leads, Nat.add_comm, Nat.add_left_comm]

theorem leaders_eq (hes : es ≠ []) : leaders es = starts (cut es) := by
  rw [leaders_eq_filter hes, starts_cut]

/-! ### Blocks -/

theorem length_starts (bodies : List (List Entry)) : (starts bodies).length = bodies.length := by
  simp [starts]

theorem getElem?_starts (h : k < bodies.length) : (starts bodies)[k]? = some (offset bodies k) := by
  simp [starts, h]

/-- The entries of a body, taken from the stream. -/
theorem take_drop_flatten (h : bodies[k]? = some body) :
    (bodies.flatten.drop (offset bodies k)).take body.length = body := by
  rw [flatten_eq h, offset, List.drop_left, List.take_left]

/-- The blocks before `n` that are linked to a block. -/
def predecessorsUpTo (bodies : List (List Entry)) (n k : Nat) : List Nat :=
  (List.range n).filter fun j => k ∈ (bodies[j]?.map (successors bodies j)).getD []

/-- The blocks before `n` that end in a return. -/
def exitsUpTo (bodies : List (List Entry)) (n : Nat) : List Nat :=
  (List.range n).filter fun j => (bodies[j]?.bind lastOp?).any (·.isReturn)

/-- A block in its place, when the blocks before `n` are linked. -/
def blockUpTo (bodies : List (List Entry)) (n : Nat) (body : List Entry) (k : Nat) : Block where
  id := k
  start := offset bodies k
  stop := offset bodies k + body.length
  label := labelOf? body
  successors := if k < n then successors bodies k body else []
  predecessors := predecessorsUpTo bodies n k

/-- The graph when the blocks before `n` are linked. -/
def linkedUpTo (bodies : List (List Entry)) (n : Nat) : FlowGraph where
  blocks := bodies.zipIdx.map fun placed => blockUpTo bodies n placed.1 placed.2
  exits := exitsUpTo bodies n

theorem getElem?_blocks_linkedUpTo (n k : Nat) :
    (linkedUpTo bodies n).blocks[k]? = bodies[k]?.map fun body => blockUpTo bodies n body k := by
  simp [linkedUpTo, Function.comp_def]

theorem length_blocks_linkedUpTo (n : Nat) :
    (linkedUpTo bodies n).blocks.length = bodies.length := by
  simp [linkedUpTo]

/-- A body ends where the next one begins, or at the end of the stream. -/
theorem getD_starts (h : bodies[k]? = some body) :
    (starts bodies)[k + 1]?.getD bodies.flatten.length = offset bodies k + body.length := by
  rw [← offset_succ h]
  by_cases hk : k + 1 < bodies.length
  · rw [getElem?_starts hk, Option.getD_some]
  · have hlt := (List.getElem?_eq_some_iff.1 h).1
    rw [List.getElem?_eq_none (by rw [length_starts]; omega), Option.getD_none, offset,
      List.take_of_length_le (by omega)]

theorem blocksAt_starts (es : List Entry) :
    blocksAt es (starts (cut es)) = (linkedUpTo (cut es) 0).blocks := by
  refine List.ext_getElem? fun k => ?_
  rw [getElem?_blocks_linkedUpTo, blocksAt, List.getElem?_map, List.getElem?_zipIdx, Option.map_map]
  cases hbody : (cut es)[k]? with
  | none =>
    rw [List.getElem?_eq_none (by rw [length_starts]; exact List.getElem?_eq_none_iff.1 hbody)]
    rfl
  | some body =>
    have hpos := List.length_pos_iff.2 (isBody_of_getElem? hbody).nonempty
    have hlabel : es[offset (cut es) k]?.bind (·.definedLabel?) = labelOf? body := by
      have hfirst := getElem?_flatten hbody hpos
      rw [Nat.add_zero, flatten_cut, ← List.head?_eq_getElem?] at hfirst
      rw [hfirst, labelOf?]
    have hstop := getD_starts hbody
    rw [flatten_cut] at hstop
    rw [getElem?_starts (List.getElem?_eq_some_iff.1 hbody).1]
    simp only [Option.map_some, Function.comp_apply, Nat.zero_add, hlabel, hstop, blockUpTo,
      Nat.not_lt_zero, if_false, predecessorsUpTo, List.range_zero, List.filter_nil]

theorem getElem?_targets (blocks : List Block) (l : Label) :
    (targets blocks)[l]? = (blocks.filter fun b => b.label = some l).getLast?.map (·.id) := by
  induction blocks using List.reverseRecOn with
  | nil => simp [targets]
  | append_singleton blocks b ih =>
    rw [targets, List.foldl_concat, ← targets, List.filter_append]
    cases hlabel : b.label with
    | none => simp [ih, hlabel]
    | some l' =>
      simp only [Std.HashMap.getElem?_insert]
      by_cases heq : l' = l
      · simp [heq, hlabel]
      · simp [heq, hlabel, ih]

/-- **A label stands for the last block that starts with it.** -/
theorem getElem?_targets_linkedUpTo (bodies : List (List Entry)) (l : Label) :
    (targets (linkedUpTo bodies 0).blocks)[l]? = target? bodies l := by
  rw [getElem?_targets, linkedUpTo, List.filter_map, List.getLast?_map, Option.map_map]
  rfl

/-! ### Links -/

theorem foldl_addOnce (is : List Nat) : is.foldl addOnce [] = is.eraseDups := by
  induction is using List.reverseRecOn with
  | nil => rfl
  | append_singleton is i ih =>
    rw [List.foldl_concat, ih, addOnce]
    by_cases hi : i ∈ is
    · rw [if_pos (by simpa using hi), eraseDups_append_subset (by simpa using hi)]
    · rw [if_neg (by simpa using hi), eraseDups_concat_of_not_mem hi]

theorem addOnce_addOnce (is : List Nat) (i : Nat) : addOnce (addOnce is i) i = addOnce is i := by
  unfold addOnce
  split <;> simp_all

/-- Links a block to others. -/
def addEdges (g : FlowGraph) (i : Nat) (js : List Nat) : FlowGraph :=
  js.foldl (fun g j => g.addEdge i j) g

theorem getElem?_addEdge (g : FlowGraph) (i j k : Nat) :
    (g.addEdge i j).blocks[k]? = g.blocks[k]?.map fun b =>
      { b with
        successors := if i = k then addOnce b.successors j else b.successors
        predecessors := if j = k then addOnce b.predecessors i else b.predecessors } := by
  simp only [addEdge, List.getElem?_modify, Option.map_eq_map, Option.map_map]
  refine Option.map_congr fun b _ => ?_
  simp only [Function.comp_apply]
  split <;> split <;> rfl

theorem getElem?_addEdges (g : FlowGraph) (i k : Nat) (js : List Nat) :
    (g.addEdges i js).blocks[k]? = g.blocks[k]?.map fun b =>
      { b with
        successors := if i = k then js.foldl addOnce b.successors else b.successors
        predecessors := if k ∈ js then addOnce b.predecessors i else b.predecessors } := by
  induction js generalizing g with
  | nil => simp [addEdges]
  | cons j js ih =>
    rw [addEdges, List.foldl_cons, ← addEdges, ih, getElem?_addEdge, Option.map_map]
    refine Option.map_congr fun b _ => ?_
    have hpred : (if k ∈ js then
          addOnce (if j = k then addOnce b.predecessors i else b.predecessors) i
        else if j = k then addOnce b.predecessors i else b.predecessors) =
        if k ∈ j :: js then addOnce b.predecessors i else b.predecessors := by
      by_cases hj : j = k
      · subst hj
        simp [addOnce_addOnce]
      · simp [hj, Ne.symm hj]
    simp only [Function.comp_apply, hpred]
    split <;> rfl

theorem exits_addEdges (g : FlowGraph) (i : Nat) (js : List Nat) :
    (g.addEdges i js).exits = g.exits := by
  induction js generalizing g with
  | nil => rfl
  | cons j js ih => exact ih (g.addEdge i j)

theorem length_addEdge (g : FlowGraph) (i j : Nat) :
    (g.addEdge i j).blocks.length = g.blocks.length := by
  simp [addEdge]

theorem fallThrough_eq {g : FlowGraph} (h : g.blocks.length = bodies.length) (i : Nat) :
    g.fallThrough i = g.addEdges i (next bodies i) := by
  rw [fallThrough, next, h]
  split <;> rfl

/-- **One turn of the loop** links a block along its edges, and counts it if it ends in a return. -/
theorem link_eq {g : FlowGraph} {b : Block} {found : Std.HashMap Label Nat}
    (hb : g.blocks[i]? = some b) (hbody : (es.drop b.start).take (b.stop - b.start) = body)
    (hfound : ∀ l, found[l]? = target? bodies l) (hlength : g.blocks.length = bodies.length) :
    link es found g i =
      { g.addEdges i (edges bodies i body) with
        exits := if (lastOp? body).any (·.isReturn) then g.exits ++ [i] else g.exits } := by
  have hsame : ∀ js, g.addEdges i js = { g.addEdges i js with exits := g.exits } := by
    intro js
    rw [← exits_addEdges g i js]
  simp only [link, hb, hbody, edges]
  cases lastOp? body with
  | none => exact (fallThrough_eq hlength i).trans (hsame _)
  | some op =>
    simp only [Option.any_some]
    by_cases hret : op.isReturn = true
    · rw [if_pos hret, if_pos hret, if_pos hret]
      rfl
    · rw [if_neg hret, if_neg hret, if_neg hret]
      simp only [hfound]
      cases op.branchTarget?.bind (target? bodies) with
      | none =>
        by_cases hjump : op.isJump = true
        · rw [if_pos hjump, if_pos hjump]
          rfl
        · rw [if_neg hjump, if_neg hjump, fallThrough_eq hlength]
          exact hsame _
      | some target =>
        by_cases hjump : op.isJump = true
        · rw [if_pos hjump, if_pos hjump]
          exact hsame [target]
        · rw [if_neg hjump, if_neg hjump, fallThrough_eq ((length_addEdge ..).trans hlength)]
          exact hsame (target :: next bodies i)

theorem ext_blocks {g g' : FlowGraph} (hblocks : ∀ k : Nat, g.blocks[k]? = g'.blocks[k]?)
    (hexits : g.exits = g'.exits) : g = g' := by
  obtain ⟨blocks, exits⟩ := g
  obtain ⟨blocks', exits'⟩ := g'
  cases List.ext_getElem? hblocks
  cases hexits
  rfl

theorem predecessorsUpTo_succ {n : Nat} (h : bodies[n]? = some body) (k : Nat) :
    predecessorsUpTo bodies (n + 1) k =
      if k ∈ edges bodies n body then addOnce (predecessorsUpTo bodies n k) n
      else predecessorsUpTo bodies n k := by
  have hnew : (predecessorsUpTo bodies n k).contains n = false := by simp [predecessorsUpTo]
  have hlink : k ∈ (bodies[n]?.map (successors bodies n)).getD [] ↔ k ∈ edges bodies n body := by
    rw [h, Option.map_some, Option.getD_some, successors, List.mem_eraseDups]
  rw [predecessorsUpTo, List.range_succ, List.filter_append, ← predecessorsUpTo, addOnce, hnew]
  by_cases hk : k ∈ edges bodies n body
  · simp [hlink, hk]
  · simp [hlink, hk]

theorem exitsUpTo_succ {n : Nat} (h : bodies[n]? = some body) :
    exitsUpTo bodies (n + 1) =
      if (lastOp? body).any (·.isReturn) then exitsUpTo bodies n ++ [n]
      else exitsUpTo bodies n := by
  rw [exitsUpTo, List.range_succ, List.filter_append, ← exitsUpTo, List.filter_singleton, h,
    Option.bind_some]
  by_cases hret : (lastOp? body).any (·.isReturn) = true
  · simp [hret]
  · simp [hret]

/-- The next block is linked after those before it. -/
theorem link_linkedUpTo {n : Nat} (h : (cut es)[n]? = some body) :
    link es (targets (linkedUpTo (cut es) 0).blocks) (linkedUpTo (cut es) n) n =
      linkedUpTo (cut es) (n + 1) := by
  have hblock : (linkedUpTo (cut es) n).blocks[n]? = some (blockUpTo (cut es) n body n) := by
    rw [getElem?_blocks_linkedUpTo, h, Option.map_some]
  have hslice : (es.drop (offset (cut es) n)).take
      (offset (cut es) n + body.length - offset (cut es) n) = body := by
    rw [Nat.add_sub_cancel_left, ← congrArg (List.drop _) (flatten_cut es)]
    exact take_drop_flatten h
  rw [link_eq hblock hslice (getElem?_targets_linkedUpTo _) (length_blocks_linkedUpTo n)]
  refine ext_blocks (fun k => ?_) (exitsUpTo_succ h).symm
  rw [getElem?_addEdges, getElem?_blocks_linkedUpTo, getElem?_blocks_linkedUpTo, Option.map_map]
  refine Option.map_congr fun body' hbody' => ?_
  have hsuccessors : (if n = k then
      (edges (cut es) n body).foldl addOnce (if k < n then successors (cut es) k body' else [])
      else if k < n then successors (cut es) k body' else []) =
      if k < n + 1 then successors (cut es) k body' else [] := by
    by_cases hk : n = k
    · subst hk
      cases h.symm.trans hbody'
      simp [foldl_addOnce, successors]
    · have hlt : k < n + 1 ↔ k < n := by omega
      simp [hk, hlt]
  simp only [Function.comp_apply, blockUpTo, hsuccessors, predecessorsUpTo_succ h k]

theorem foldl_link (es : List Entry) {n : Nat} (hn : n ≤ (cut es).length) :
    (List.range n).foldl (link es (targets (linkedUpTo (cut es) 0).blocks))
      (linkedUpTo (cut es) 0) = linkedUpTo (cut es) n := by
  induction n with
  | zero => rfl
  | succ n ih =>
    rw [List.range_succ, List.foldl_concat, ih (by omega)]
    exact link_linkedUpTo (List.getElem?_eq_getElem hn)

/-- **The graph of a stream** is that of its bodies, all of them linked. -/
theorem ofEntries_eq (es : List Entry) : ofEntries es = linkedUpTo (cut es) (cut es).length := by
  by_cases hes : es = []
  · subst hes
    rfl
  · have hgraph : (⟨(linkedUpTo (cut es) 0).blocks, []⟩ : FlowGraph) = linkedUpTo (cut es) 0 := rfl
    simp only [ofEntries, List.isEmpty_iff, hes, if_false, leaders_eq hes, blocksAt_starts,
      length_blocks_linkedUpTo, hgraph]
    exact foldl_link es (Nat.le_refl _)

/-! ### Partition -/

theorem mem_predecessorsUpTo :
    j ∈ predecessorsUpTo bodies bodies.length k ↔
      ∃ body, bodies[j]? = some body ∧ k ∈ successors bodies j body := by
  rw [predecessorsUpTo, List.mem_filter, List.mem_range, decide_eq_true_eq]
  constructor
  · rintro ⟨hj, hk⟩
    rw [List.getElem?_eq_getElem hj, Option.map_some, Option.getD_some] at hk
    exact ⟨_, List.getElem?_eq_getElem hj, hk⟩
  · rintro ⟨body, hbody, hk⟩
    rw [hbody, Option.map_some, Option.getD_some]
    exact ⟨(List.getElem?_eq_some_iff.1 hbody).1, hk⟩

/-- A block in its place, with all its links. -/
def blockAt (bodies : List (List Entry)) (k : Nat) (body : List Entry) : Block where
  id := k
  start := offset bodies k
  stop := offset bodies k + body.length
  label := labelOf? body
  successors := successors bodies k body
  predecessors := predecessorsUpTo bodies bodies.length k

theorem getElem?_blocks :
    (ofEntries es).blocks[k]? = (cut es)[k]?.map (blockAt (cut es) k) := by
  rw [ofEntries_eq, getElem?_blocks_linkedUpTo]
  refine Option.map_congr fun body hbody => ?_
  rw [blockUpTo, if_pos (List.getElem?_eq_some_iff.1 hbody).1]
  rfl

theorem length_blocks (es : List Entry) : (ofEntries es).blocks.length = (cut es).length := by
  rw [ofEntries_eq, length_blocks_linkedUpTo]

theorem blocks_of_cut (h : (cut es)[k]? = some body) :
    (ofEntries es).blocks[k]? = some (blockAt (cut es) k body) := by
  rw [getElem?_blocks, h, Option.map_some]

/-- What makes a graph a partition of a stream into linked blocks. -/
structure Partition (es : List Entry) (g : FlowGraph) : Prop where
  ids : g.blocks.map (·.id) = List.range g.blocks.length
  nonempty : ∀ b ∈ g.blocks, b.start < b.stop
  /-- The blocks are intervals that cover the stream in order. -/
  covers : g.blocks.flatMap (fun b => List.range' b.start (b.stop - b.start)) =
    List.range es.length
  /-- A label stands only at the start of a block. -/
  labels : ∀ b ∈ g.blocks, ∀ i l, b.start ≤ i → i < b.stop → es[i]? = some (.label l) → i = b.start
  /-- A macro that ends a block stands only at the end of one. -/
  ends : ∀ b ∈ g.blocks, ∀ i e, b.start ≤ i → i < b.stop → es[i]? = some e → endsBlock e = true →
    i + 1 = b.stop
  nodup : ∀ b ∈ g.blocks, b.successors.Nodup ∧ b.predecessors.Nodup
  converse : ∀ j k, (∃ b : Block, g.blocks[j]? = some b ∧ k ∈ b.successors) ↔
    ∃ b : Block, g.blocks[k]? = some b ∧ j ∈ b.predecessors
  exits : ∀ k, k ∈ g.exits ↔
    ∃ b e, g.blocks[k]? = some b ∧ es[b.stop - 1]? = some e ∧ e.isReturn = true

/-- The first blocks cover the stream up to the next one. -/
theorem flatMap_take_blocks (es : List Entry) {n : Nat} (hn : n ≤ (cut es).length) :
    ((ofEntries es).blocks.take n).flatMap (fun b => List.range' b.start (b.stop - b.start)) =
      List.range' 0 (offset (cut es) n) := by
  induction n with
  | zero => rfl
  | succ n ih =>
    have hbody := List.getElem?_eq_getElem hn
    rw [List.take_add_one, blocks_of_cut hbody, List.flatMap_append, ih (by omega),
      offset_succ hbody, ← List.range'_append_1, Nat.zero_add]
    simp [blockAt]

theorem exists_body {b : Block} (h : (ofEntries es).blocks[k]? = some b) :
    ∃ body, (cut es)[k]? = some body ∧ IsBody body ∧ b = blockAt (cut es) k body := by
  rw [getElem?_blocks] at h
  obtain ⟨body, hbody, rfl⟩ := Option.map_eq_some_iff.1 h
  exact ⟨body, hbody, isBody_of_getElem? hbody, rfl⟩

theorem exists_body_of_mem {b : Block} (h : b ∈ (ofEntries es).blocks) :
    ∃ k body, (cut es)[k]? = some body ∧ IsBody body ∧ b = blockAt (cut es) k body := by
  obtain ⟨k, hk⟩ := List.mem_iff_getElem?.1 h
  exact ⟨k, exists_body hk⟩

/-- The entries of a block are those of its body. -/
theorem getElem?_body (hbody : (cut es)[k]? = some body) (hi : offset (cut es) k ≤ i)
    (hlt : i < offset (cut es) k + body.length) : es[i]? = body[i - offset (cut es) k]? := by
  have hentry := getElem?_flatten hbody (j := i - offset (cut es) k) (by omega)
  rwa [flatten_cut, Nat.add_sub_cancel' hi] at hentry

theorem getElem?_last (hbody : (cut es)[k]? = some body) (h : IsBody body) :
    es[offset (cut es) k + body.length - 1]? = body.getLast? := by
  have hpos := List.length_pos_iff.2 h.nonempty
  rw [getElem?_body hbody (by omega) (by omega), List.getLast?_eq_getElem?]
  congr 1
  omega

theorem mem_exits :
    k ∈ (ofEntries es).exits ↔
      ∃ body, (cut es)[k]? = some body ∧ (lastOp? body).any (·.isReturn) = true := by
  rw [ofEntries_eq, linkedUpTo, exitsUpTo, List.mem_filter, List.mem_range]
  constructor
  · rintro ⟨hk, hret⟩
    rw [List.getElem?_eq_getElem hk, Option.bind_some] at hret
    exact ⟨_, List.getElem?_eq_getElem hk, hret⟩
  · rintro ⟨body, hbody, hret⟩
    rw [hbody, Option.bind_some]
    exact ⟨(List.getElem?_eq_some_iff.1 hbody).1, hret⟩

/-- **The blocks of a stream are a partition of it.** -/
theorem partition_ofEntries (es : List Entry) : Partition es (ofEntries es) where
  ids := by
    refine List.ext_getElem? fun k => ?_
    rw [List.getElem?_map, getElem?_blocks, length_blocks, Option.map_map]
    by_cases hk : k < (cut es).length
    · rw [List.getElem?_eq_getElem hk, List.getElem?_range hk]
      rfl
    · rw [List.getElem?_eq_none (by omega), List.getElem?_eq_none (by simpa using hk)]
      rfl
  nonempty b hb := by
    obtain ⟨k, body, hbody, hisBody, rfl⟩ := exists_body_of_mem hb
    exact Nat.lt_add_of_pos_right (List.length_pos_iff.2 hisBody.nonempty)
  covers := by
    have hall := flatMap_take_blocks es (Nat.le_refl _)
    rwa [List.take_of_length_le (length_blocks es).le, offset, List.take_length, flatten_cut,
      ← List.range_eq_range'] at hall
  labels b hb i l hi hlt hentry := by
    obtain ⟨k, body, hbody, hisBody, rfl⟩ := exists_body_of_mem hb
    rw [getElem?_body hbody hi hlt] at hentry
    exact Nat.le_antisymm (Nat.sub_eq_zero_iff_le.1 (hisBody.eq_zero_of_label hentry)) hi
  ends b hb i e hi hlt hentry hends := by
    obtain ⟨k, body, hbody, hisBody, rfl⟩ := exists_body_of_mem hb
    rw [getElem?_body hbody hi hlt] at hentry
    have hlast := hisBody.succ_eq_length hentry hends
    change i + 1 = offset (cut es) k + body.length
    change offset (cut es) k ≤ i at hi
    omega
  nodup b hb := by
    obtain ⟨k, body, hbody, hisBody, rfl⟩ := exists_body_of_mem hb
    exact ⟨nodup_eraseDups _, List.nodup_range.filter _⟩
  converse j k := by
    constructor
    · rintro ⟨b, hb, hk⟩
      obtain ⟨body, hbody, hisBody, rfl⟩ := exists_body hb
      have hlt := lt_of_mem_successors hisBody hk
      exact ⟨_, blocks_of_cut (List.getElem?_eq_getElem hlt),
        mem_predecessorsUpTo.2 ⟨body, hbody, hk⟩⟩
    · rintro ⟨b, hb, hj⟩
      obtain ⟨body, hbody, hisBody, rfl⟩ := exists_body hb
      obtain ⟨body', hbody', hk⟩ := mem_predecessorsUpTo.1 hj
      exact ⟨_, blocks_of_cut hbody', hk⟩
  exits k := by
    rw [mem_exits]
    constructor
    · rintro ⟨body, hbody, hret⟩
      have hisBody := isBody_of_getElem? hbody
      obtain ⟨e, he⟩ := hisBody.exists_last
      refine ⟨_, e, blocks_of_cut hbody, (getElem?_last hbody hisBody).trans he, ?_⟩
      rwa [any_lastOp? hisBody he fun _ => MacroOp.endsBlock_of_isReturn] at hret
    · rintro ⟨b, e, hb, he, hret⟩
      obtain ⟨body, hbody, hisBody, rfl⟩ := exists_body hb
      refine ⟨body, hbody, ?_⟩
      rwa [any_lastOp? hisBody ((getElem?_last hbody hisBody).symm.trans he)
        fun _ => MacroOp.endsBlock_of_isReturn]

end Cartridge.FlowGraph
