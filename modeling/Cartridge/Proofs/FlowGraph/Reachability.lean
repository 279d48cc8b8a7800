import Cartridge.Proofs.FlowGraph.Linking
import Cartridge.Proofs.Halting
import Cartridge.Proofs.Peephole.Rewriting
import Mathlib.Algebra.BigOperators.Group.List.Basic
import Mathlib.Algebra.Ring.Nat
import Mathlib.Data.List.Permutation
import Mathlib.Order.Monotone.Basic

/-!
# Reachable blocks

`unreachable` searches the graph from its first block. The search is a loop over what remains and
what is pending (`Search.Step`) that follows every link at most once (`halts_unreachable`), and what
remains at the end are the blocks without a path (`mem_unreached`).

`Follows` says where control may go from a single entry, without a look at blocks. Inside of a block
control only goes on, and it leaves a block at its end along a link; so paths of entries are paths
of blocks, as long as no label is defined twice: **`exact_ofEntries`**.
-/

namespace Cartridge.FlowGraph

open Relation (ReflTransGen)
open Peephole (definedLabels)

/-! ### The search -/

/-- The state of a search. -/
structure Search where
  remaining : List Nat
  pending : List Nat

namespace Search

variable {next : Nat → List Nat} {remaining pending : List Nat} {i k : Nat}

/-- One step of a search: the first pending block is visited, or it was visited before. -/
inductive Step (next : Nat → List Nat) : Search → Search → Prop where
  | visit {i : Nat} {remaining pending : List Nat} (h : i ∈ remaining) :
      Step next ⟨remaining, i :: pending⟩ ⟨remaining.erase i, (next i).reverse ++ pending⟩
  | skip {i : Nat} {remaining pending : List Nat} (h : i ∉ remaining) :
      Step next ⟨remaining, i :: pending⟩ ⟨remaining, pending⟩

/-- A search stops when nothing is pending, and returns what remains. -/
inductive Stops : List Nat → Search → Prop where
  | finished {remaining : List Nat} : Stops remaining ⟨remaining, []⟩

/-- The number of links that a search has still to follow. -/
def effort (next : Nat → List Nat) (s : Search) : Nat :=
  s.pending.length + (s.remaining.map fun i => (next i).length).sum

theorem effort_of_step {s s' : Search} (h : Step next s s') :
    effort next s' < effort next s := by
  cases h with
  | @visit i remaining pending h =>
    have hsum := List.sum_map_erase (fun i => (next i).length) h
    simp only [effort, List.length_append, List.length_reverse, List.length_cons]
    omega
  | skip h => simp [effort]

theorem exists_stops (next : Nat → List Nat) (remaining pending : List Nat) :
    ∃ s, ReflTransGen (Step next) ⟨remaining, pending⟩ s ∧
      Stops (unreached next remaining pending) s := by
  fun_induction unreached next remaining pending with
  | case1 remaining => exact ⟨_, .refl, .finished⟩
  | case2 remaining i pending h ih =>
    obtain ⟨s, hsteps, hstops⟩ := ih
    exact ⟨s, .head (.visit h) hsteps, hstops⟩
  | case3 remaining i pending h ih =>
    obtain ⟨s, hsteps, hstops⟩ := ih
    exact ⟨s, .head (.skip h) hsteps, hstops⟩

/-- **A search ends**: every link is followed at most once. -/
theorem halts_unreached (next : Nat → List Nat) (remaining pending : List Nat) :
    Halts (Step next) (Stops (unreached next remaining pending)) ⟨remaining, pending⟩
      (effort next ⟨remaining, pending⟩) := by
  obtain ⟨s, hsteps, hstops⟩ := exists_stops next remaining pending
  exact Halts.of_falling (effort next) (fun _ _ => effort_of_step) hsteps hstops

/-- A path from a block that was visited to one that remains goes through a pending one. -/
theorem exists_pending (hclosed : ∀ i ∉ remaining, ∀ j ∈ next i, j ∈ remaining → j ∈ pending)
    (hpath : ReflTransGen (fun i j => j ∈ next i) i k) (hi : i ∉ remaining) (hk : k ∈ remaining) :
    ∃ p ∈ pending, ReflTransGen (fun i j => j ∈ next i) p k := by
  induction hpath using ReflTransGen.head_induction_on with
  | refl => exact absurd hk hi
  | @head i j hstep hrest ih =>
    by_cases hj : j ∈ remaining
    · exact ⟨j, hclosed i hi j hstep hj, hrest⟩
    · exact ih hj

/-- **What a search leaves over**: the remaining blocks without a path from a pending one. -/
theorem mem_unreached (hnodup : remaining.Nodup)
    (hclosed : ∀ i ∉ remaining, ∀ j ∈ next i, j ∈ remaining → j ∈ pending) :
    k ∈ unreached next remaining pending ↔
      k ∈ remaining ∧ ∀ p ∈ pending, ¬ReflTransGen (fun i j => j ∈ next i) p k := by
  fun_induction unreached next remaining pending with
  | case1 remaining => simp
  | case2 remaining i pending hi ih =>
    have hclosed' : ∀ i' ∉ remaining.erase i, ∀ j ∈ next i', j ∈ remaining.erase i →
        j ∈ (next i).reverse ++ pending := by
      intro i' hi' j hj hmem
      obtain ⟨hne, hmem⟩ := hnodup.mem_erase_iff.1 hmem
      by_cases hsame : i' = i
      · exact List.mem_append_left _ (List.mem_reverse.2 (hsame ▸ hj))
      · have hvisited : i' ∉ remaining := fun h => hi' (hnodup.mem_erase_iff.2 ⟨hsame, h⟩)
        exact List.mem_append_right _
          ((List.mem_cons.1 (hclosed i' hvisited j hj hmem)).resolve_left hne)
    rw [ih (hnodup.erase i) hclosed', hnodup.mem_erase_iff, List.forall_mem_append,
      List.forall_mem_cons]
    constructor
    · rintro ⟨⟨hne, hk⟩, hnext, hpending⟩
      refine ⟨hk, fun hpath => ?_, hpending⟩
      rcases hpath.cases_head with rfl | ⟨j, hj, hrest⟩
      · exact hne rfl
      · exact hnext j (List.mem_reverse.2 hj) hrest
    · rintro ⟨hk, hstart, hpending⟩
      refine ⟨⟨fun heq => hstart (heq ▸ .refl), hk⟩, fun j hj hrest => ?_, hpending⟩
      exact hstart (.head (List.mem_reverse.1 hj) hrest)
  | case3 remaining i pending hi ih =>
    have hclosed' : ∀ i' ∉ remaining, ∀ j ∈ next i', j ∈ remaining → j ∈ pending := by
      intro i' hi' j hj hmem
      refine (List.mem_cons.1 (hclosed i' hi' j hj hmem)).resolve_left ?_
      rintro rfl
      exact hi hmem
    rw [ih hnodup hclosed', List.forall_mem_cons]
    refine and_congr_right fun hk => ⟨fun hpending => ⟨fun hpath => ?_, hpending⟩, And.right⟩
    obtain ⟨p, hp, hrest⟩ := exists_pending hclosed' hpath hi hk
    exact hpending p hp hrest

end Search

/-! ### Links of a graph -/

/-- Where a link leads from a block. -/
def linked (g : FlowGraph) (i : Nat) : List Nat := (g.blocks[i]?.map (·.successors)).getD []

theorem mem_linked {g : FlowGraph} {i j : Nat} :
    j ∈ g.linked i ↔ ∃ b : Block, g.blocks[i]? = some b ∧ j ∈ b.successors := by
  unfold linked
  cases g.blocks[i]? with
  | none => simp
  | some b => simp

/-- **The search of a graph ends** after at most one step for each link. -/
theorem halts_unreachable (g : FlowGraph) :
    Halts (Search.Step g.linked) (Search.Stops g.unreachable) ⟨List.range g.blocks.length, [0]⟩
      (1 + (g.blocks.map (·.successors.length)).sum) := by
  have hsum : (List.range g.blocks.length).map (fun i => (g.linked i).length) =
      g.blocks.map (·.successors.length) := by
    refine List.ext_getElem (by simp) fun i hi hi' => ?_
    rw [List.length_map] at hi'
    simp [linked, List.getElem?_eq_getElem hi']
  have hhalts := Search.halts_unreached g.linked (List.range g.blocks.length) [0]
  rwa [Search.effort, hsum] at hhalts

theorem mem_unreachable {g : FlowGraph} {k : Nat} :
    k ∈ g.unreachable ↔
      k < g.blocks.length ∧ ¬ReflTransGen (fun i j => j ∈ g.linked i) 0 k := by
  have hclosed : ∀ i ∉ List.range g.blocks.length, ∀ j ∈ g.linked i,
      j ∈ List.range g.blocks.length → j ∈ [0] := by
    intro i hi j hj
    obtain ⟨b, hb, -⟩ := mem_linked.1 hj
    exact absurd (List.mem_range.2 (List.getElem?_eq_some_iff.1 hb).1) hi
  have hmem := Search.mem_unreached (k := k) List.nodup_range hclosed
  rwa [List.mem_range, List.forall_mem_singleton] at hmem

/-! ### Entries -/

/-- Where control may go from an entry: to the next one, unless the entry is a return or always
jumps, and to the label that it may jump to. -/
inductive Follows (es : List Entry) : Nat → Nat → Prop where
  | next {i : Nat} {e : Entry} (hi : es[i]? = some e) (hgoes : e.goesOn = true)
      (hlt : i + 1 < es.length) : Follows es i (i + 1)
  | jump {i j : Nat} {e : Entry} {l : Label} (hi : es[i]? = some e) (htarget : e.target? = some l)
      (hj : es[j]? = some (.label l)) : Follows es i j

theorem goesOn_of_not_endsBlock {e : Entry} (h : endsBlock e = false) : e.goesOn = true := by
  rw [Entry.goesOn, Bool.not_eq_true', Bool.eq_false_iff]
  intro hstop
  obtain ⟨op, hop, hstop⟩ := (Option.any_eq_true _ _).1 hstop
  rw [endsBlock, hop, Option.any_some, MacroOp.endsBlock_of_isReturn_or_isJump hstop] at h
  cases h

theorem endsBlock_of_target? {e : Entry} {l : Label} (h : e.target? = some l) :
    endsBlock e = true := by
  obtain ⟨op, hop, hl⟩ := Option.bind_eq_some_iff.1 h
  rw [endsBlock, hop, Option.any_some]
  exact MacroOp.endsBlock_of_branchTarget? hl

variable {es body : List Entry} {i j k : Nat}

/-- An entry stands in a block. -/
def InBlock (es : List Entry) (k i : Nat) : Prop :=
  ∃ body, (cut es)[k]? = some body ∧ offset (cut es) k ≤ i ∧ i < offset (cut es) k + body.length

theorem InBlock.exists_entry (h : InBlock es k i) :
    ∃ body e, (cut es)[k]? = some body ∧ IsBody body ∧ offset (cut es) k ≤ i ∧
      body[i - offset (cut es) k]? = some e ∧ es[i]? = some e := by
  obtain ⟨body, hbody, hi, hlt⟩ := h
  obtain ⟨e, he⟩ : ∃ e, body[i - offset (cut es) k]? = some e :=
    ⟨_, List.getElem?_eq_getElem (by omega)⟩
  exact ⟨body, e, hbody, isBody_of_getElem? hbody, hi, he, (getElem?_body hbody hi hlt).trans he⟩

theorem InBlock.lt_length (h : InBlock es k i) : i < es.length := by
  obtain ⟨body, e, -, -, -, -, he⟩ := h.exists_entry
  exact (List.getElem?_eq_some_iff.1 he).1

theorem monotone_offset (bodies : List (List Entry)) : Monotone (offset bodies) := by
  refine monotone_nat_of_le_succ fun k => ?_
  rw [offset, offset, List.take_add_one, List.flatten_append, List.length_append]
  exact Nat.le_add_right ..

/-- An entry stands in one block only. -/
theorem InBlock.unique (h : InBlock es k i) (h' : InBlock es j i) : j = k := by
  -- The later of two blocks begins after the earlier one.
  have hle : ∀ {k j}, InBlock es k i → InBlock es j i → j ≤ k := by
    rintro k j ⟨body, hbody, -, hlt⟩ ⟨body', -, hj, -⟩
    rw [← offset_succ hbody] at hlt
    exact Nat.lt_succ_iff.1
      ((monotone_offset (cut es)).reflect_lt (Nat.lt_of_le_of_lt hj hlt))
  exact Nat.le_antisymm (hle h h') (hle h' h)

theorem exists_inBlock (hi : i < es.length) : ∃ k, InBlock es k i := by
  have hmem := List.mem_range.2 hi
  rw [← (partition_ofEntries es).covers] at hmem
  obtain ⟨b, hb, hib⟩ := List.mem_flatMap.1 hmem
  obtain ⟨k, body, hbody, -, rfl⟩ := exists_body_of_mem hb
  obtain ⟨hstart, hstop⟩ := List.mem_range'_1.1 hib
  rw [blockAt, Nat.add_sub_cancel_left] at hstop
  exact ⟨k, body, hbody, hstart, hstop⟩

theorem inBlock_offset (hk : k < (cut es).length) : InBlock es k (offset (cut es) k) := by
  have hbody := List.getElem?_eq_getElem hk
  exact ⟨_, hbody, Nat.le_refl _,
    Nat.lt_add_of_pos_right (List.length_pos_iff.2 (isBody_of_getElem? hbody).nonempty)⟩

theorem mem_linked_ofEntries :
    j ∈ (ofEntries es).linked k ↔
      ∃ body, (cut es)[k]? = some body ∧ j ∈ successors (cut es) k body := by
  rw [mem_linked]
  constructor
  · rintro ⟨b, hb, hj⟩
    obtain ⟨body, hbody, -, rfl⟩ := exists_body hb
    exact ⟨body, hbody, hj⟩
  · rintro ⟨body, hbody, hj⟩
    exact ⟨_, blocks_of_cut hbody, hj⟩

/-! ### Paths of blocks are paths of entries -/

/-- Inside of a block control goes on. -/
theorem reflTransGen_of_inBlock (h : InBlock es k i) :
    ReflTransGen (Follows es) (offset (cut es) k) i := by
  obtain ⟨body, hbody, hi, hlt⟩ := h
  induction i, hi using Nat.le_induction with
  | base => exact .refl
  | succ i hi ih =>
    have hin : InBlock es k i := ⟨body, hbody, hi, by omega⟩
    obtain ⟨body', e, hbody', hisBody, -, he, hentry⟩ := hin.exists_entry
    cases hbody.symm.trans hbody'
    have hgoes : endsBlock e = false := by
      refine Bool.eq_false_iff.2 fun hends => ?_
      have hlast := hisBody.succ_eq_length he hends
      omega
    have hlength : i + 1 < es.length := InBlock.lt_length ⟨body, hbody, by omega, hlt⟩
    exact (ih (by omega)).tail (.next hentry (goesOn_of_not_endsBlock hgoes) hlength)

theorem getElem?_of_labelOf? {l : Label} (hbody : (cut es)[k]? = some body)
    (hl : labelOf? body = some l) : es[offset (cut es) k]? = some (.label l) := by
  have hin := inBlock_offset (List.getElem?_eq_some_iff.1 hbody).1
  obtain ⟨body', e, hbody', -, -, he, hentry⟩ := hin.exists_entry
  cases hbody.symm.trans hbody'
  rw [Nat.sub_self, ← List.head?_eq_getElem?] at he
  rw [labelOf?, he, Option.bind_some] at hl
  cases e with
  | label l' =>
    cases hl
    exact hentry
  | _ => cases hl

/-- A link leads from the end of a block to the start of another. -/
theorem follows_of_mem_successors (hbody : (cut es)[j]? = some body) (hisBody : IsBody body)
    (hk : k ∈ successors (cut es) j body) :
    Follows es (offset (cut es) j + body.length - 1) (offset (cut es) k) := by
  obtain ⟨e, he⟩ := hisBody.exists_last
  have hlast := (getElem?_last hbody hisBody).trans he
  rcases (mem_successors_iff hisBody he).1 hk with ⟨l, htarget, hl⟩ | ⟨hgoes, rfl, hlt⟩
  · obtain ⟨body', hbody', hlabel⟩ := target?_eq_some hl
    exact .jump hlast htarget (getElem?_of_labelOf? hbody' hlabel)
  · have hpos := List.length_pos_iff.2 hisBody.nonempty
    have hoffset : offset (cut es) (j + 1) = offset (cut es) j + body.length - 1 + 1 := by
      rw [offset_succ hbody]
      omega
    have hlength := (inBlock_offset hlt).lt_length
    rw [hoffset] at hlength ⊢
    exact .next hlast hgoes hlength

theorem reflTransGen_offset (h : ReflTransGen (fun i j => j ∈ (ofEntries es).linked i) 0 k) :
    ReflTransGen (Follows es) 0 (offset (cut es) k) := by
  induction h with
  | refl => exact .refl
  | @tail j k _ hlink ih =>
    obtain ⟨body, hbody, hk⟩ := mem_linked_ofEntries.1 hlink
    have hisBody := isBody_of_getElem? hbody
    have hpos := List.length_pos_iff.2 hisBody.nonempty
    have hend : InBlock es j (offset (cut es) j + body.length - 1) :=
      ⟨body, hbody, by omega, by omega⟩
    exact (ih.trans (reflTransGen_of_inBlock hend)).tail (follows_of_mem_successors hbody hisBody hk)

/-! ### Paths of entries are paths of blocks -/

/-- A label that is defined once stands at one position. -/
theorem eq_of_label (h : (definedLabels es).Nodup) {l : Label} (hi : es[i]? = some (.label l))
    (hj : es[j]? = some (.label l)) : i = j := by
  have hpairs := List.pairwise_filterMap.1 h
  rw [List.pairwise_iff_getElem] at hpairs
  obtain ⟨hi, hil⟩ := List.getElem?_eq_some_iff.1 hi
  obtain ⟨hj, hjl⟩ := List.getElem?_eq_some_iff.1 hj
  rcases Nat.lt_trichotomy i j with hlt | heq | hgt
  · exact absurd rfl (hpairs i j hi hj hlt l (by rw [hil]; rfl) l (by rw [hjl]; rfl))
  · exact heq
  · exact absurd rfl (hpairs j i hj hi hgt l (by rw [hjl]; rfl) l (by rw [hil]; rfl))

theorem target?_of_nodup (h : (definedLabels es).Nodup) {l : Label}
    (hbody : (cut es)[k]? = some body) (hl : labelOf? body = some l) :
    target? (cut es) l = some k := by
  have hmem : (body, k) ∈ (cut es).zipIdx.filter fun placed => labelOf? placed.1 = some l :=
    List.mem_filter.2 ⟨List.mk_mem_zipIdx_iff_getElem?.2 hbody, decide_eq_true hl⟩
  have hsome : target? (cut es) l ≠ none := by
    rw [target?, ne_eq, Option.map_eq_none_iff, List.getLast?_eq_none_iff]
    exact List.ne_nil_of_mem hmem
  obtain ⟨j, hj⟩ := Option.ne_none_iff_exists'.1 hsome
  obtain ⟨body', hbody', hl'⟩ := target?_eq_some hj
  have heq := eq_of_label h (getElem?_of_labelOf? hbody hl) (getElem?_of_labelOf? hbody' hl')
  have hk := inBlock_offset (List.getElem?_eq_some_iff.1 hbody).1
  have hj' := inBlock_offset (List.getElem?_eq_some_iff.1 hbody').1
  rw [← heq] at hj'
  rw [hj, hk.unique hj']

theorem getLast?_of_succ_eq {e : Entry} (he : body[j]? = some e) (hj : j + 1 = body.length) :
    body.getLast? = some e := by
  rw [List.getLast?_eq_getElem?, ← hj, Nat.add_sub_cancel]
  exact he

/-- Control stays in a block or leaves it along a link. -/
theorem linked_of_follows (h : (definedLabels es).Nodup) {i' k' : Nat} (hstep : Follows es i i')
    (hi : InBlock es k i) (hi' : InBlock es k' i') :
    k' = k ∨ k' ∈ (ofEntries es).linked k := by
  obtain ⟨body, e, hbody, hisBody, hle, he, hentry⟩ := hi.exists_entry
  obtain ⟨hlt, -⟩ := List.getElem?_eq_some_iff.1 he
  cases hstep with
  | next hentry' hgoes _ =>
    cases hentry.symm.trans hentry'
    by_cases hin : i + 1 < offset (cut es) k + body.length
    · exact .inl (InBlock.unique ⟨body, hbody, by omega, hin⟩ hi')
    · -- The entry is the last of its block, and the next one is the first of the next block.
      have hend : i + 1 = offset (cut es) (k + 1) := by
        rw [offset_succ hbody]
        omega
      have hlast := getLast?_of_succ_eq he (by omega)
      have hk : k + 1 < (cut es).length := by
        obtain ⟨body', hbody', -, hlt'⟩ := hi'
        have hk' := (List.getElem?_eq_some_iff.1 hbody').1
        rw [← offset_succ hbody', hend] at hlt'
        have hlater := (monotone_offset (cut es)).reflect_lt hlt'
        omega
      have heq := (inBlock_offset hk).unique (hend ▸ hi')
      refine .inr (mem_linked_ofEntries.2 ⟨body, hbody, ?_⟩)
      exact (mem_successors_iff hisBody hlast).2 (.inr ⟨hgoes, heq, heq ▸ hk⟩)
  | @jump _ e' l hentry' htarget hj =>
    cases hentry.symm.trans hentry'
    have hlast := getLast?_of_succ_eq he (hisBody.succ_eq_length he (endsBlock_of_target? htarget))
    obtain ⟨body', first, hbody', hisBody', -, hfirst, hj'⟩ := hi'.exists_entry
    cases hj.symm.trans hj'
    have hlabel : labelOf? body' = some l := by
      rw [hisBody'.eq_zero_of_label hfirst, ← List.head?_eq_getElem?] at hfirst
      rw [labelOf?, hfirst]
      rfl
    refine .inr (mem_linked_ofEntries.2 ⟨body, hbody, ?_⟩)
    exact (mem_successors_iff hisBody hlast).2
      (.inl ⟨l, htarget, target?_of_nodup h hbody' hlabel⟩)

theorem linked_of_reflTransGen (h : (definedLabels es).Nodup)
    (hpath : ReflTransGen (Follows es) 0 i) :
    ∀ k, InBlock es k i → ReflTransGen (fun i j => j ∈ (ofEntries es).linked i) 0 k := by
  induction hpath with
  | refl =>
    intro k hi
    have hpos : 0 < (cut es).length := by
      obtain ⟨body, hbody, -, -⟩ := hi
      exact Nat.lt_of_le_of_lt (Nat.zero_le k) (List.getElem?_eq_some_iff.1 hbody).1
    cases InBlock.unique (inBlock_offset hpos) hi
    exact .refl
  | @tail j i _ hstep ih =>
    intro k hi
    have hj : j < es.length := by
      cases hstep with
      | next hj _ _ => exact (List.getElem?_eq_some_iff.1 hj).1
      | jump hj _ _ => exact (List.getElem?_eq_some_iff.1 hj).1
    obtain ⟨k', hk'⟩ := exists_inBlock hj
    rcases linked_of_follows h hstep hk' hi with rfl | hlink
    · exact ih k hk'
    · exact (ih k' hk').tail hlink

/-- **The graph of a stream is exact.** Its blocks are a partition, the search for unreachable
blocks ends, and if no label is defined twice, then control can come to an entry from the first one
iff the block of the entry is not found to be unreachable. -/
theorem exact_ofEntries (es : List Entry) :
    Partition es (ofEntries es) ∧
      Halts (Search.Step (ofEntries es).linked) (Search.Stops (ofEntries es).unreachable)
        ⟨List.range (ofEntries es).blocks.length, [0]⟩
        (1 + ((ofEntries es).blocks.map (·.successors.length)).sum) ∧
      ((definedLabels es).Nodup → ∀ k b i, (ofEntries es).blocks[k]? = some b → b.start ≤ i →
        i < b.stop → (ReflTransGen (Follows es) 0 i ↔ k ∉ (ofEntries es).unreachable)) := by
  refine ⟨partition_ofEntries es, halts_unreachable _, fun h k b i hb hstart hstop => ?_⟩
  have hk := (List.getElem?_eq_some_iff.1 hb).1
  obtain ⟨body, hbody, -, rfl⟩ := exists_body hb
  have hin : InBlock es k i := ⟨body, hbody, hstart, hstop⟩
  rw [mem_unreachable, not_and, not_not]
  constructor
  · exact fun hpath _ => linked_of_reflTransGen h hpath k hin
  · exact fun hreach => (reflTransGen_offset (hreach hk)).trans (reflTransGen_of_inBlock hin)

/-- A loop with a way out, and two blocks that control does not come to: one behind the jump back,
one behind the return. -/
theorem exact_ofEntries_loop :
    let top : Label := .instruction 0
    let out : Label := .instruction 9
    let es : List Entry :=
      [.label top, .synthetic (.branchTrueFromStack out), .synthetic (.branch top),
       .synthetic .duplicate, .label out, .synthetic .returnVoid, .comment "End"]
    (definedLabels es).Nodup ∧ Partition es (ofEntries es) ∧
      Halts (Search.Step (ofEntries es).linked) (Search.Stops (ofEntries es).unreachable)
        ⟨List.range 5, [0]⟩ 5 ∧
      (ofEntries es).unreachable = [2, 4] ∧
      ReflTransGen (Follows es) 0 5 ∧ ¬ReflTransGen (Follows es) 0 3 := by
  intro top out es
  have hnodup : (definedLabels es).Nodup := by decide
  have hunreachable : (ofEntries es).unreachable = [2, 4] := by cbv
  obtain ⟨hpartition, hhalts, hreach⟩ := exact_ofEntries es
  have hblocks : (ofEntries es).blocks.map (fun b => (b.start, b.stop)) =
      [(0, 2), (2, 3), (3, 4), (4, 6), (6, 7)] := by
    rw [ofEntries_eq]
    decide +kernel
  have hreach' : ∀ k start stop i, ((ofEntries es).blocks.map fun b => (b.start, b.stop))[k]? =
      some (start, stop) → start ≤ i → i < stop →
      (ReflTransGen (Follows es) 0 i ↔ k ∉ (ofEntries es).unreachable) := by
    intro k start stop i hk hstart hstop
    rw [List.getElem?_map] at hk
    obtain ⟨b, hb, heq⟩ := Option.map_eq_some_iff.1 hk
    cases heq
    exact hreach hnodup k b i hb hstart hstop
  have hlength : (ofEntries es).blocks.length = 5 := by rw [length_blocks]; decide +kernel
  have hlinks : ((ofEntries es).blocks.map (·.successors.length)).sum = 4 := by
    rw [ofEntries_eq]
    decide +kernel
  rw [hblocks, hunreachable] at hreach'
  rw [hlength, hlinks] at hhalts
  refine ⟨hnodup, hpartition, hhalts, hunreachable, ?_, ?_⟩
  · exact (hreach' 3 4 6 5 rfl (by decide) (by decide)).2 (by decide)
  · exact fun hpath => (hreach' 2 3 4 3 rfl (by decide) (by decide)).1 hpath (by decide)

end Cartridge.FlowGraph
