import Cartridge.Vil.Entry

/-!
# Streams as linked nodes

While rules run, a stream is kept as nodes in an array, each with the index of the next one. A
replacement adds nodes and changes a single link, so that it costs the same wherever it happens. The
nodes of the window stay in the array, but no link from the first node leads to them any more.

`Path` says which nodes are visited by following links. A path that comes to an end visits no node
twice (`Path.nodup`), so that the entries on it can be taken out of the nodes in turn
(`EntryList.Holds.toList_eq`).
-/

namespace Cartridge.Peephole

/-- An entry of a stream. -/
structure Node where
  entry : Entry
  /-- The index of the next node. -/
  next : Option Nat

/-- A stream as linked nodes. -/
structure EntryList where
  nodes : Array Node
  /-- The index of the first node. -/
  head : Option Nat

namespace EntryList

/-- The nodes of a stream, in order. -/
def ofList (es : List Entry) : EntryList where
  nodes := (es.zipIdx.map fun (e, i) =>
    ⟨e, if i + 1 < es.length then some (i + 1) else none⟩).toArray
  head := if 0 < es.length then some 0 else none

/-- Consecutive nodes, if there are as many. -/
def window? (nodes : Array Node) : Nat → Option Nat → Option (List Node)
  | 0, _ => some []
  | _ + 1, none => none
  | n + 1, some i =>
    match nodes[i]? with
    | none => none
    | some node => (window? nodes n node.next).map (node :: ·)

/-- Adds nodes that lead to a given one. Returns the index of the first. -/
def prepend (nodes : Array Node) (after : Option Nat) : List Entry → Array Node × Option Nat
  | [] => (nodes, after)
  | e :: es =>
    let (nodes, first) := prepend nodes after es
    (nodes.push ⟨e, first⟩, some nodes.size)

/-- Replaces the nodes between `prev` and `after`. Returns the index of the first new node, or
`after` if there is none. -/
def splice (l : EntryList) (prev after : Option Nat) (r : List Entry) : EntryList × Option Nat :=
  let (nodes, first) := prepend l.nodes after r
  match prev with
  | none => (⟨nodes, first⟩, first)
  | some i => (⟨nodes.modify i fun node => { node with next := first }, l.head⟩, first)

/-- The nodes that links lead to, with their indices, up to a number of them. -/
def follow (nodes : Array Node) : Nat → Option Nat → List (Nat × Node)
  | n + 1, some i =>
    match nodes[i]? with
    | none => []
    | some node => (i, node) :: follow nodes n node.next
  | _, _ => []

/-- Takes the entries out of nodes, one after the other. -/
def take (nodes : Array Node) : List Nat → List Entry
  | [] => []
  | i :: is =>
    let emptied := nodes.modify i fun node => { node with entry := .blank }
    (nodes[i]?.map (·.entry)).toList ++ take emptied is

/-- The entries of a stream. Links that come to an end visit no more nodes than there are. -/
def toList : EntryList → List Entry
  | ⟨nodes, head⟩ => take nodes ((follow nodes nodes.size head).map (·.1))

end EntryList

/-! ### Following links -/

/-- Following links from one place leads through these nodes, which have these entries, to the
other place. -/
inductive Path (nodes : Array Node) : Option Nat → List Nat → List Entry → Option Nat → Prop where
  | nil (s : Option Nat) : Path nodes s [] [] s
  | cons {i : Nat} {e : Entry} {next t : Option Nat} {is : List Nat} {es : List Entry}
      (h : nodes[i]? = some ⟨e, next⟩) (rest : Path nodes next is es t) :
      Path nodes (some i) (i :: is) (e :: es) t

namespace Path

variable {nodes nodes' : Array Node} {s t mid : Option Nat} {is js : List Nat} {es fs : List Entry}

theorem length_eq (h : Path nodes s is es t) : is.length = es.length := by
  induction h with
  | nil => rfl
  | cons _ _ ih => simp [ih]

theorem append (h : Path nodes s is es mid) (h' : Path nodes mid js fs t) :
    Path nodes s (is ++ js) (es ++ fs) t := by
  induction h with
  | nil => exact h'
  | cons hi _ ih => exact .cons hi (ih h')

/-- A path can be parted anywhere. -/
theorem split (h : Path nodes s is es t) (n : Nat) :
    ∃ mid, Path nodes s (is.take n) (es.take n) mid ∧ Path nodes mid (is.drop n) (es.drop n) t := by
  induction h generalizing n with
  | nil s => exact ⟨s, by simpa using .nil s, by simpa using .nil s⟩
  | @cons i e next t is es hi rest ih =>
    cases n with
    | zero => exact ⟨some i, .nil _, .cons hi rest⟩
    | succ n =>
      obtain ⟨mid, hto, hfrom⟩ := ih n
      exact ⟨mid, .cons hi hto, hfrom⟩

/-- Only the nodes on a path matter. -/
theorem congr (h : Path nodes s is es t) (hnodes : ∀ i ∈ is, nodes'[i]? = nodes[i]?) :
    Path nodes' s is es t := by
  induction h with
  | nil => exact .nil _
  | cons hi _ ih =>
    obtain ⟨hfirst, hrest⟩ := List.forall_mem_cons.1 hnodes
    exact .cons (hfirst.trans hi) (ih hrest)

theorem lt_size (h : Path nodes s is es t) : ∀ i ∈ is, i < nodes.size := by
  induction h with
  | nil => exact fun i hi => nomatch hi
  | cons hi _ ih => exact List.forall_mem_cons.2 ⟨(Array.getElem?_eq_some_iff.1 hi).1, ih⟩

/-- Links lead to an end in one way only. -/
theorem unique (h : Path nodes s is es none) (h' : Path nodes s js fs none) :
    is = js ∧ es = fs := by
  generalize hend : none = t at h
  induction h generalizing js fs with
  | nil =>
    subst hend
    cases h'
    exact ⟨rfl, rfl⟩
  | cons hi _ ih =>
    cases h' with
    | cons hj rest =>
      cases hi.symm.trans hj
      obtain ⟨rfl, rfl⟩ := ih rest hend
      exact ⟨rfl, rfl⟩

/-- A path with an end begins with the node that it starts from. -/
theorem start_eq (h : Path nodes s is es none) : s = is.head? := by
  cases h <;> rfl

/-- **A path with an end visits no node twice**: from there on it would go on in the same way, and
never end. -/
theorem nodup (h : Path nodes s is es none) : is.Nodup := by
  generalize hend : none = t at h
  induction h with
  | nil => exact List.nodup_nil
  | @cons i e next t is es hi rest ih =>
    subst hend
    refine List.nodup_cons.2 ⟨fun hmem => ?_, ih rfl⟩
    obtain ⟨before, after, rfl⟩ := List.append_of_mem hmem
    obtain ⟨mid, -, hagain⟩ := rest.split before.length
    rw [List.drop_left] at hagain
    obtain rfl : mid = some i := hagain.start_eq
    have hsame := congrArg List.length (hagain.unique (.cons hi rest)).1
    simp only [List.length_cons, List.length_append] at hsame
    omega

theorem length_le (h : Path nodes s is es none) : is.length ≤ nodes.size := by
  have hsub : is ⊆ List.range nodes.size := fun i hi => List.mem_range.2 (h.lt_size i hi)
  simpa using h.nodup.length_le_of_subset hsub

/-- The link of the last node decides where a path leads to. -/
theorem modify_next {i : Nat} (h : Path nodes s is es t) (hlast : is.getLast? = some i)
    (hnodup : is.Nodup) (t' : Option Nat) :
    Path (nodes.modify i fun node => { node with next := t' }) s is es t' := by
  induction h with
  | nil => cases hlast
  | @cons j e next t is es hj rest ih =>
    obtain ⟨hne, hnodup⟩ := List.nodup_cons.1 hnodup
    cases rest with
    | nil =>
      obtain rfl : j = i := by simpa using hlast
      refine .cons ?_ (.nil t')
      rw [Array.getElem?_modify, if_pos rfl, hj]
      rfl
    | cons hk rest' =>
      rw [List.getLast?_cons_cons] at hlast
      refine .cons ?_ (ih hlast hnodup)
      rw [Array.getElem?_modify, if_neg ?_, hj]
      rintro rfl
      exact hne (List.mem_of_getLast? hlast)

/-- As many nodes as there are on a path are enough to come to its end. -/
theorem follow_eq (h : Path nodes s is es none) {n : Nat} (hn : is.length ≤ n) :
    (EntryList.follow nodes n s).map (·.1) = is ∧
      (EntryList.follow nodes n s).map (·.2.entry) = es := by
  generalize hend : none = t at h
  induction h generalizing n with
  | nil =>
    subst hend
    cases n <;> exact ⟨rfl, rfl⟩
  | cons hi _ ih =>
    cases n with
    | zero => cases hn
    | succ n =>
      obtain ⟨his, hes⟩ := ih (Nat.le_of_succ_le_succ hn) hend
      simp only [EntryList.follow, hi, List.map_cons, his, hes, and_self]

/-- Every entry is taken out before its node is emptied. -/
theorem take_eq (h : Path nodes s is es t) (hnodup : is.Nodup) : EntryList.take nodes is = es := by
  induction is generalizing nodes s es with
  | nil =>
    cases h
    rfl
  | cons i is ih =>
    obtain ⟨hne, hnodup⟩ := List.nodup_cons.1 hnodup
    cases h with
    | @cons _ e next _ _ es hi rest =>
      have hrest :
          Path (nodes.modify i fun node => { node with entry := .blank }) next is es t := by
        refine rest.congr fun j hj => ?_
        rw [Array.getElem?_modify, if_neg ?_]
        rintro rfl
        exact hne hj
      rw [EntryList.take, hi, ih hrest hnodup]
      rfl

theorem window?_eq_none (h : Path nodes s is es none) {n : Nat} (hn : is.length < n) :
    EntryList.window? nodes n s = none := by
  generalize hend : none = t at h
  induction h generalizing n with
  | nil =>
    subst hend
    cases n with
    | zero => cases hn
    | succ n => rfl
  | cons hi _ ih =>
    cases n with
    | zero => cases hn
    | succ n =>
      simp only [EntryList.window?, hi, ih (Nat.lt_of_succ_lt_succ hn) hend, Option.map_none]

/-- The nodes of a path are a window, whose last node leads to the end of the path. -/
theorem exists_window? (h : Path nodes s is es t) :
    ∃ w, EntryList.window? nodes is.length s = some w ∧ w.map (·.entry) = es ∧
      ∀ last ∈ w.getLast?, last.next = t := by
  induction h with
  | nil => exact ⟨[], rfl, rfl, fun _ hlast => nomatch hlast⟩
  | @cons i e next t is es hi rest ih =>
    obtain ⟨w, hw, hentries, hlast⟩ := ih
    refine ⟨⟨e, next⟩ :: w, ?_, ?_, ?_⟩
    · simp only [List.length_cons, EntryList.window?, hi, hw, Option.map_some]
    · rw [List.map_cons, hentries]
    · cases w with
      | cons node w => exact hlast
      | nil =>
        intro last hlast
        obtain rfl : es = [] := hentries.symm
        cases hlast
        cases rest
        rfl

end Path

namespace EntryList

/-- The stream has these entries. -/
def Holds (l : EntryList) (es : List Entry) : Prop := ∃ is, Path l.nodes l.head is es none

theorem holds_ofList (es : List Entry) : (ofList es).Holds es := by
  have hfrom : ∀ n k, k + n = es.length → ∃ is,
      Path (ofList es).nodes (if k < es.length then some k else none) is (es.drop k) none := by
    intro n
    induction n with
    | zero =>
      intro k hk
      rw [if_neg (by omega), List.drop_of_length_le (by omega)]
      exact ⟨[], .nil none⟩
    | succ n ih =>
      intro k hk
      have hlt : k < es.length := by omega
      obtain ⟨is, his⟩ := ih (k + 1) (by omega)
      rw [if_pos hlt, List.drop_eq_getElem_cons hlt]
      refine ⟨k :: is, .cons ?_ his⟩
      simp [ofList, hlt]
  exact hfrom es.length 0 (by omega)

theorem Holds.toList_eq {l : EntryList} {es : List Entry} (h : l.Holds es) : l.toList = es := by
  obtain ⟨is, his⟩ := h
  rw [toList, (his.follow_eq his.length_le).1, his.take_eq his.nodup]

/-- A stream whose links come to an end. -/
abbrev Linked := { l : EntryList // ∃ es, l.Holds es }

theorem Linked.holds (l : Linked) : l.1.Holds l.1.toList := by
  obtain ⟨es, h⟩ := l.2
  rwa [h.toList_eq]

/-- A window begins with the node that it starts from. -/
theorem of_window? {nodes : Array Node} {n : Nat} {s : Option Nat} {w : List Node}
    (h : window? nodes n s = some w) (hn : 0 < n) :
    ∃ i node rest, s = some i ∧ nodes[i]? = some node ∧ w = node :: rest := by
  obtain ⟨n, rfl⟩ := Nat.exists_eq_succ_of_ne_zero (Nat.ne_of_gt hn)
  cases s with
  | none => cases h
  | some i =>
    cases hi : nodes[i]? with
    | none =>
      simp only [window?, hi] at h
      cases h
    | some node =>
      simp only [window?, hi] at h
      obtain ⟨rest, -, rfl⟩ := Option.map_eq_some_iff.1 h
      exact ⟨i, node, rest, rfl, hi, rfl⟩

/-- New nodes lead through the entries to the given node, and the nodes before stay as they are. -/
theorem of_prepend (nodes : Array Node) (after : Option Nat) (es : List Entry) :
    nodes.size ≤ (prepend nodes after es).1.size ∧
      (∀ i < nodes.size, (prepend nodes after es).1[i]? = nodes[i]?) ∧
      ∃ is, Path (prepend nodes after es).1 (prepend nodes after es).2 is es after ∧
        ∀ i ∈ is, nodes.size ≤ i := by
  induction es with
  | nil => exact ⟨Nat.le_refl _, fun i _ => rfl, [], .nil after, fun i hi => nomatch hi⟩
  | cons e es ih =>
    obtain ⟨hsize, hsame, is, his, hnew⟩ := ih
    simp only [prepend]
    generalize prepend nodes after es = added at hsize hsame his
    have hkeep : ∀ i < added.1.size, (added.1.push ⟨e, added.2⟩)[i]? = added.1[i]? := by
      intro i hi
      rw [Array.getElem?_push, if_neg (by omega)]
    refine ⟨?_, ?_, added.1.size :: is, .cons Array.getElem?_push_size (his.congr ?_),
      List.forall_mem_cons.2 ⟨hsize, hnew⟩⟩
    · rw [Array.size_push]
      omega
    · intro i hi
      exact (hkeep i (by omega)).trans (hsame i hi)
    · exact fun i hi => hkeep i (his.lt_size i hi)

end EntryList

end Cartridge.Peephole
