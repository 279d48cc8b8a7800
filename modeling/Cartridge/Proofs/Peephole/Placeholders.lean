import Cartridge.Proofs.Peephole.Optional
import Mathlib.Data.List.Infix

/-!
# Which placeholders are consumed

The mandatory rules consume placeholders in a few arrangements only (`IsPiece`): a text before its
use as inline assembly, a question for ROM data after an address, and an element after an address
and an index, which may be the answer to such a question.

**`placeholders_of_optimize`**: whichever optional rules run, a stream is accepted iff it is a
sequence of such pieces and of entries that are no placeholders, and otherwise the placeholders that
lie in no piece (`stranded`) are reported.

Whether an entry lies in a piece can be told from the left, by what the entries before it are the
start of (`Expectation`), and, if it is a text, from the next entry (`inPiece_iff`). A replacement
leaves the same to be expected as its window, so that it strands nothing and rescues nothing
(`stranded_of_rewrites`). At the end no piece with a placeholder is left (`stranded_of_settled`).
-/

namespace Cartridge.Peephole

/-! ### Pieces -/

/-- What an entry is to the mandatory rules. -/
inductive Role where
  /-- A text. -/
  | text
  /-- The use of a text as inline assembly. -/
  | use
  /-- The address of data in ROM. -/
  | address
  /-- A literal or the contents of a label. -/
  | index
  /-- The question how many elements there are at an address, or how large one is. -/
  | question
  /-- The question for the element at an index. -/
  | getter
  /-- Anything else. -/
  | other
deriving DecidableEq, Repr

/-- The role of an entry. -/
def role : Entry → Role
  | .pending (.loadString ..) => .text
  | .pending (.inlineAssemblyCall _) => .use
  | .pending (.romDataLengthCall _) | .pending (.romDataStrideCall _) => .question
  | .pending (.romDataGetterCall _) => .getter
  | .invoke ⟨.pushAddressOfGlobal (.romData _) _ _, _⟩ => .address
  | .invoke ⟨.pushConstant .., _⟩ | .invoke ⟨.pushGlobal .., _⟩ => .index
  | _ => .other

/-- The arrangements in which entries are accepted. The first three are single entries that are no
placeholders. -/
def shapes : List (List Role) :=
  [[.other], [.address], [.index], [.text, .use], [.address, .question],
   [.address, .index, .getter], [.address, .address, .question, .getter]]

/-- The entries have one of the shapes. -/
def IsPiece (w : List Entry) : Prop := w.map role ∈ shapes

instance (w : List Entry) : Decidable (IsPiece w) := inferInstanceAs (Decidable (_ ∈ shapes))

/-- The stream is a sequence of pieces. -/
def IsPieces (es : List Entry) : Prop :=
  ∃ pieces : List (List Entry), es = pieces.flatten ∧ ∀ w ∈ pieces, IsPiece w

/-- The entry between `before` and `after` lies in a piece. -/
def InPiece (before : List Entry) (e : Entry) (after : List Entry) : Prop :=
  ∃ w ∈ before.tails, ∃ w' ∈ after.inits, IsPiece (w ++ e :: w')

instance (before : List Entry) (e : Entry) (after : List Entry) :
    Decidable (InPiece before e after) :=
  inferInstanceAs (Decidable (∃ w ∈ before.tails, ∃ w' ∈ after.inits, IsPiece (w ++ e :: w')))

/-- The placeholders after `before` that lie in no piece. -/
def strandedFrom (before : List Entry) : List Entry → List Pending
  | [] => []
  | e :: after =>
    (if InPiece before e after then [] else e.pending?.toList) ++ strandedFrom (before ++ [e]) after

/-- The placeholders of a stream that lie in no piece, in order. -/
def stranded (es : List Entry) : List Pending := strandedFrom [] es

/-! ### Reading from the left -/

/-- What the last entries can be the start of. -/
inductive Expectation where
  | nothing
  /-- A text. -/
  | text
  /-- An address. -/
  | address
  /-- Two addresses. -/
  | addresses
  /-- An address and an index. -/
  | element
deriving DecidableEq, Repr

namespace Expectation

/-- What there is to be expected after one more entry. -/
def next : Expectation → Role → Expectation
  | _, .text => .text
  | .address, .address | .addresses, .address => .addresses
  | _, .address => .address
  | .address, .index | .addresses, .index | .addresses, .question => .element
  | _, _ => .nothing

/-- What there is to be expected after a stream. -/
def after (es : List Entry) : Expectation := (es.map role).foldl next .nothing

/-- Whether an entry lies in a piece; `used` says whether a use as inline assembly follows. -/
def accepts : Expectation → Role → (used : Bool) → Bool
  | _, .text, used => used
  | q, .use, _ => q == .text
  | q, .question, _ => q == .address || q == .addresses
  | q, .getter, _ => q == .element
  | _, _, _ => true

end Expectation

/-- Whether the use of a text as inline assembly comes first. -/
def startsWithUse : List Role → Bool
  | .use :: _ => true
  | _ => false

section Reading

variable {W W' : List Role} {r : Role} {q : Expectation} {es before after : List Entry} {e : Entry}

/-- What lies in a piece is accepted, whatever comes before the piece. -/
theorem accepts_of_shape (h : W ++ r :: W' ∈ shapes) (q : Expectation) (rest : List Role) :
    (W.foldl Expectation.next q).accepts r (startsWithUse (W' ++ rest)) = true := by
  rcases W with _ | ⟨r₁, _ | ⟨r₂, _ | ⟨r₃, _ | ⟨r₄, W⟩⟩⟩⟩
  case cons.cons.cons.cons => simp [shapes] at h
  all_goals
    simp only [shapes, List.mem_cons, List.not_mem_nil, or_false] at h
    -- The place in the shape decides, whatever has been expected.
    rcases h with h | h | h | h | h | h | h <;> cases h <;> cases q <;> rfl

theorem next_eq_text_iff : q.next r = .text ↔ r = .text := by
  cases q <;> cases r <;> decide

theorem next_eq_address_iff :
    q.next r = .address ∨ q.next r = .addresses ↔ r = .address := by
  cases q <;> cases r <;> decide

theorem next_eq_addresses_iff :
    q.next r = .addresses ↔ (q = .address ∨ q = .addresses) ∧ r = .address := by
  cases q <;> cases r <;> decide

theorem next_eq_element_iff :
    q.next r = .element ↔ (q = .address ∨ q = .addresses) ∧ r = .index ∨
      q = .addresses ∧ r = .question := by
  cases q <;> cases r <;> decide

theorem after_concat (es : List Entry) (e : Entry) :
    Expectation.after (es ++ [e]) = (Expectation.after es).next (role e) := by
  simp [Expectation.after]

/-- What there is to be expected is due to the last entry and what there was before. -/
theorem exists_last {P : Expectation → Prop} (hP : ¬ P .nothing) (h : P (Expectation.after es)) :
    ∃ before a, es = before ++ [a] ∧ P ((Expectation.after before).next (role a)) := by
  rcases List.eq_nil_or_concat es with rfl | ⟨before, a, rfl⟩
  · exact absurd h hP
  · rw [List.concat_eq_append] at h ⊢
    rw [after_concat] at h
    exact ⟨before, a, rfl, h⟩

theorem exists_of_after_eq_text (h : Expectation.after es = .text) :
    ∃ before a, es = before ++ [a] ∧ role a = .text := by
  obtain ⟨before, a, rfl, hlast⟩ := exists_last (P := (· = .text)) (by decide) h
  exact ⟨before, a, rfl, next_eq_text_iff.1 hlast⟩

theorem exists_of_after_eq_address
    (h : Expectation.after es = .address ∨ Expectation.after es = .addresses) :
    ∃ before a, es = before ++ [a] ∧ role a = .address := by
  obtain ⟨before, a, rfl, hlast⟩ :=
    exists_last (P := fun q => q = .address ∨ q = .addresses) (by decide) h
  exact ⟨before, a, rfl, next_eq_address_iff.1 hlast⟩

theorem exists_of_after_eq_addresses (h : Expectation.after es = .addresses) :
    ∃ before a b, es = before ++ [a, b] ∧ role a = .address ∧ role b = .address := by
  obtain ⟨before, b, rfl, hlast⟩ := exists_last (P := (· = .addresses)) (by decide) h
  obtain ⟨hq, hb⟩ := next_eq_addresses_iff.1 hlast
  obtain ⟨before, a, rfl, ha⟩ := exists_of_after_eq_address hq
  exact ⟨before, a, b, by simp, ha, hb⟩

theorem exists_of_after_eq_element (h : Expectation.after es = .element) :
    ∃ before w, es = before ++ w ∧
      (w.map role = [.address, .index] ∨ w.map role = [.address, .address, .question]) := by
  obtain ⟨before, b, rfl, hlast⟩ := exists_last (P := (· = .element)) (by decide) h
  rcases next_eq_element_iff.1 hlast with ⟨hq, hb⟩ | ⟨hq, hb⟩
  · obtain ⟨before, a, rfl, ha⟩ := exists_of_after_eq_address hq
    exact ⟨before, [a, b], by simp, .inl (by simp [ha, hb])⟩
  · obtain ⟨before, a, a', rfl, ha, ha'⟩ := exists_of_after_eq_addresses hq
    exact ⟨before, [a, a', b], by simp, .inr (by simp [ha, ha', hb])⟩

theorem inPiece_of_isPiece (before w w' rest : List Entry) (h : IsPiece (w ++ e :: w')) :
    InPiece (before ++ w) e (w' ++ rest) :=
  ⟨w, (List.mem_tails _ _).2 (List.suffix_append before w), w',
    (List.mem_inits _ _).2 (List.prefix_append w' rest), h⟩

/-- **Whether an entry lies in a piece can be told from the left.** -/
theorem inPiece_iff : InPiece before e after ↔
    (Expectation.after before).accepts (role e) (startsWithUse (after.map role)) = true := by
  constructor
  · rintro ⟨w, hw, w', hw', h⟩
    rw [List.mem_tails] at hw
    rw [List.mem_inits] at hw'
    obtain ⟨before, rfl⟩ := hw
    obtain ⟨rest, rfl⟩ := hw'
    rw [IsPiece, List.map_append, List.map_cons] at h
    simpa [Expectation.after] using
      accepts_of_shape h (Expectation.after before) (rest.map role)
  · -- The rest of the piece follows a text, and comes before any other placeholder.
    intro h
    cases hr : role e with
    | text =>
      rw [hr] at h
      cases after with
      | nil => cases h
      | cons x rest =>
        have hx : role x = .use := by
          cases hx : role x <;> simp [hx, Expectation.accepts, startsWithUse] at h
          rfl
        have hpiece : IsPiece ([] ++ e :: [x]) := by simp [IsPiece, hr, hx, shapes]
        simpa using inPiece_of_isPiece before [] [x] rest hpiece
    | use =>
      rw [hr] at h
      obtain ⟨before, a, rfl, ha⟩ :=
        exists_of_after_eq_text (by simpa [Expectation.accepts] using h)
      exact inPiece_of_isPiece before [a] [] after (by simp [IsPiece, hr, ha, shapes])
    | question =>
      rw [hr] at h
      obtain ⟨before, a, rfl, ha⟩ :=
        exists_of_after_eq_address (by simpa [Expectation.accepts] using h)
      exact inPiece_of_isPiece before [a] [] after (by simp [IsPiece, hr, ha, shapes])
    | getter =>
      rw [hr] at h
      obtain ⟨before, w, rfl, hw⟩ :=
        exists_of_after_eq_element (by simpa [Expectation.accepts] using h)
      refine inPiece_of_isPiece before w [] after ?_
      rw [IsPiece, List.map_append, List.map_cons, List.map_nil, hr]
      rcases hw with hw | hw <;> simp [hw, shapes]
    | address | index | other =>
      have hpiece : IsPiece ([] ++ e :: []) := by simp [IsPiece, hr, shapes]
      simpa using inPiece_of_isPiece before [] [] after hpiece

end Reading

/-! ### Stranded placeholders -/

section Stranded

variable {u : Universe} {rules : List Rule} {es es' before : List Entry} {q : Expectation}

/-- The placeholders that are not accepted, after entries of which `q` is known. -/
def scan (q : Expectation) : List Entry → List Pending
  | [] => []
  | e :: after =>
    (bif q.accepts (role e) (startsWithUse (after.map role)) then [] else e.pending?.toList) ++
      scan (q.next (role e)) after

theorem strandedFrom_eq_scan (before es : List Entry) :
    strandedFrom before es = scan (Expectation.after before) es := by
  induction es generalizing before with
  | nil => rfl
  | cons e after ih =>
    rw [strandedFrom, scan, ih, after_concat]
    simp only [inPiece_iff, Bool.cond_eq_ite]

theorem stranded_eq_scan (es : List Entry) : stranded es = scan .nothing es :=
  strandedFrom_eq_scan [] es

/-- A window and its replacement leave the same to be expected, and both are accepted. -/
theorem scan_of_replaces {rule : Rule} {w r : List Entry} (h : rule.Replaces u w r)
    (q : Expectation) (after : List Entry) : scan q (w ++ after) = scan q (r ++ after) := by
  cases h <;> cases q <;> rfl

theorem startsWithUse_of_replaces {rule : Rule} {w r : List Entry} (h : rule.Replaces u w r)
    (after : List Entry) :
    startsWithUse ((w ++ after).map role) = startsWithUse ((r ++ after).map role) := by
  cases h <;> rfl

theorem startsWithUse_append_congr
    (h : startsWithUse (es.map role) = startsWithUse (es'.map role)) (before : List Entry) :
    startsWithUse ((before ++ es).map role) = startsWithUse ((before ++ es').map role) := by
  cases before with
  | nil => exact h
  | cons x before => cases hx : role x <;> simp [startsWithUse, hx]

/-- What comes before sees no more of a stream than whether the use of a text comes first. -/
theorem scan_append_congr (hscan : ∀ q, scan q es = scan q es')
    (huse : startsWithUse (es.map role) = startsWithUse (es'.map role)) (before : List Entry)
    (q : Expectation) : scan q (before ++ es) = scan q (before ++ es') := by
  induction before generalizing q with
  | nil => exact hscan q
  | cons e before ih =>
    simp only [List.cons_append, scan, startsWithUse_append_congr huse before, ih]

/-- **A replacement strands nothing and rescues nothing.** -/
theorem stranded_of_rewrites (h : Rewrites u rules es es') : stranded es' = stranded es := by
  obtain @⟨before, after, rule, w, r, hr, hw⟩ := h
  rw [stranded_eq_scan, stranded_eq_scan, List.append_assoc, List.append_assoc]
  exact (scan_append_congr (fun q => scan_of_replaces hw q after)
    (startsWithUse_of_replaces hw after) before .nothing).symm

theorem stranded_of_reflTransGen (h : Relation.ReflTransGen (Rewrites u rules) es es') :
    stranded es' = stranded es := by
  induction h with
  | refl => rfl
  | tail _ hstep ih => exact (stranded_of_rewrites hstep).trans ih

/-- The entries of each role. -/
theorem of_role {e : Entry} {r : Role} (h : role e = r) :
    match r with
    | .text => ∃ i text, e = .pending (.loadString i text)
    | .use => ∃ i, e = .pending (.inlineAssemblyCall i)
    | .address => ∃ field type size s,
      e = .invoke ⟨.pushAddressOfGlobal (.romData field) type size, s⟩
    | .index => (∃ value type size s, e = .invoke ⟨.pushConstant value type size, s⟩) ∨
      ∃ l type size s, e = .invoke ⟨.pushGlobal l type size, s⟩
    | .question => ∃ i, e = .pending (.romDataLengthCall i) ∨ e = .pending (.romDataStrideCall i)
    | .getter => ∃ i, e = .pending (.romDataGetterCall i)
    | .other => e.pending? = none := by
  subst h
  cases e with
  | pending p => cases p <;> simp [role]
  | invoke call =>
    obtain ⟨op, s⟩ := call
    cases op with
    | pushAddressOfGlobal l type size => cases l <;> simp [role, Entry.pending?]
    | _ => simp [role, Entry.pending?]
  | _ => rfl

/-- A question after an address is answered or rejected. -/
theorem exists_rule_of_question {a b : Entry} (ha : role a = .address) (hb : role b = .question) :
    ∃ rule ∈ Rule.mandatory, rule.replacement? u [a, b] ≠ .ok none := by
  obtain ⟨field, type, size, s, rfl⟩ := of_role ha
  obtain ⟨i, rfl | rfl⟩ := of_role hb
  · refine ⟨.romDataLength, by decide, fun h => ?_⟩
    obtain ⟨shape, -, h⟩ := bind_eq_ok.1 h
    obtain ⟨length, -, h⟩ := bind_eq_ok.1 h
    cases h
  · refine ⟨.romDataStride, by decide, fun h => ?_⟩
    obtain ⟨shape, -, h⟩ := bind_eq_ok.1 h
    obtain ⟨stride, -, h⟩ := bind_eq_ok.1 h
    cases h

theorem exists_rule_of_getter {a x b : Entry} (ha : role a = .address) (hx : role x = .index)
    (hb : role b = .getter) :
    ∃ rule ∈ Rule.mandatory, rule.replacement? u [a, x, b] ≠ .ok none := by
  obtain ⟨field, type, size, s, rfl⟩ := of_role ha
  obtain ⟨i, rfl⟩ := of_role hb
  rcases of_role hx with ⟨value, t₂, z₂, s₂, rfl⟩ | ⟨l, t₂, z₂, s₂, rfl⟩
  · exact ⟨.romElementAtConstant, by decide, fun h => nomatch h⟩
  · exact ⟨.romElementFromStack, by decide, fun h => nomatch h⟩

/-- A piece with a placeholder has a window that a mandatory rule replaces or rejects. -/
theorem exists_window_of_isPiece {v : List Entry} (h : IsPiece v) (hv : leftovers v ≠ []) :
    ∃ x y z, v = x ++ y ++ z ∧ ∃ rule ∈ Rule.mandatory, rule.replacement? u y ≠ .ok none := by
  simp only [IsPiece, shapes, List.mem_cons, List.not_mem_nil, or_false, List.map_eq_cons_iff,
    List.map_eq_nil_iff] at h
  rcases h with ⟨a, _, rfl, ha, rfl⟩ | ⟨a, _, rfl, ha, rfl⟩ | ⟨a, _, rfl, ha, rfl⟩ |
    ⟨a, _, rfl, ha, b, _, rfl, hb, rfl⟩ | ⟨a, _, rfl, ha, b, _, rfl, hb, rfl⟩ |
    ⟨a, _, rfl, ha, x, _, rfl, hx, b, _, rfl, hb, rfl⟩ |
    ⟨a, _, rfl, ha, a', _, rfl, ha', b, _, rfl, hb, c, _, rfl, hc, rfl⟩
  · exact absurd (leftovers_eq_nil_iff.2 (List.forall_mem_singleton.2 (of_role ha))) hv
  · obtain ⟨field, type, size, s, rfl⟩ := of_role ha
    exact absurd rfl hv
  · rcases of_role ha with ⟨value, type, size, s, rfl⟩ | ⟨l, type, size, s, rfl⟩
    · exact absurd rfl hv
    · exact absurd rfl hv
  · obtain ⟨i, text, rfl⟩ := of_role ha
    obtain ⟨j, rfl⟩ := of_role hb
    exact ⟨[], [_, _], [], rfl, .inlineAssembly, by decide, fun h => nomatch h⟩
  · exact ⟨[], [a, b], [], rfl, exists_rule_of_question ha hb⟩
  · exact ⟨[], [a, x, b], [], rfl, exists_rule_of_getter ha hx hb⟩
  · exact ⟨[a], [a', b], [c], rfl, exists_rule_of_question ha' hb⟩

theorem strandedFrom_eq_leftovers (before : List Entry)
    (h : ∀ front e rest, es = front ++ e :: rest → InPiece (before ++ front) e rest →
      e.pending? = none) : strandedFrom before es = leftovers es := by
  induction es generalizing before with
  | nil => rfl
  | cons e es ih =>
    have hrest : strandedFrom (before ++ [e]) es = leftovers es := by
      refine ih (before ++ [e]) fun front x rest hes hin => ?_
      refine h (e :: front) x rest (by rw [hes]; rfl) ?_
      rwa [List.append_assoc] at hin
    have hhead : (if InPiece before e es then [] else e.pending?.toList) = e.pending?.toList := by
      split
      · rename_i hin
        rw [h [] e es rfl (by rwa [List.append_nil])]
        rfl
      · rfl
    rw [strandedFrom, hhead, hrest, ← List.singleton_append (l := es), leftovers_append]
    cases hp : e.pending? <;> simp [leftovers, hp]

/-- Where the mandatory rules are done, every placeholder is stranded. -/
theorem stranded_of_settled (hr : Rule.mandatory ⊆ rules) (h : Settled u rules es) :
    stranded es = leftovers es := by
  refine strandedFrom_eq_leftovers [] fun front e rest hes hin => ?_
  obtain ⟨w, hw, w', hw', hpiece⟩ := hin
  rw [List.nil_append, List.mem_tails] at hw
  rw [List.mem_inits] at hw'
  obtain ⟨before, rfl⟩ := hw
  obtain ⟨after, rfl⟩ := hw'
  by_contra hp
  have hleft : leftovers (w ++ e :: w') ≠ [] := fun hnil =>
    hp (leftovers_eq_nil_iff.1 hnil e (by simp))
  obtain ⟨x, y, z, hv, rule, hrule, hne⟩ := exists_window_of_isPiece (u := u) hpiece hleft
  refine hne (h (before ++ x) y (z ++ after) ?_ rule (hr hrule))
  calc es = before ++ (w ++ e :: w') ++ after := by rw [hes]; simp
    _ = before ++ x ++ y ++ (z ++ after) := by rw [hv]; simp

end Stranded

/-! ### Sequences of pieces -/

section Pieces

variable {es before after : List Entry}

/-- No placeholder of a piece is stranded. -/
theorem strandedFrom_append_isPiece (before w w' rest : List Entry) (h : IsPiece (w ++ w')) :
    strandedFrom (before ++ w) (w' ++ rest) = strandedFrom (before ++ w ++ w') rest := by
  induction w' generalizing w with
  | nil => simp
  | cons e w' ih =>
    have hrest := ih (w ++ [e]) (by rwa [List.append_assoc])
    rw [List.cons_append, strandedFrom, if_pos (inPiece_of_isPiece before w w' rest h)]
    simpa using hrest

theorem strandedFrom_flatten (before : List Entry) {pieces : List (List Entry)}
    (h : ∀ w ∈ pieces, IsPiece w) : strandedFrom before pieces.flatten = [] := by
  induction pieces generalizing before with
  | nil => rfl
  | cons w pieces ih =>
    obtain ⟨hw, hpieces⟩ := List.forall_mem_cons.1 h
    have hfirst := strandedFrom_append_isPiece before [] w pieces.flatten hw
    rw [List.append_nil] at hfirst
    rw [List.flatten_cons, hfirst, ih _ hpieces]

/-- A text at the end of the first part is not used if the second part does not use one. -/
theorem scan_append (q : Expectation) (es : List Entry) {es' : List Entry}
    (h : startsWithUse (es'.map role) = false) :
    scan q (es ++ es') = scan q es ++ scan ((es.map role).foldl Expectation.next q) es' := by
  induction es generalizing q with
  | nil => rfl
  | cons e es ih =>
    have hnext : startsWithUse ((es ++ es').map role) = startsWithUse ((es ++ []).map role) :=
      startsWithUse_append_congr h es
    rw [List.append_nil] at hnext
    simp only [List.cons_append, scan, hnext, ih, List.append_assoc, List.map_cons,
      List.foldl_cons]

theorem startsWithUse_of_isPiece {w : List Entry} (h : IsPiece w) :
    startsWithUse (w.map role) = false := by
  simp only [IsPiece, shapes, List.mem_cons, List.not_mem_nil, or_false] at h
  rcases h with h | h | h | h | h | h | h <;> rw [h] <;> rfl

theorem inPiece_of_pending? {e : Entry} (he : e.pending? = none) (before after : List Entry) :
    InPiece before e after := by
  rw [inPiece_iff]
  cases hr : role e with
  | address | index | other => rfl
  | text =>
    obtain ⟨i, text, rfl⟩ := of_role hr
    cases he
  | use =>
    obtain ⟨i, rfl⟩ := of_role hr
    cases he
  | question =>
    obtain ⟨i, rfl | rfl⟩ := of_role hr <;> cases he
  | getter =>
    obtain ⟨i, rfl⟩ := of_role hr
    cases he

theorem inPiece_of_strandedFrom {before front rest : List Entry} {e : Entry}
    (h : strandedFrom before (front ++ e :: rest) = []) : InPiece (before ++ front) e rest := by
  induction front generalizing before with
  | nil =>
    rw [List.nil_append, strandedFrom, List.append_eq_nil_iff] at h
    rw [List.append_nil]
    by_contra hin
    rw [if_neg hin, Option.toList_eq_nil_iff] at h
    exact hin (inPiece_of_pending? h.1 before rest)
  | cons x front ih =>
    rw [List.cons_append, strandedFrom, List.append_eq_nil_iff] at h
    simpa using ih h.2

/-- **A stream is a sequence of pieces iff nothing is stranded.** -/
theorem isPieces_iff (es : List Entry) : IsPieces es ↔ stranded es = [] := by
  constructor
  · rintro ⟨pieces, rfl, h⟩
    exact strandedFrom_flatten [] h
  · intro h
    induction hn : es.length using Nat.strong_induction_on generalizing es with
    | _ n ih =>
      rcases List.eq_nil_or_concat es with rfl | ⟨before, e, rfl⟩
      · exact ⟨[], rfl, by simp⟩
      · -- The last entry ends a piece, and nothing is stranded before the piece.
        rw [List.concat_eq_append] at h hn ⊢
        obtain ⟨w, hw, w', hw', hpiece⟩ := inPiece_of_strandedFrom h
        rw [List.nil_append, List.mem_tails] at hw
        obtain ⟨front, rfl⟩ := hw
        obtain rfl : w' = [] := by simpa using hw'
        rw [List.append_assoc] at h hn ⊢
        rw [stranded_eq_scan, scan_append _ _ (startsWithUse_of_isPiece hpiece),
          List.append_eq_nil_iff, ← stranded_eq_scan] at h
        have hlt : front.length < n := by simp at hn; omega
        obtain ⟨pieces, rfl, hpieces⟩ := ih _ hlt front h.1 rfl
        refine ⟨pieces ++ [w ++ [e]], by simp, fun v hv => ?_⟩
        rcases List.mem_append.1 hv with hv | hv
        · exact hpieces v hv
        · rw [List.mem_singleton.1 hv]
          exact hpiece

end Pieces

/-! ### Optimizing -/

/-- One element of the field's data in ROM takes `stride` bytes. -/
def HasRomData (u : Universe) (field : Member) (data : RomData) (stride : Nat) : Prop :=
  ∃ decl, u.findField field = .ok decl ∧ decl.romData = some data ∧
    sizeOf u data.elementType = .ok stride

/-- Every question for ROM data that follows an address has an answer, which fits into a byte. -/
structure Answerable (u : Universe) (es : List Entry) : Prop where
  length : ∀ field type size s i,
    [.invoke ⟨.pushAddressOfGlobal (.romData field) type size, s⟩, .pending (.romDataLengthCall i)]
      <:+: es →
    ∃ data stride, HasRomData u field data stride ∧ 0 < stride ∧ data.bytes.length / stride ≤ 255
  stride : ∀ field type size s i,
    [.invoke ⟨.pushAddressOfGlobal (.romData field) type size, s⟩, .pending (.romDataStrideCall i)]
      <:+: es →
    ∃ data stride, HasRomData u field data stride ∧ 0 < stride ∧ stride ≤ 255

section Optimize

variable {u : Universe} {es : List Entry}

theorem romShape_of_hasRomData {field : Member} {data : RomData} {stride : Nat}
    (h : HasRomData u field data stride) (hpos : 0 < stride) (i : Instruction) :
    Rule.romShape u field i = .ok (data.bytes.length / stride, stride) := by
  obtain ⟨decl, hdecl, hdata, hsize⟩ := h
  have hne : stride ≠ 0 := by omega
  simp [Rule.romShape, hdecl, hdata, hsize, hne, bind, Except.bind, pure, Except.pure]

theorem fitByte_of_le {value : Nat} (h : value ≤ 255) (field : Member) (i : Instruction)
    (what : String) : Rule.fitByte field i what value = .ok (UInt8.ofNat value) := by
  rw [Rule.fitByte, if_pos (by simp [UInt8.size]; omega)]
  rfl

theorem Answerable.not_faulty (h : Answerable u es) (o : Options) (err : Error) :
    ¬ Faulty u (Peephole.rules o) err es := by
  rintro ⟨before, w, after, rule, -, rfl, hw⟩
  obtain ⟨field, type, size, s, i, ⟨rfl, rfl⟩ | ⟨rfl, rfl⟩⟩ := Rule.of_replacement?_error hw
  · obtain ⟨data, stride, hdata, hpos, hle⟩ := h.length field type size s i ⟨before, after, rfl⟩
    simp [Rule.replacement?, Rule.romDataLength?, Rule.romField?, romShape_of_hasRomData hdata hpos,
      fitByte_of_le hle, bind, Except.bind, pure, Except.pure] at hw
  · obtain ⟨data, stride, hdata, hpos, hle⟩ := h.stride field type size s i ⟨before, after, rfl⟩
    simp [Rule.replacement?, Rule.romDataStride?, Rule.romField?, romShape_of_hasRomData hdata hpos,
      fitByte_of_le hle, bind, Except.bind, pure, Except.pure] at hw

/-- What is left over is what is stranded. -/
theorem optimize_eq_of_answerable (h : Answerable u es) (o : Options) (m : Member) :
    ∃ out, optimize ⟨u, o⟩ m es = if stranded es = [] then .ok out
      else .error (.leftoverEntries m.fullName ((stranded es).map (·.text))) := by
  obtain ⟨out, hout⟩ := exists_normalize_iff.2 (h.not_faulty o)
  have hleft : leftovers out = stranded es := by
    rw [← stranded_of_settled (mandatory_subset_rules o) (settled_of_normalize hout),
      stranded_of_reflTransGen (reflTransGen_of_normalize hout)]
  refine ⟨out, ?_⟩
  simp only [optimize, hout, bind, Except.bind, hleft]
  rfl

/-- **Optimizing accepts exactly the sequences of pieces**, whichever optional rules run. If the
questions for ROM data that follow an address have answers, then a stream is accepted iff it is a
sequence of pieces; otherwise the placeholders that lie in no piece are reported, in order. -/
theorem placeholders_of_optimize (u : Universe) (m : Member) (es : List Entry)
    (h : Answerable u es) (o : Options) :
    ((∃ out, optimize ⟨u, o⟩ m es = .ok out) ↔ IsPieces es) ∧
      (¬ IsPieces es → optimize ⟨u, o⟩ m es =
        .error (.leftoverEntries m.fullName ((stranded es).map (·.text)))) := by
  obtain ⟨out, hout⟩ := optimize_eq_of_answerable h o m
  rw [isPieces_iff, hout]
  constructor
  · constructor
    · rintro ⟨out', hout'⟩
      by_contra hne
      rw [if_neg hne] at hout'
      cases hout'
    · intro hnil
      exact ⟨out, if_pos hnil⟩
  · exact fun hne => if_neg hne

/-- The last element of data in ROM, which two questions find, then a text that is not used at once,
and an element without an address. -/
theorem placeholders_of_optimize_element :
    let data : Member := ⟨⟨"Game"⟩, "data"⟩
    let u : Universe := ⟨[{ name := "Game", types :=
      [{ name := .byte, primitiveSize := some 1 },
       { name := ⟨"Game"⟩
         fields := [{ name := "data", type := .byte, isStatic := true
                      romData := some ⟨.byte, [5, 6]⟩ }] }] }]⟩
    let address : Entry := .synthetic (.pushAddressOfGlobal (.romData data) (.pointerType .byte)
      (.pointerSize .long))
    let i : Instruction := ⟨0, .call, .absent⟩
    let es : List Entry :=
      [address, address, .pending (.romDataLengthCall i), .pending (.romDataGetterCall i),
       .pending (.loadString i "sta WSYNC"), .blank, .pending (.inlineAssemblyCall i),
       .synthetic (.pushConstant (.byte 1) (.type .byte) (.size .byte)),
       .pending (.romDataGetterCall i)]
    Answerable u es ∧ ¬ IsPieces es ∧ ∀ o : Options,
      optimize ⟨u, o⟩ ⟨⟨"Game"⟩, "Main"⟩ es = .error (.leftoverEntries "Game::Main"
        ["LoadString (IL_0000: call)", "InlineAssemblyCall (IL_0000: call)",
         "RomDataGetterCall (IL_0000: call)"]) := by
  intro data u address i es
  have hstranded : stranded es = [.loadString i "sta WSYNC", .inlineAssemblyCall i,
      .romDataGetterCall i] := by decide +kernel
  have hpieces : ¬ IsPieces es := by
    rw [isPieces_iff, hstranded]
    exact List.cons_ne_nil _ _
  have hanswer : Answerable u es := by
    refine ⟨fun field type size s j h => ?_, fun field type size s j h => ?_⟩
    · have hfield : field = data := by
        simp [es, address, i, Entry.synthetic, List.infix_cons_iff] at h
        exact h.1.1.1
      have hdata : HasRomData u data ⟨.byte, [5, 6]⟩ 1 := by
        exact ⟨{ name := "data", type := .byte, isStatic := true
                 romData := some ⟨.byte, [5, 6]⟩ }, by decide, rfl, by decide +kernel⟩
      exact ⟨_, 1, hfield ▸ hdata, by decide, by decide⟩
    · simp [es, address, i, Entry.synthetic, List.infix_cons_iff] at h
  refine ⟨hanswer, hpieces, fun o => ?_⟩
  rw [(placeholders_of_optimize u ⟨⟨"Game"⟩, "Main"⟩ es hanswer o).2 hpieces, hstranded]
  decide +kernel

end Optimize

end Cartridge.Peephole
