import Cartridge.Proofs.Layout.Direct

/-!
# The table of layouts

Remembering layouts changes no answer. A table is `Sound` if it holds layouts that would be computed
anyway. A query on a sound table answers what the same computation without a table answers, and
leaves a sound table behind, also if it fails (`Answers`). Layouts are put into the table while
those of the types around them are still being computed; this is sound because a layout does not
depend on them (`direct_eq_ok_iff`).

From single queries it follows for all sequences of them that one table answers each question as a
new table would: **`LayoutTable.askAll_eq_fresh`**.
-/

namespace Cartridge

namespace LayoutTable

variable {α β : Type} {u : Universe} {chain : List TypeName} {t : TypeName}

/-- The table holds layouts as they are computed without it. -/
def Sound (u : Universe) (table : LayoutTable) : Prop :=
  ∀ t l, table.known.lookup t = some l → Layout.direct u t = .ok l

/-- The query answers `x` on every sound table, and leaves a sound table. -/
def Answers (u : Universe) (q : Query α) (x : Except Error α) : Prop :=
  ∀ table, Sound u table → (q.run.run table).1 = x ∧ Sound u (q.run.run table).2

theorem sound_empty (u : Universe) : Sound u {} := nofun

theorem answers_pure (a : α) : Answers u (pure a) (.ok a) := fun _ h => ⟨rfl, h⟩

theorem answers_throw (e : Error) : Answers u (throw e : Query α) (.error e) := fun _ h => ⟨rfl, h⟩

theorem run_bind (q : Query α) (f : α → Query β) (table : LayoutTable) :
    (q >>= f).run.run table = match q.run.run table with
      | (.ok a, next) => (f a).run.run next
      | (.error e, next) => (.error e, next) := by
  rw [ExceptT.run_bind, StateT.run_bind]
  rcases q.run.run table with ⟨result | result, next⟩
  · rfl
  · rfl

theorem Answers.bind {q : Query α} {x : Except Error α} {f : α → Query β} {g : α → Except Error β}
    (hq : Answers u q x) (hf : ∀ a, Answers u (f a) (g a)) : Answers u (q >>= f) (x >>= g) := by
  intro table htable
  obtain ⟨hresult, hnext⟩ := hq table htable
  rcases hrun : q.run.run table with ⟨result, next⟩
  rw [hrun] at hresult hnext
  subst hresult
  rw [run_bind, hrun]
  cases result with
  | ok a => exact hf a next hnext
  | error e => exact ⟨rfl, hnext⟩

theorem answers_placeFields {sizeOf : TypeName → Query Nat} {sizeOf' : TypeName → Except Error Nat}
    (owner : TypeName) {fields : List FieldDecl}
    (h : ∀ f ∈ fields, Answers u (sizeOf f.type) (sizeOf' f.type)) (offset : Nat) :
    Answers u (Layout.placeFields owner sizeOf offset fields)
      (Layout.placeFields owner sizeOf' offset fields) := by
  induction fields generalizing offset with
  | nil => exact answers_pure _
  | cons f fields ih =>
    rw [List.forall_mem_cons] at h
    refine h.1.bind fun size => ?_
    split
    · exact (ih h.2 _).bind fun rest => answers_pure _
    · exact answers_throw _

theorem answers_fieldSize {layoutOf : TypeName → Query TypeLayout}
    {layoutOf' : TypeName → Except Error TypeLayout}
    (h : t.isPointer = false → Answers u (layoutOf t) (layoutOf' t)) :
    Answers u (Layout.fieldSize layoutOf t) (Layout.fieldSize layoutOf' t) := by
  unfold Layout.fieldSize
  split
  · exact answers_pure _
  · rename_i hp
    exact (h (by simpa using hp)).bind fun layout => answers_pure _

theorem answers_build {layoutOf : TypeName → Query TypeLayout}
    {layoutOf' : TypeName → Except Error TypeLayout}
    (h : ∀ b, u.Contains t b → Answers u (layoutOf b) (layoutOf' b)) :
    Answers u (Layout.build u layoutOf t) (Layout.build u layoutOf' t) := by
  unfold Layout.build
  split
  · exact answers_throw _
  · rename_i d hd
    split
    · exact answers_pure _
    · rename_i hsize
      refine (answers_placeFields t (fun f hf => ?_) 0).bind fun placed => answers_pure _
      exact answers_fieldSize fun hp => h f.type ⟨d, hd, hsize, hp, f, hf, rfl⟩

theorem run_remember (t : TypeName) (q : Query TypeLayout) (table : LayoutTable) :
    (remember t q).run.run table = match table.known.lookup t with
      | some l => (.ok l, table)
      | none => match q.run.run table with
        | (.ok l, next) => (.ok l, ⟨(t, l) :: next.known⟩)
        | (.error e, next) => (.error e, next) := by
  rw [remember, run_bind]
  change (match table.known.lookup t with
    | some l => pure l
    | none => q >>= _ : Query TypeLayout).run.run table = _
  cases table.known.lookup t with
  | some l => rfl
  | none =>
    dsimp only
    rw [run_bind]
    rcases q.run.run table with ⟨result | result, next⟩
    · rfl
    · rfl

/-- A layout can be remembered if it is the one that is computed without the table. -/
theorem answers_remember {q : Query TypeLayout} {x : Except Error TypeLayout}
    (hx : ∀ l, Layout.direct u t = .ok l ↔ x = .ok l) (hq : Answers u q x) :
    Answers u (remember t q) x := by
  intro table htable
  rw [run_remember]
  cases hl : table.known.lookup t with
  | some l => exact ⟨((hx l).1 (htable t l hl)).symm, htable⟩
  | none =>
    obtain ⟨hresult, hnext⟩ := hq table htable
    rcases hrun : q.run.run table with ⟨result, next⟩
    rw [hrun] at hresult hnext
    cases result with
    | error e => exact ⟨hresult, hnext⟩
    | ok l =>
      refine ⟨hresult, fun s l' hs => ?_⟩
      rw [List.lookup_cons] at hs
      split at hs
      · rename_i heq
        cases hs
        rw [beq_iff_eq.1 heq]
        exact (hx l).2 hresult.symm
      · exact hnext s l' hs

/-- **What is around a type does not matter for what is remembered of it**, if all of it holds the
type. -/
theorem direct_eq_ok_iff (hchain : ∀ s ∈ chain, Relation.TransGen u.Contains s t) (l : TypeLayout) :
    Layout.direct u t = .ok l ↔
      (if t ∈ chain then .error (.recursiveLayout t.text) else Layout.nested u chain t) =
        .ok l := by
  constructor
  · intro hdirect
    -- If `t` held a type on the chain, or were on it, it would hold itself.
    have hself : ¬ Relation.TransGen u.Contains t t := fun ht =>
      Layout.not_mem_of_nested hdirect ht (List.mem_singleton_self t)
    rw [if_neg fun hmem => hself (hchain t hmem)]
    exact Layout.nested_of_nested hdirect fun s hs hmem => hself (hs.trans (hchain s hmem))
  · intro h
    split at h
    · cases h
    · exact Layout.nested_of_nested h fun _ _ => List.not_mem_nil

/-- **The table does not show.** -/
theorem answers_descent (u : Universe) (chain : List TypeName) (t : TypeName)
    (hchain : ∀ s ∈ chain, Relation.TransGen u.Contains s t) :
    Answers u (Layout.descent u remember chain t) (Layout.nested u chain t) := by
  induction chain, t using Universe.containment_induction u with
  | h chain t ih =>
    rw [Layout.descent_eq, Layout.nested_eq]
    refine answers_build fun b hb => ?_
    have hchain' := Universe.transGen_of_chain hchain hb
    refine answers_remember (direct_eq_ok_iff hchain') ?_
    by_cases hc : b ∈ chain ++ [t]
    · rw [if_pos hc, if_pos hc]
      exact answers_throw _
    · rw [if_neg hc, if_neg hc]
      by_cases hk : b ∈ u.types.map (·.name)
      · rw [if_pos hk]
        exact ih b hb hc hchain'
      · obtain ⟨-, -, -, hp, -⟩ := hb
        rw [if_neg hk, Layout.nested_of_findType (Universe.findType_of_not_mem hp hk)]
        exact answers_throw _

theorem answers_layoutOf (u : Universe) (t : TypeName) :
    Answers u (layoutOf u t) (Layout.direct u t) :=
  answers_remember (fun _ => Iff.rfl) (answers_descent u [] t nofun)

theorem answers_sizeOf (u : Universe) (t : TypeName) :
    Answers u (sizeOf u t) (Layout.fieldSize (Layout.direct u) t) :=
  answers_fieldSize fun _ => answers_layoutOf u t

end LayoutTable

theorem layoutOf_eq_direct (u : Universe) (t : TypeName) : layoutOf u t = Layout.direct u t :=
  (LayoutTable.answers_layoutOf u t {} (LayoutTable.sound_empty u)).1

theorem sizeOf_eq_direct (u : Universe) (t : TypeName) :
    sizeOf u t = Layout.fieldSize (Layout.direct u) t :=
  (LayoutTable.answers_sizeOf u t {} (LayoutTable.sound_empty u)).1

/-! ### Sequences of questions -/

namespace LayoutTable

/-- What can be asked about a type. -/
inductive Question where
  | layout (t : TypeName)
  | size (t : TypeName)
deriving DecidableEq, Repr

/-- The answer to a question, which may be an error. -/
inductive Answer where
  | layout (result : Except Error TypeLayout)
  | size (result : Except Error Nat)
deriving DecidableEq, Repr

/-- Puts a question to a table. The table afterwards may hold more, also if the answer is an
error. -/
def Question.ask (u : Universe) (table : LayoutTable) : Question → Answer × LayoutTable
  | .layout t => ((layoutOf u t).run.run table).map .layout id
  | .size t => ((sizeOf u t).run.run table).map .size id

/-- Puts questions to one table, one after the other. -/
def askAll (u : Universe) (table : LayoutTable) : List Question → List Answer × LayoutTable
  | [] => ([], table)
  | q :: qs =>
    let first := q.ask u table
    let rest := askAll u first.2 qs
    (first.1 :: rest.1, rest.2)

variable {u : Universe} {table : LayoutTable}

/-- A question gets the same answer from all sound tables, and leaves a sound table. -/
theorem ask_of_sound (h : Sound u table) (q : Question) :
    (q.ask u table).1 = (q.ask u {}).1 ∧ Sound u (q.ask u table).2 := by
  cases q with
  | layout t =>
    obtain ⟨hanswer, hnext⟩ := answers_layoutOf u t table h
    obtain ⟨hfresh, -⟩ := answers_layoutOf u t {} (sound_empty u)
    exact ⟨congrArg Answer.layout (hanswer.trans hfresh.symm), hnext⟩
  | size t =>
    obtain ⟨hanswer, hnext⟩ := answers_sizeOf u t table h
    obtain ⟨hfresh, -⟩ := answers_sizeOf u t {} (sound_empty u)
    exact ⟨congrArg Answer.size (hanswer.trans hfresh.symm), hnext⟩

theorem askAll_of_sound (h : Sound u table) (qs : List Question) :
    (askAll u table qs).1 = qs.map (fun q => (q.ask u {}).1) ∧ Sound u (askAll u table qs).2 := by
  induction qs generalizing table with
  | nil => exact ⟨rfl, h⟩
  | cons q qs ih =>
    obtain ⟨hfirst, hnext⟩ := ask_of_sound h q
    obtain ⟨hrest, hlast⟩ := ih hnext
    exact ⟨congrArg₂ List.cons hfirst hrest, hlast⟩

/-- **The table is invisible.** Whatever is asked of one table, in whatever order, each question
gets the answer that it gets from an empty table. What the table holds afterwards are layouts that
an empty table gives. -/
theorem askAll_eq_fresh (u : Universe) (qs : List Question) :
    (askAll u {} qs).1 = qs.map (fun q => (q.ask u {}).1) ∧
      ∀ t l, (askAll u {} qs).2.known.lookup t = some l →
        (Question.ask u {} (.layout t)).1 = .layout (.ok l) := by
  obtain ⟨hanswers, hsound⟩ := askAll_of_sound (sound_empty u) qs
  refine ⟨hanswers, fun t l hl => congrArg Answer.layout ?_⟩
  exact (layoutOf_eq_direct u t).trans (hsound t l hl)

end LayoutTable

end Cartridge
