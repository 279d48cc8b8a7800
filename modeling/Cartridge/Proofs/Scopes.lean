import Cartridge.Vil.Entry
import Mathlib.Tactic.Common

/-!
# Scopes

A block is a scope of its own for the names that are defined in it. `Scope.tagged` puts beside each
entry of a stream the innermost block around it, known by the position where the block begins; an
entry outside of all blocks has none. The marks of a block belong to the scope around it.

`Nested P es s` says that the blocks of `es` are well nested, that `s` is what stands outside of all
blocks, and that `P` holds of what stands in each of them, blocks inside left out. It is kept by
what the compiler does to streams, and **`Nested.inScope`** reads scopes off from it.
-/

namespace Cartridge

/-- Whether an entry begins or ends a block. -/
def Entry.isMark : Entry → Bool
  | .directive .beginBlock | .directive .endBlock => true
  | _ => false

namespace Scope

/-- The entries from position `n` on, each with the innermost open block. -/
def taggedFrom (n : Nat) (opened : List Nat) : List Entry → List (Option Nat × Entry)
  | [] => []
  | .directive .beginBlock :: es =>
    (opened.head?, .directive .beginBlock) :: taggedFrom (n + 1) (n :: opened) es
  | .directive .endBlock :: es =>
    (opened.tail.head?, .directive .endBlock) :: taggedFrom (n + 1) opened.tail es
  | e :: es => (opened.head?, e) :: taggedFrom (n + 1) opened es

/-- The entries of a stream, each with the innermost block around it. -/
def tagged (es : List Entry) : List (Option Nat × Entry) := taggedFrom 0 [] es

/-- The entries with a given tag. -/
def entriesIn (c : Option Nat) (tags : List (Option Nat × Entry)) : List Entry :=
  tags.filterMap fun t => if t.1 = c then some t.2 else none

/-- The entries of a stream in a given scope. -/
def inScope (es : List Entry) (c : Option Nat) : List Entry := entriesIn c (tagged es)

variable {c : Option Nat} {n : Nat} {opened : List Nat} {e : Entry} {es : List Entry}

@[simp] theorem entriesIn_append (ts us : List (Option Nat × Entry)) :
    entriesIn c (ts ++ us) = entriesIn c ts ++ entriesIn c us :=
  List.filterMap_append

theorem entriesIn_cons_self (ts : List (Option Nat × Entry)) :
    entriesIn c ((c, e) :: ts) = e :: entriesIn c ts :=
  List.filterMap_cons_some (if_pos rfl)

theorem entriesIn_cons_of_ne {d : Option Nat} (h : c ≠ d) (ts : List (Option Nat × Entry)) :
    entriesIn c ((d, e) :: ts) = entriesIn c ts :=
  List.filterMap_cons_none (if_neg h.symm)

theorem mem_entriesIn {ts : List (Option Nat × Entry)} : e ∈ entriesIn c ts ↔ (c, e) ∈ ts := by
  rw [entriesIn, List.mem_filterMap]
  constructor
  · rintro ⟨⟨d, x⟩, hmem, hx⟩
    split at hx
    · rename_i hd
      cases hx
      exact hd ▸ hmem
    · cases hx
  · intro h
    exact ⟨(c, e), h, if_pos rfl⟩

theorem count_entriesIn (ts : List (Option Nat × Entry)) :
    (entriesIn c ts).count e = ts.count (c, e) := by
  induction ts with
  | nil => rfl
  | cons t ts ih =>
    obtain ⟨d, x⟩ := t
    by_cases hd : c = d
    · subst hd
      rw [entriesIn_cons_self, List.count_cons, List.count_cons, ih]
      simp
    · rw [entriesIn_cons_of_ne hd, List.count_cons, ih]
      simp [Ne.symm hd]

theorem taggedFrom_cons (h : e.isMark = false) :
    taggedFrom n opened (e :: es) = (opened.head?, e) :: taggedFrom (n + 1) opened es := by
  rw [taggedFrom]
  · rintro rfl
    cases h
  · rintro rfl
    cases h

end Scope

/-- The blocks of `es` are well nested, `s` stands outside of them, and `P` holds inside of each. -/
inductive Nested (P : List Entry → Prop) : List Entry → List Entry → Prop where
  | nil : Nested P [] []
  | entry {e : Entry} {es s : List Entry} (he : e.isMark = false) (h : Nested P es s) :
      Nested P (e :: es) (e :: s)
  | block {inner t es s : List Entry} (hinner : Nested P inner t) (ht : P t) (h : Nested P es s) :
      Nested P (.directive .beginBlock :: inner ++ .directive .endBlock :: es)
        (.directive .beginBlock :: .directive .endBlock :: s)

namespace Nested

variable {P Q : List Entry → Prop} {es es' s s' : List Entry}

theorem mono (hPQ : ∀ t, P t → Q t) (h : Nested P es s) : Nested Q es s := by
  induction h with
  | nil => exact .nil
  | entry he _ ih => exact .entry he ih
  | block _ ht _ ihinner ih => exact .block ihinner (hPQ _ ht) ih

theorem subset (h : Nested P es s) : s ⊆ es := by
  induction h with
  | nil => exact List.Subset.refl _
  | entry _ _ ih => exact List.cons_subset_cons _ ih
  | block _ _ _ _ ih =>
    intro e he
    rcases List.mem_cons.1 he with rfl | he
    · exact List.mem_cons_self ..
    · exact List.mem_cons_of_mem _ (List.mem_append_right _ (List.cons_subset_cons _ ih he))

/-- What holds of every entry of a stream holds of every entry of a block. -/
theorem and_forall {R : Entry → Prop} (h : Nested P es s) (hR : ∀ e ∈ es, R e) :
    Nested (fun t => P t ∧ ∀ e ∈ t, R e) es s := by
  induction h with
  | nil => exact .nil
  | entry he _ ih => exact .entry he (ih fun e he => hR e (List.mem_cons_of_mem _ he))
  | @block inner t es s hinner ht _ ihinner ih =>
    have hin : ∀ e ∈ inner, R e := fun e he =>
      hR e (List.mem_cons_of_mem _ (List.mem_append_left _ he))
    refine .block (ihinner hin) ⟨ht, fun e he => hin e (hinner.subset he)⟩ (ih fun e he => ?_)
    exact hR e (List.mem_cons_of_mem _ (List.mem_append_right _ (List.mem_cons_of_mem _ he)))

theorem append (h : Nested P es s) (h' : Nested P es' s') : Nested P (es ++ es') (s ++ s') := by
  induction h with
  | nil => exact h'
  | entry he _ ih => exact .entry he ih
  | block hinner ht _ _ ih =>
    simpa using Nested.block hinner ht ih

theorem plain (h : ∀ e ∈ es, e.isMark = false) : Nested P es es := by
  induction es with
  | nil => exact .nil
  | cons e es ih =>
    exact .entry (h e (List.mem_cons_self ..)) (ih fun x hx => h x (List.mem_cons_of_mem _ hx))

theorem map {f : Entry → Entry} (hmark : ∀ e, (f e).isMark = e.isMark)
    (hfix : ∀ e, e.isMark = true → f e = e) (hP : ∀ t, P t → t.map f = t) (h : Nested P es s) :
    Nested P (es.map f) (s.map f) := by
  induction h with
  | nil => exact .nil
  | entry he _ ih => exact .entry ((hmark _).trans he) ih
  | block _ ht _ ihinner ih =>
    rw [hP _ ht] at ihinner
    simp only [List.cons_append, List.map_cons, List.map_append, hfix (.directive .beginBlock) rfl,
      hfix (.directive .endBlock) rfl]
    exact .block ihinner ht ih

/-! ### Windows -/

theorem of_cons {e : Entry} (he : e.isMark = false) (h : Nested P (e :: es) s) :
    ∃ rest, s = e :: rest ∧ Nested P es rest := by
  generalize hes : e :: es = all at h
  cases h with
  | nil => cases hes
  | entry _ h =>
    cases hes
    exact ⟨_, rfl, h⟩
  | block =>
    obtain ⟨rfl, -⟩ := List.cons.inj hes
    cases he

theorem of_plain_append {w after : List Entry} (hw : ∀ e ∈ w, e.isMark = false)
    (h : Nested P (w ++ after) s) : ∃ rest, s = w ++ rest ∧ Nested P after rest := by
  induction w generalizing s with
  | nil => exact ⟨s, rfl, h⟩
  | cons e w ih =>
    obtain ⟨s', rfl, h'⟩ := of_cons (hw e (List.mem_cons_self ..)) h
    obtain ⟨rest, rfl, hrest⟩ := ih (fun x hx => hw x (List.mem_cons_of_mem _ hx)) h'
    exact ⟨rest, rfl, hrest⟩

/-- A window without marks ends before a mark or begins after it. -/
theorem split_at_mark {before w after inner rest : List Entry} {mark : Entry}
    (hmark : mark.isMark = true) (hne : w ≠ []) (hw : ∀ e ∈ w, e.isMark = false)
    (h : before ++ (w ++ after) = inner ++ mark :: rest) :
    (∃ c, inner = before ++ (w ++ c) ∧ after = c ++ mark :: rest) ∨
      ∃ c, before = inner ++ mark :: c ∧ rest = c ++ (w ++ after) := by
  have hnot : ∀ x ∈ w, x ≠ mark := by
    rintro x hx rfl
    exact Bool.false_ne_true ((hw x hx).symm.trans hmark)
  rcases List.append_eq_append_iff.1 h with ⟨c, rfl, hc⟩ | ⟨c, rfl, hc⟩
  · rcases List.append_eq_append_iff.1 hc with ⟨d, rfl, hd⟩ | ⟨d, rfl, hd⟩
    · exact .inl ⟨d, rfl, hd⟩
    · cases d with
      | nil => exact .inl ⟨[], by simp, hd.symm⟩
      | cons x d =>
        obtain ⟨rfl, -⟩ := List.cons.inj hd
        exact absurd rfl (hnot mark (List.mem_append_right _ (List.mem_cons_self ..)))
  · cases c with
    | nil =>
      cases w with
      | nil => exact absurd rfl hne
      | cons x w =>
        obtain ⟨rfl, -⟩ := List.cons.inj hc
        exact absurd rfl (hnot mark (List.mem_cons_self ..))
    | cons x c =>
      obtain ⟨rfl, hrest⟩ := List.cons.inj hc
      exact .inr ⟨c, rfl, hrest⟩

/-- **A window without marks lies in one scope**: outside of all blocks, or in a block. -/
theorem window {before w after : List Entry} (hne : w ≠ []) (hw : ∀ e ∈ w, e.isMark = false)
    (h : Nested P (before ++ (w ++ after)) s) :
    (∃ b a, s = b ++ (w ++ a) ∧
      ∀ r, (∀ e ∈ r, e.isMark = false) → Nested P (before ++ (r ++ after)) (b ++ (r ++ a))) ∨
    ∃ b a, P (b ++ (w ++ a)) ∧
      ∀ r, (∀ e ∈ r, e.isMark = false) → P (b ++ (r ++ a)) →
        Nested P (before ++ (r ++ after)) s := by
  generalize hes : before ++ (w ++ after) = es at h
  induction h generalizing before after with
  | nil => simp_all
  | @entry e es s he h ih =>
    cases before with
    | nil =>
      rw [List.nil_append] at hes
      have hall : Nested P (w ++ after) (e :: s) := hes ▸ .entry he h
      obtain ⟨rest, hrest, hafter⟩ := of_plain_append hw hall
      exact .inl ⟨[], rest, hrest, fun r hr => (plain hr).append hafter⟩
    | cons b before =>
      rw [List.cons_append, List.cons.injEq] at hes
      obtain ⟨rfl, hes⟩ := hes
      rcases ih hes with ⟨b', a, rfl, hin⟩ | ⟨b', a, hP, hin⟩
      · exact .inl ⟨b :: b', a, rfl, fun r hr => .entry he (hin r hr)⟩
      · exact .inr ⟨b', a, hP, fun r hr hPr => .entry he (hin r hr hPr)⟩
  | @block inner t es s hinner ht h ihinner ih =>
    cases before with
    | nil =>
      cases w with
      | nil => exact absurd rfl hne
      | cons x w =>
        obtain ⟨rfl, -⟩ := List.cons.inj hes
        cases hw _ (List.mem_cons_self ..)
    | cons b before =>
      rw [List.cons_append, List.cons_append, List.cons.injEq] at hes
      obtain ⟨rfl, hes⟩ := hes
      rcases split_at_mark rfl hne hw hes with ⟨c, rfl, rfl⟩ | ⟨c, rfl, rfl⟩
      · -- Inside the block, where the window is outside of further blocks or not.
        right
        rcases ihinner rfl with ⟨b, a, rfl, hin⟩ | ⟨b, a, hP, hin⟩
        · refine ⟨b, a, ht, fun r hr hPr => ?_⟩
          simpa using Nested.block (hin r hr) hPr h
        · refine ⟨b, a, hP, fun r hr hPr => ?_⟩
          simpa using Nested.block (hin r hr hPr) ht h
      · rcases ih rfl with ⟨b, a, rfl, hin⟩ | ⟨b, a, hP, hin⟩
        · refine .inl ⟨.directive .beginBlock :: .directive .endBlock :: b, a, rfl, fun r hr => ?_⟩
          simpa using Nested.block hinner ht (hin r hr)
        · refine .inr ⟨b, a, hP, fun r hr hPr => ?_⟩
          simpa using Nested.block hinner ht (hin r hr hPr)

/-! ### Added entries -/

/-- Entries that are no marks can be put in anywhere. -/
theorem of_filter {keep : Entry → Bool} (hkeep : ∀ e, e.isMark = true → keep e = true)
    (h : Nested P (es.filter keep) s) :
    ∃ s', s'.filter keep = s ∧ Nested (fun t => P (t.filter keep)) es s' := by
  have hplain : ∀ {ds : List Entry}, (∀ e ∈ ds, ¬keep e = true) → ∀ e ∈ ds, e.isMark = false :=
    fun hds e he => Bool.eq_false_iff.2 fun hm => hds e he (hkeep e hm)
  generalize hfs : es.filter keep = fs at h
  induction h generalizing es with
  | nil =>
    have hds := List.filter_eq_nil_iff.1 hfs
    exact ⟨es, hfs, plain (hplain hds)⟩
  | @entry e fs s he _ ih =>
    obtain ⟨ds, es, rfl, hds, hk, hes⟩ := List.filter_eq_cons_iff.1 hfs
    obtain ⟨s', rfl, hs'⟩ := ih hes
    refine ⟨ds ++ e :: s', ?_, (plain (hplain hds)).append (.entry he hs')⟩
    rw [List.filter_append, List.filter_eq_nil_iff.2 hds, List.filter_cons_of_pos hk,
      List.nil_append]
  | @block inner t fs s _ ht _ ihinner ih =>
    obtain ⟨ds, es, rfl, hds, -, hes⟩ := List.filter_eq_cons_iff.1 hfs
    obtain ⟨es₁, es₂, rfl, hes₁, hes₂⟩ := List.filter_eq_append_iff.1 hes
    obtain ⟨ds', es', rfl, hds', -, hes'⟩ := List.filter_eq_cons_iff.1 hes₂
    have hinner : (es₁ ++ ds').filter keep = inner := by
      rw [List.filter_append, hes₁, List.filter_eq_nil_iff.2 hds', List.append_nil]
    obtain ⟨t', rfl, ht'⟩ := ihinner hinner
    obtain ⟨s', rfl, hs'⟩ := ih hes'
    refine ⟨ds ++ .directive .beginBlock :: .directive .endBlock :: s', ?_, ?_⟩
    · rw [List.filter_append, List.filter_eq_nil_iff.2 hds, List.nil_append,
        List.filter_cons_of_pos (hkeep _ rfl), List.filter_cons_of_pos (hkeep _ rfl)]
    · have hblock := (plain (hplain hds)).append (Nested.block ht' ht hs')
      simpa using hblock

/-! ### Scopes -/

open Scope

variable {n : Nat} {opened : List Nat} {c : Option Nat}

theorem taggedFrom_append (h : Nested P es s) (n : Nat) (opened : List Nat) (rest : List Entry) :
    taggedFrom n opened (es ++ rest) =
      taggedFrom n opened es ++ taggedFrom (n + es.length) opened rest := by
  induction h generalizing n opened rest with
  | nil => rfl
  | @entry e es s he _ ih =>
    rw [List.cons_append, taggedFrom_cons he, taggedFrom_cons he, ih, List.cons_append,
      List.length_cons, Nat.add_assoc, Nat.add_comm 1]
  | @block inner t es s _ _ _ ihinner ih =>
    have hlen : n + (inner.length + (es.length + 1) + 1) =
        n + 1 + inner.length + 1 + es.length := by
      omega
    simp only [List.cons_append, List.append_assoc, taggedFrom, ihinner, ih, List.tail_cons,
      List.length_cons, List.length_append, hlen]

theorem taggedFrom_block {inner t : List Entry} (hinner : Nested P inner t) (n : Nat)
    (opened : List Nat) (rest : List Entry) :
    taggedFrom n opened (.directive .beginBlock :: inner ++ .directive .endBlock :: rest) =
      (opened.head?, .directive .beginBlock) :: (taggedFrom (n + 1) (n :: opened) inner ++
        (opened.head?, .directive .endBlock) ::
          taggedFrom (n + 1 + inner.length + 1) opened rest) := by
  rw [List.cons_append, taggedFrom, hinner.taggedFrom_append, taggedFrom, List.tail_cons]

/-- A scope that is not the one around a stream and that does not begin in it has no entry of it. -/
theorem entriesIn_eq_nil (h : Nested P es s) (hc : c ≠ opened.head?)
    (hout : ∀ k, n ≤ k → k < n + es.length → c ≠ some k) :
    entriesIn c (taggedFrom n opened es) = [] := by
  induction h generalizing n opened with
  | nil => rfl
  | @entry e es s he _ ih =>
    rw [taggedFrom_cons he, entriesIn_cons_of_ne hc]
    refine ih hc fun k hk hlt => hout k (by omega) ?_
    rw [List.length_cons]
    omega
  | @block inner t es s hinner _ _ ihinner ih =>
    simp only [List.length_cons, List.length_append] at hout
    rw [hinner.taggedFrom_block, entriesIn_cons_of_ne hc, entriesIn_append, entriesIn_cons_of_ne hc,
      ihinner, ih hc, List.append_nil]
    · exact fun k hk hlt => hout k (by omega) (by omega)
    · rw [List.head?_cons]
      exact hout n (Nat.le_refl n) (by omega)
    · exact fun k hk hlt => hout k (by omega) (by omega)

/-- The entries of the scope around a stream stand outside of its blocks. -/
theorem entriesIn_head (h : Nested P es s) (hopened : ∀ i ∈ opened, i < n) :
    entriesIn opened.head? (taggedFrom n opened es) = s := by
  induction h generalizing n with
  | nil => rfl
  | @entry e es s he _ ih =>
    rw [taggedFrom_cons he, entriesIn_cons_self, ih fun i hi => Nat.lt_succ_of_lt (hopened i hi)]
  | @block inner t es s hinner _ _ _ ih =>
    have hhead : ∀ k, n ≤ k → opened.head? ≠ some k := by
      intro k hk heq
      have hlt := hopened k (List.mem_of_mem_head? heq)
      omega
    rw [hinner.taggedFrom_block, entriesIn_cons_self, entriesIn_append, entriesIn_cons_self,
      hinner.entriesIn_eq_nil (by rw [List.head?_cons]; exact hhead n (Nat.le_refl n))
        (fun k hk _ => hhead k (by omega)),
      List.nil_append, ih fun i hi => Nat.lt_of_lt_of_le (hopened i hi) (by omega)]

/-- The entries of a scope that begins in a stream. -/
theorem entriesIn_of_ne (h : Nested P es s) (hopened : ∀ i ∈ opened, i < n)
    (hc : c ≠ opened.head?) :
    entriesIn c (taggedFrom n opened es) = [] ∨ P (entriesIn c (taggedFrom n opened es)) := by
  induction h generalizing n opened with
  | nil => exact .inl rfl
  | @entry e es s he _ ih =>
    rw [taggedFrom_cons he, entriesIn_cons_of_ne hc]
    exact ih (fun i hi => Nat.lt_succ_of_lt (hopened i hi)) hc
  | @block inner t es s hinner ht h ihinner ih =>
    rw [hinner.taggedFrom_block, entriesIn_cons_of_ne hc, entriesIn_append, entriesIn_cons_of_ne hc]
    have hlater : ∀ i ∈ opened, i < n + 1 + inner.length + 1 := fun i hi =>
      Nat.lt_of_lt_of_le (hopened i hi) (by omega)
    have hcons : ∀ i ∈ n :: opened, i < n + 1 := by
      intro i hi
      rcases List.mem_cons.1 hi with rfl | hi
      · exact Nat.lt_succ_self i
      · exact Nat.lt_succ_of_lt (hopened i hi)
    by_cases hin : ∃ k, n ≤ k ∧ k < n + 1 + inner.length ∧ c = some k
    · -- The scope begins with this block or inside of it, so no later block is meant.
      obtain ⟨k, hk, hlt, rfl⟩ := hin
      rw [h.entriesIn_eq_nil hc fun j hj _ heq => by cases heq; omega, List.append_nil]
      by_cases hkn : k = n
      · subst hkn
        right
        have hhead : some k = (k :: opened).head? := rfl
        rw [hhead, hinner.entriesIn_head hcons]
        exact ht
      · exact ihinner hcons fun heq => hkn (Option.some.inj heq)
    · have hnil : entriesIn c (taggedFrom (n + 1) (n :: opened) inner) = [] := by
        refine hinner.entriesIn_eq_nil (fun heq => hin ⟨n, Nat.le_refl n, by omega, heq⟩) ?_
        exact fun k hk hlt heq => hin ⟨k, by omega, hlt, heq⟩
      rw [hnil, List.nil_append]
      exact ih hlater hc

/-- **The scopes of a stream with well nested blocks.** -/
theorem inScope (h : Nested P es s) :
    inScope es none = s ∧ ∀ k, inScope es (some k) = [] ∨ P (inScope es (some k)) := by
  have hopened : ∀ i ∈ ([] : List Nat), i < 0 := fun i hi => by cases hi
  exact ⟨h.entriesIn_head hopened, fun k => h.entriesIn_of_ne hopened (Option.some_ne_none k)⟩

end Nested

end Cartridge
