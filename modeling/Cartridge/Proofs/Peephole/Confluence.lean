import Cartridge.Proofs.Peephole.Rewriting

/-!
# Rewriting ends in one stream

At each place of a stream only one rule can apply (`Rule.candidate?`), and no window begins inside
another one (`Rule.IsWindow`). Two windows of a stream are therefore the same or apart
(`Rule.IsWindow.same_or_apart`), and replacements at two places can be made in either order.

* `Peephole.diamond`: two replacements in one stream lead to one stream again.
* `Peephole.faulty_iff_of_rewrites`: a replacement neither makes nor removes a window that a rule
  rejects, so that whether rewriting fails depends on the stream alone.
* `Peephole.settled_of_normalize`: passes end where no rule replaces or rejects anything.
* **`Peephole.eq_of_maximal`**: replacements end, whatever their order, in what passes return.
-/

namespace Cartridge

/-! ### Stretches of a list -/

/-- Two stretches of a list are apart, or one of them begins inside the other. -/
theorem apart_or_inside {α : Type} {before as after before' bs after' : List α}
    (h : before ++ as ++ after = before' ++ bs ++ after') :
    (∃ mid, before' = before ++ as ++ mid ∧ after = mid ++ bs ++ after') ∨
      (∃ mid, before = before' ++ bs ++ mid ∧ after' = mid ++ as ++ after) ∨
      (∃ a s, s ≠ [] ∧ as = a ++ s ∧ before' = before ++ a ∧ s ++ after = bs ++ after') ∨
      (∃ a s, s ≠ [] ∧ bs = a ++ s ∧ before = before' ++ a ∧ s ++ after' = as ++ after) := by
  rw [List.append_assoc, List.append_assoc, List.append_eq_append_iff] at h
  rcases h with ⟨a, rfl, h⟩ | ⟨a, rfl, h⟩ <;> rw [List.append_eq_append_iff] at h
  · rcases h with ⟨mid, rfl, rfl⟩ | ⟨s, rfl, h⟩
    · exact .inl ⟨mid, by simp, by simp⟩
    · by_cases hs : s = []
      · subst hs
        exact .inl ⟨[], by simp, by simpa using h.symm⟩
      · exact .inr (.inr (.inl ⟨a, s, hs, rfl, rfl, h.symm⟩))
  · rcases h with ⟨mid, rfl, rfl⟩ | ⟨s, rfl, h⟩
    · exact .inr (.inl ⟨mid, by simp, by simp⟩)
    · by_cases hs : s = []
      · subst hs
        exact .inr (.inl ⟨[], by simp, by simpa using h.symm⟩)
      · exact .inr (.inr (.inr ⟨a, s, hs, rfl, rfl, h.symm⟩))

/-- Two stretches of a list without a common element are apart. -/
theorem apart_of_disjoint {α : Type} {before as after before' bs after' : List α}
    (h : before ++ as ++ after = before' ++ bs ++ after') (has : as ≠ []) (hbs : bs ≠ [])
    (hd : ∀ e ∈ as, e ∉ bs) :
    (∃ mid, before' = before ++ as ++ mid ∧ after = mid ++ bs ++ after') ∨
      (∃ mid, before = before' ++ bs ++ mid ∧ after' = mid ++ as ++ after) := by
  rcases apart_or_inside h with h | h | ⟨a, s, hs, rfl, -, h⟩ | ⟨a, s, hs, rfl, -, h⟩
  · exact .inl h
  · exact .inr h
  · obtain ⟨x, s, rfl⟩ := List.exists_cons_of_ne_nil hs
    obtain ⟨y, bs, rfl⟩ := List.exists_cons_of_ne_nil hbs
    obtain ⟨rfl, -⟩ := List.cons.inj h
    exact absurd (List.mem_cons_self ..) (hd x (by simp))
  · obtain ⟨x, s, rfl⟩ := List.exists_cons_of_ne_nil hs
    obtain ⟨y, as, rfl⟩ := List.exists_cons_of_ne_nil has
    obtain ⟨rfl, -⟩ := List.cons.inj h
    exact absurd (by simp) (hd x (List.mem_cons_self ..))

/-! ### Windows -/

namespace Rule

variable {u : Universe} {rule rule' : Rule} {w w' r r' : List Entry}

theorem replaces_iff : Replaces u rule w r ↔ rule.replacement? u w = .ok (some r) := by
  refine ⟨fun h => ?_, replaces_of_replacement?⟩
  cases h with
  | romDataLength field type size s i shape length hs hl =>
    simp [replacement?, romDataLength?, romField?, hs, hl, bind, Except.bind, pure, Except.pure,
      fusedByte, fused, Entry.sources, Pending.instruction]
  | romDataStride field type size s i shape stride hs hl =>
    simp [replacement?, romDataStride?, romField?, hs, hl, bind, Except.bind, pure, Except.pure,
      fusedByte, fused, Entry.sources, Pending.instruction]
  | incrementGlobal global type globalSize value constantType constantSize targetSize s hv =>
    simp [replacement?, incrementGlobal?, hv, pure, Except.pure]
  | removeBranchToNext l s => simp [replacement?, removeBranchToNext?, pure, Except.pure]
  | _ => rfl

/-- The only rule whose window may begin at the head of a stream. -/
def candidate? : List Entry → Option Rule
  | .pending (.loadString ..) :: _ => some .inlineAssembly
  | .invoke ⟨.pushAddressOfGlobal .., _⟩ :: .pending (.romDataLengthCall _) :: _ =>
    some .romDataLength
  | .invoke ⟨.pushAddressOfGlobal .., _⟩ :: .pending (.romDataStrideCall _) :: _ =>
    some .romDataStride
  | .invoke ⟨.pushAddressOfGlobal .., _⟩ :: .invoke ⟨.pushConstant .., _⟩ :: _ =>
    some .romElementAtConstant
  | .invoke ⟨.pushAddressOfGlobal .., _⟩ :: .invoke ⟨.pushGlobal .., _⟩ :: _ =>
    some .romElementFromStack
  | .invoke ⟨.pushConstant .., _⟩ :: .invoke ⟨.popToGlobal .., _⟩ :: _ =>
    some .assignConstantToGlobal
  | .invoke ⟨.pushGlobal .., _⟩ :: .invoke ⟨.popToGlobal .., _⟩ :: _ => some .copyGlobalToGlobal
  | .invoke ⟨.pushGlobal .., _⟩ :: .invoke ⟨.pushConstant .., _⟩ :: _
  | .invoke ⟨.pushConstant .., _⟩ :: .invoke ⟨.pushGlobal .., _⟩ :: _ => some .addGlobalAndConstant
  | .invoke ⟨.addGlobalAndConstant .., _⟩ :: _ => some .addGlobalAndConstantToGlobal
  | .invoke ⟨.addGlobalAndConstantToGlobal .., _⟩ :: _ => some .incrementGlobal
  | .invoke ⟨.branch _, _⟩ :: _ => some .removeBranchToNext
  | _ => none

/-- What every window of a rule is like, wherever it stands. -/
structure IsWindow (rule : Rule) (w : List Entry) : Prop where
  length : w.length = rule.window
  candidate : ∀ after, candidate? (w ++ after) = some rule
  /-- No window begins at a later entry of this one. -/
  tail : ∀ s, s <:+ w.tail → s ≠ [] → ∀ after, candidate? (s ++ after) = none

theorem isWindow_of_replaces (h : Replaces u rule w r) : rule.IsWindow w := by
  cases h
  all_goals
    refine ⟨rfl, fun _ => rfl, fun s hs hne after => ?_⟩
    simp only [List.tail_cons, List.suffix_cons_iff, List.suffix_nil] at hs
  case incrementGlobal => exact absurd hs hne
  case inlineAssembly | romDataLength | romDataStride | assignConstantToGlobal | copyGlobalToGlobal
      | addGlobalAndConstantToGlobal | removeBranchToNext =>
    rcases hs with rfl | rfl
    · rfl
    · exact absurd rfl hne
  all_goals
    rcases hs with rfl | rfl | rfl
    · rfl
    · rfl
    · exact absurd rfl hne

/-- Only a question for ROM data is ever rejected. -/
theorem of_replacement?_error {err : Error} (h : rule.replacement? u w = .error err) :
    ∃ field type size s i,
      (rule = .romDataLength ∧ w = [.invoke ⟨.pushAddressOfGlobal (.romData field) type size, s⟩,
        .pending (.romDataLengthCall i)]) ∨
      (rule = .romDataStride ∧ w = [.invoke ⟨.pushAddressOfGlobal (.romData field) type size, s⟩,
        .pending (.romDataStrideCall i)]) := by
  cases rule
  case romDataLength =>
    simp only [replacement?, romDataLength?] at h
    split at h
    · split at h
      · cases h
      · rename_i address i _ field hf
        obtain ⟨type, size, s, rfl⟩ := romField?_eq_some hf
        exact ⟨field, type, size, s, i, .inl ⟨rfl, rfl⟩⟩
    · cases h
  case romDataStride =>
    simp only [replacement?, romDataStride?] at h
    split at h
    · split at h
      · cases h
      · rename_i address i _ field hf
        obtain ⟨type, size, s, rfl⟩ := romField?_eq_some hf
        exact ⟨field, type, size, s, i, .inr ⟨rfl, rfl⟩⟩
    · cases h
  all_goals cases h

theorem isWindow_of_error {err : Error} (h : rule.replacement? u w = .error err) :
    rule.IsWindow w := by
  obtain ⟨field, type, size, s, i, ⟨rfl, rfl⟩ | ⟨rfl, rfl⟩⟩ := of_replacement?_error h
  all_goals
    refine ⟨rfl, fun _ => rfl, fun s hs hne after => ?_⟩
    simp only [List.tail_cons, List.suffix_cons_iff, List.suffix_nil] at hs
    rcases hs with rfl | rfl
    · rfl
    · exact absurd rfl hne

/-- What a rule replaces or rejects is one of its windows. -/
theorem isWindow_of_ne (h : rule.replacement? u w ≠ .ok none) : rule.IsWindow w := by
  cases hw : rule.replacement? u w with
  | error err => exact isWindow_of_error hw
  | ok o =>
    cases o with
    | none => exact absurd hw h
    | some r => exact isWindow_of_replaces (replaces_of_replacement? hw)

namespace IsWindow

theorem ne_nil (h : rule.IsWindow w) : w ≠ [] := by
  rintro rfl
  cases h.candidate []

/-- No window begins inside another one. -/
theorem not_inside (h : rule.IsWindow w) (h' : rule'.IsWindow w') {a s after after' : List Entry}
    (ha : a ≠ []) (hs : s ≠ []) (hw : w = a ++ s) : s ++ after ≠ w' ++ after' := by
  intro heq
  have hsuffix : s <:+ w.tail := by
    obtain ⟨x, a, rfl⟩ := List.exists_cons_of_ne_nil ha
    rw [hw]
    exact List.suffix_append a s
  have hnone := h.tail s hsuffix hs after
  rw [heq, h'.candidate after'] at hnone
  cases hnone

/-- Windows at one place are the same. -/
theorem eq_of_append_eq (h : rule.IsWindow w) (h' : rule'.IsWindow w') {after after' : List Entry}
    (heq : w ++ after = w' ++ after') : rule = rule' ∧ w = w' ∧ after = after' := by
  have hrule : rule = rule' := by
    have hc := h.candidate after
    rw [heq, h'.candidate after'] at hc
    exact (Option.some.inj hc).symm
  subst hrule
  exact ⟨rfl, List.append_inj heq (h.length.trans h'.length.symm)⟩

/-- **Two windows of a stream are the same or apart.** -/
theorem same_or_apart (h : rule.IsWindow w) (h' : rule'.IsWindow w')
    {before after before' after' : List Entry}
    (heq : before ++ w ++ after = before' ++ w' ++ after') :
    (rule = rule' ∧ w = w' ∧ before = before' ∧ after = after') ∨
      (∃ mid, before' = before ++ w ++ mid ∧ after = mid ++ w' ++ after') ∨
      (∃ mid, before = before' ++ w' ++ mid ∧ after' = mid ++ w ++ after) := by
  rcases apart_or_inside heq with hapart | hapart | ⟨a, s, hs, hw, hb, hin⟩ | ⟨a, s, hs, hw, hb, hin⟩
  · exact .inr (.inl hapart)
  · exact .inr (.inr hapart)
  · by_cases ha : a = []
    · subst ha
      rw [List.nil_append] at hw
      subst hw
      obtain ⟨hrule, hw, hafter⟩ := h.eq_of_append_eq h' hin
      exact .inl ⟨hrule, hw, by simp [hb], hafter⟩
    · exact absurd hin (h.not_inside h' ha hs hw)
  · by_cases ha : a = []
    · subst ha
      rw [List.nil_append] at hw
      subst hw
      obtain ⟨hrule, hw, hafter⟩ := h'.eq_of_append_eq h hin
      exact .inl ⟨hrule.symm, hw.symm, by simp [hb], hafter.symm⟩
    · exact absurd hin (h'.not_inside h ha hs hw)

end IsWindow

end Rule

namespace Peephole

variable {u : Universe} {rules : List Rule} {es es' out : List Entry}

/-! ### Replacements at two places -/

theorem Rewrites.mono {rules' : List Rule} (hr : rules ⊆ rules') (h : Rewrites u rules es es') :
    Rewrites u rules' es es' := by
  obtain ⟨before, after, hrule, hw⟩ := h
  exact .intro before after (hr hrule) hw

theorem weight_of_rewrites (h : Rewrites u rules es es') : Rule.weight es' < Rule.weight es := by
  obtain ⟨before, after, _, hw⟩ := h
  have hlt := Rule.weight_of_replacement (Rule.replaces_iff.1 hw)
  simp only [Rule.weight_append]
  omega

/-- The same two replacements in either order. -/
theorem rewrites_both {before mid after : List Entry} {rule rule' : Rule} {w r w' r' : List Entry}
    (hr : rule ∈ rules) (hr' : rule' ∈ rules) (h : rule.Replaces u w r)
    (h' : rule'.Replaces u w' r') :
    Rewrites u rules (before ++ r ++ (mid ++ w' ++ after)) (before ++ r ++ mid ++ r' ++ after) ∧
      Rewrites u rules (before ++ w ++ mid ++ r' ++ after) (before ++ r ++ mid ++ r' ++ after) := by
  have hsecond := Rewrites.intro (before ++ r ++ mid) after hr' h'
  have hfirst := Rewrites.intro before (mid ++ r' ++ after) hr h
  simp only [List.append_assoc] at hfirst hsecond ⊢
  exact ⟨hsecond, hfirst⟩

/-- **Two replacements in one stream lead to one stream again.** -/
theorem diamond {a b : List Entry} (ha : Rewrites u rules es a) (hb : Rewrites u rules es b) :
    a = b ∨ ∃ c, Rewrites u rules a c ∧ Rewrites u rules b c := by
  obtain @⟨before, after, rule, w, r, hr, hw⟩ := ha
  generalize hes : before ++ w ++ after = es at hb
  obtain @⟨before', after', rule', w', r', hr', hw'⟩ := hb
  rcases (Rule.isWindow_of_replaces hw).same_or_apart (Rule.isWindow_of_replaces hw') hes with
    ⟨rfl, rfl, rfl, rfl⟩ | ⟨mid, rfl, rfl⟩ | ⟨mid, rfl, rfl⟩
  · have hsame : r = r' := by
      have heq := (Rule.replaces_iff.1 hw).symm.trans (Rule.replaces_iff.1 hw')
      cases heq
      rfl
    exact .inl (by rw [hsame])
  · exact .inr ⟨_, rewrites_both hr hr' hw hw'⟩
  · exact .inr ⟨_, (rewrites_both hr' hr hw' hw).symm⟩

/-- Whatever comes from one stream leads to one stream again. -/
theorem join_of_reflTransGen {a b : List Entry} (ha : Relation.ReflTransGen (Rewrites u rules) es a)
    (hb : Relation.ReflTransGen (Rewrites u rules) es b) :
    Relation.Join (Relation.ReflTransGen (Rewrites u rules)) a b := by
  refine Relation.church_rosser (fun es a b ha hb => ?_) ha hb
  rcases diamond ha hb with rfl | ⟨c, hac, hbc⟩
  · exact ⟨a, .refl, .refl⟩
  · exact ⟨c, .single hac, .single hbc⟩

/-! ### Windows that are rejected -/

/-- One of the rules rejects a window of the stream with this error. -/
def Faulty (u : Universe) (rules : List Rule) (err : Error) (es : List Entry) : Prop :=
  ∃ before w after, ∃ rule ∈ rules,
    es = before ++ w ++ after ∧ rule.replacement? u w = .error err

variable {err : Error}

theorem Faulty.mono {rules' : List Rule} (hr : rules ⊆ rules') (h : Faulty u rules err es) :
    Faulty u rules' err es := by
  obtain ⟨before, w, after, rule, hrule, heq, hw⟩ := h
  exact ⟨before, w, after, rule, hr hrule, heq, hw⟩

theorem Faulty.around (h : Faulty u rules err es) (before after : List Entry) :
    Faulty u rules err (before ++ es ++ after) := by
  obtain ⟨before', w, after', rule, hrule, rfl, hw⟩ := h
  exact ⟨before ++ before', w, after' ++ after, rule, hrule, by simp, hw⟩

theorem faulty_of_error {rule : Rule} {w : List Entry} (hr : rule ∈ rules)
    (hw : rule.replacement? u w = .error err) : Faulty u rules err w :=
  ⟨[], w, [], rule, hr, by simp, hw⟩

/-- Nothing that a rule puts into a stream can be a part of a window that is rejected. -/
theorem notMem_of_error {rule rule' : Rule} {w w' r : List Entry} (h : rule.Replaces u w r)
    (h' : rule'.replacement? u w' = .error err) : r ≠ [] ∧ ∀ e ∈ r, e ∉ w' := by
  obtain ⟨field, type, size, s, i, ⟨-, rfl⟩ | ⟨-, rfl⟩⟩ := Rule.of_replacement?_error h'
  all_goals cases h <;> simp

/-- **A replacement neither makes nor removes a window that is rejected**, whether the rules that
replace are those that reject or not. -/
theorem faulty_iff_of_rewrites {rules' : List Rule} (h : Rewrites u rules es es') :
    Faulty u rules' err es ↔ Faulty u rules' err es' := by
  obtain @⟨before, after, rule, w, r, hr, hw⟩ := h
  constructor
  · rintro ⟨before', w', after', rule', hr', heq, hw'⟩
    rcases (Rule.isWindow_of_replaces hw).same_or_apart (Rule.isWindow_of_error hw') heq with
      ⟨rfl, rfl, -, -⟩ | ⟨mid, rfl, rfl⟩ | ⟨mid, rfl, rfl⟩
    · rw [Rule.replaces_iff.1 hw] at hw'
      cases hw'
    · simpa using (faulty_of_error hr' hw').around (before ++ r ++ mid) after'
    · simpa using (faulty_of_error hr' hw').around before' (mid ++ r ++ after)
  · rintro ⟨before', w', after', rule', hr', heq, hw'⟩
    obtain ⟨hne, hdisjoint⟩ := notMem_of_error hw hw'
    rcases apart_of_disjoint heq hne (Rule.isWindow_of_error hw').ne_nil hdisjoint with
      ⟨mid, rfl, rfl⟩ | ⟨mid, rfl, rfl⟩
    · simpa using (faulty_of_error hr' hw').around (before ++ w ++ mid) after'
    · simpa using (faulty_of_error hr' hw').around before' (mid ++ w ++ after)

theorem faulty_iff_of_reflTransGen {rules' : List Rule}
    (h : Relation.ReflTransGen (Rewrites u rules) es es') :
    Faulty u rules' err es ↔ Faulty u rules' err es' := by
  induction h with
  | refl => exact Iff.rfl
  | tail _ hstep ih => exact ih.trans (faulty_iff_of_rewrites hstep)

/-- A sweep fails only on a stream with a window that its rule rejects. -/
theorem faulty_of_sweep {rule : Rule} (hr : rule ∈ rules) (h : sweep u rule es = .error err) :
    Faulty u rules err es := by
  fun_induction sweep u rule es with
  | case1 => cases h
  | case2 e es err' hw =>
    cases h
    simpa using (faulty_of_error hr hw).around [] ((e :: es).drop rule.window)
  | case3 e es r hw ih =>
    have hstep := Rewrites.intro [] ((e :: es).drop rule.window) hr
      (Rule.replaces_of_replacement? hw)
    simp only [List.nil_append, List.take_append_drop] at hstep
    exact (faulty_iff_of_rewrites hstep).2 (ih h)
  | case4 e es _ ih =>
    cases hrest : sweep u rule es with
    | ok rest =>
      rw [hrest] at h
      cases h
    | error err' =>
      rw [hrest] at h
      cases h
      simpa using (ih hrest).around [e] []

theorem faulty_of_pass {active : List Rule} (hr : active ⊆ rules)
    (h : pass u active es = .error err) : Faulty u rules err es := by
  induction active generalizing es with
  | nil => cases h
  | cons rule active ih =>
    rw [List.cons_subset] at hr
    rw [pass, Cursor.sweep_eq] at h
    cases hs : sweep u rule es with
    | error err' =>
      rw [hs] at h
      cases h
      exact faulty_of_sweep hr.1 hs
    | ok mid =>
      simp only [hs, Except.map, List.reverse_nil, List.nil_append] at h
      exact (faulty_iff_of_reflTransGen (reflTransGen_of_sweep hr.1 hs)).2 (ih hr.2 h)

theorem faulty_of_normalize (h : normalize u rules es = .error err) : Faulty u rules err es := by
  fun_induction normalize u rules es with
  | case1 es err' hpass =>
    cases h
    rw [EntryList.pass_eq] at hpass
    exact faulty_of_pass (List.Subset.refl _) hpass
  | case2 => cases h
  | case3 es mid hpass _ ih =>
    rw [EntryList.pass_eq] at hpass
    exact (faulty_iff_of_reflTransGen (reflTransGen_of_pass (List.Subset.refl _) hpass)).2 (ih h)

/-! ### Where passes end -/

/-- No rule replaces or rejects a window of the stream. -/
def Settled (u : Universe) (rules : List Rule) (es : List Entry) : Prop :=
  ∀ before w after, es = before ++ w ++ after → ∀ rule ∈ rules, rule.replacement? u w = .ok none

/-- A sweep that changes nothing has found nothing to replace. -/
theorem replacement?_of_sweep {rule : Rule} (h : sweep u rule es = .ok es) {before after : List Entry}
    {e : Entry} (hes : es = before ++ e :: after) :
    rule.replacement? u ((e :: after).take rule.window) = .ok none := by
  fun_induction sweep u rule es generalizing before with
  | case1 => simp at hes
  | case2 => cases h
  | case3 e' es r hw ih =>
    have hlt := Rule.weight_replace_lt hw
    rcases eq_or_weight_of_sweep h with heq | hle
    · rw [← heq] at hlt
      exact absurd hlt (Nat.lt_irrefl _)
    · exact absurd hlt (Nat.lt_asymm hle)
  | case4 e' es hw ih =>
    obtain ⟨rest, hrest, heq⟩ := map_eq_ok.1 h
    cases heq
    cases before with
    | nil =>
      cases hes
      exact hw
    | cons b before =>
      cases hes
      exact ih hrest rfl

/-- A pass that changes nothing consists of sweeps that change nothing. -/
theorem sweep_of_pass (h : pass u rules es = .ok es) {rule : Rule} (hr : rule ∈ rules) :
    sweep u rule es = .ok es := by
  induction rules with
  | nil => cases hr
  | cons first rules ih =>
    rw [pass, Cursor.sweep_eq] at h
    cases hs : sweep u first es with
    | error err => simp [hs, Except.map] at h
    | ok mid =>
      simp only [hs, Except.map, List.reverse_nil, List.nil_append] at h
      have hmid : mid = es := by
        rcases eq_or_weight_of_sweep hs with heq | hlt
        · exact heq
        · rcases eq_or_weight_of_pass h with heq | hlt'
          · exact heq.symm
          · omega
      subst hmid
      rcases List.mem_cons.1 hr with rfl | hr
      · exact hs
      · exact ih h hr

theorem pass_of_normalize (h : normalize u rules es = .ok out) : pass u rules out = .ok out := by
  fun_induction normalize u rules es with
  | case1 => cases h
  | case2 es hpass =>
    cases h
    rwa [EntryList.pass_eq] at hpass
  | case3 es mid hpass _ ih => exact ih h

/-- **Passes end where no rule replaces or rejects anything.** -/
theorem settled_of_normalize (h : normalize u rules es = .ok out) : Settled u rules out := by
  intro before w after heq rule hr
  by_contra hne
  have hw := Rule.isWindow_of_ne hne
  obtain ⟨e, t, rfl⟩ := List.exists_cons_of_ne_nil hw.ne_nil
  have hplace : out = before ++ e :: (t ++ after) := by rw [heq, List.append_assoc, List.cons_append]
  have hnone := replacement?_of_sweep (sweep_of_pass (pass_of_normalize h) hr) hplace
  rw [← hw.length, ← List.cons_append, List.take_left] at hnone
  exact hne hnone

theorem Settled.not_rewrites (h : Settled u rules es) : ¬ Rewrites u rules es es' := by
  intro hstep
  generalize hes : es = t at hstep
  obtain ⟨before, after, hr, hw⟩ := hstep
  have hnone := h before _ after hes _ hr
  rw [Rule.replaces_iff.1 hw] at hnone
  cases hnone

theorem Settled.not_faulty (h : Settled u rules es) : ¬ Faulty u rules err es := by
  rintro ⟨before, w, after, rule, hr, heq, hw⟩
  have hnone := h before w after heq rule hr
  rw [hw] at hnone
  cases hnone

theorem eq_of_reflTransGen {r : List Entry → List Entry → Prop} {a b : List Entry}
    (ha : ∀ c, ¬ r a c) (h : Relation.ReflTransGen r a b) : b = a := by
  rcases h.cases_head with heq | ⟨c, hac, -⟩
  · exact heq.symm
  · exact absurd hac (ha c)

/-- Passes succeed exactly on streams without a window that is rejected. -/
theorem exists_normalize_iff :
    (∃ out, normalize u rules es = .ok out) ↔ ∀ err, ¬ Faulty u rules err es := by
  constructor
  · rintro ⟨out, h⟩ err
    rw [faulty_iff_of_reflTransGen (reflTransGen_of_normalize h)]
    exact (settled_of_normalize h).not_faulty
  · intro h
    cases hn : normalize u rules es with
    | ok out => exact ⟨out, rfl⟩
    | error err => exact absurd (faulty_of_normalize hn) (h err)

/-! ### Maximal sequences of replacements -/

/-- One step: a window anywhere in a stream is replaced by what one of the rules returns for it. -/
def Step (u : Universe) (rules : List Rule) (es es' : List Entry) : Prop :=
  ∃ before w after, ∃ rule ∈ rules, ∃ r, es = before ++ w ++ after ∧
    rule.replacement? u w = .ok (some r) ∧ es' = before ++ r ++ after

theorem step_eq_rewrites : Step u rules = Rewrites u rules := by
  ext es es'
  constructor
  · rintro ⟨before, w, after, rule, hr, r, rfl, hw, rfl⟩
    exact .intro before after hr (Rule.replaces_iff.2 hw)
  · rintro @⟨before, after, rule, w, r, hr, hw⟩
    exact ⟨before, w, after, rule, hr, r, rfl, Rule.replaces_iff.1 hw, rfl⟩

/-- What has no further step after a sequence of steps is what passes return. -/
theorem eq_of_settled (h : normalize u rules es = .ok out)
    (hes' : Relation.ReflTransGen (Rewrites u rules) es es')
    (hend : ∀ next, ¬ Rewrites u rules es' next) : es' = out := by
  obtain ⟨c, hc, hc'⟩ := join_of_reflTransGen hes' (reflTransGen_of_normalize h)
  rw [← eq_of_reflTransGen hend hc,
    eq_of_reflTransGen (fun _ => (settled_of_normalize h).not_rewrites) hc']

/-- Neither the result nor the success of passes depends on the order of the rules. -/
theorem normalize_congr {table : List Rule} (htable : ∀ rule, rule ∈ table ↔ rule ∈ rules)
    (h : normalize u rules es = .ok out) : normalize u table es = .ok out := by
  have hto : table ⊆ rules := fun rule hr => (htable rule).1 hr
  have hfrom : rules ⊆ table := fun rule hr => (htable rule).2 hr
  have hfault : ∀ err, ¬ Faulty u table err es := fun err hf =>
    exists_normalize_iff.1 ⟨out, h⟩ err (hf.mono hto)
  obtain ⟨out', hout'⟩ := exists_normalize_iff.2 hfault
  have hsteps : Relation.ReflTransGen (Rewrites u rules) es out' :=
    Relation.ReflTransGen.mono (fun _ _ => Rewrites.mono hto) _ _ (reflTransGen_of_normalize hout')
  have hend : ∀ next, ¬ Rewrites u rules out' next := fun next hstep =>
    (settled_of_normalize hout').not_rewrites (hstep.mono hfrom)
  rw [hout', eq_of_settled h hsteps hend]

/-- **Replacements end in one stream, whatever their order.** If no rule fails during the passes of
the active rules, then there is no infinite sequence of steps, every sequence that can not be
continued ends in what the passes return, this is the end of such a sequence, and the passes of the
same rules in another order return it too. -/
theorem eq_of_maximal {ctx : Context} {es out : List Entry}
    (h : normalize ctx.program (Peephole.rules ctx.options) es = .ok out) :
    (¬ ∃ run : Nat → List Entry, run 0 = es ∧
        ∀ n, Step ctx.program (Peephole.rules ctx.options) (run n) (run (n + 1))) ∧
      (∀ es', Relation.ReflTransGen (Step ctx.program (Peephole.rules ctx.options)) es es' →
        (∀ next, ¬ Step ctx.program (Peephole.rules ctx.options) es' next) → es' = out) ∧
      Relation.ReflTransGen (Step ctx.program (Peephole.rules ctx.options)) es out ∧
      (∀ next, ¬ Step ctx.program (Peephole.rules ctx.options) out next) ∧
      ∀ table, (∀ rule, rule ∈ table ↔ rule ∈ Peephole.rules ctx.options) →
        normalize ctx.program table es = .ok out := by
  rw [step_eq_rewrites]
  refine ⟨?_, fun es' => eq_of_settled h, reflTransGen_of_normalize h,
    fun next => (settled_of_normalize h).not_rewrites, fun table htable => normalize_congr htable h⟩
  rintro ⟨run, -, hrun⟩
  -- Every step makes the stream lighter, so that there are no more steps than the first one weighs.
  have hbound : ∀ n, Rule.weight (run n) + n ≤ Rule.weight (run 0) := by
    intro n
    induction n with
    | zero => exact Nat.le_refl _
    | succ n ih =>
      have hlt := weight_of_rewrites (hrun n)
      omega
  have hlast := hbound (Rule.weight (run 0) + 1)
  omega

/-- The last element of data in ROM, at an index that a rule has to find first, and an increment
that three rules make one after the other. -/
theorem eq_of_maximal_element :
    let data : Member := ⟨⟨"Game"⟩, "data"⟩
    let score : Label := .global ⟨⟨"Game"⟩, "score"⟩
    let ctx : Context := ⟨⟨[{ name := "Game", types :=
      [{ name := .byte, primitiveSize := some 1 },
       { name := ⟨"Game"⟩, fields :=
         [{ name := "data", type := .byte, isStatic := true, romData := some ⟨.byte, [5, 6]⟩ }] }] }]⟩,
      {}⟩
    let address : Entry := .synthetic (.pushAddressOfGlobal (.romData data) (.pointerType .byte)
      (.pointerSize .long))
    let i : Instruction := ⟨0, .call, .absent⟩
    let es : List Entry :=
      [address, address, .pending (.romDataLengthCall i), .pending (.romDataGetterCall i),
       .synthetic (.pushGlobal score (.type .byte) (.size .byte)),
       .synthetic (.pushConstant (.byte 1) (.type .byte) (.size .byte)),
       .synthetic .addFromStack, .synthetic (.popToGlobal score (.type .byte) (.size .byte))]
    let out : List Entry :=
      [.invoke ⟨.pushAddressOfRomElement (.romData data) (.pointerType .byte) (.pointerSize .long)
         (.byte 2), [i, i]⟩,
       .synthetic (.incrementGlobal score (.type .byte) (.size .byte))]
    normalize ctx.program (Peephole.rules ctx.options) es = .ok out ∧
      ∀ es', Relation.ReflTransGen (Step ctx.program (Peephole.rules ctx.options)) es es' →
        (∀ next, ¬ Step ctx.program (Peephole.rules ctx.options) es' next) → es' = out := by
  intro data score ctx address i es out
  have h : normalize ctx.program (Peephole.rules ctx.options) es = .ok out := by decide +kernel
  exact ⟨h, (eq_of_maximal h).2.1⟩

end Peephole

end Cartridge
