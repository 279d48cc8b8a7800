import Cartridge.Proofs.Resolution
import Cartridge.Proofs.StackArrays
import Cartridge.Proofs.Values

/-!
# What is asked of a stream

A stream becomes a routine of a program if its stack can be tracked and its types can be numbered:

* nothing may be taken from a model of the stack that has no slots, and the model has as many as the
  stack ever gets, up to `maxWidth` (`StackModel.exists_track_iff`);
* every type that is referred to must have a size (`Resolution.exists_assignTypes_iff`).

Optional rules make the stack lower and drop references, so that either may depend on them. The
types do not if the pointers among the variables that a stream refers to point to types that have a
size (`Peephole.KnownPointees`): alike streams then pass or fail together
(`Peephole.Alike.sized_iff`).
-/

namespace Cartridge

/-! ### The stack -/

namespace StackModel

variable {ops : List MacroOp} {op : MacroOp}

theorem length_slots_drop (m : StackModel) (hm : m.slots ≠ []) (n : Nat) :
    (m.drop n).slots.length = m.slots.length := by
  induction n generalizing m with
  | zero => rfl
  | succ n ih =>
    have hpos := List.length_pos_iff.2 hm
    rw [drop, ih _ (by simp)]
    simp only [List.length_append, List.length_tail, List.length_singleton]
    omega

/-- A model with slots can follow every macro, one without slots only those that take and push
nothing. -/
theorem exists_apply_iff (width : Nat) (op : MacroOp) :
    (∃ after, (placeholders width).apply op = .ok after) ↔
      (width = 0 → op.effect.pops = 0 ∧ op.effect.pushes = 0) := by
  have hempty : (placeholders width).slots.isEmpty = true ↔ width = 0 := by
    rw [List.isEmpty_iff, ← List.length_eq_zero_iff, length_placeholders]
  rw [MacroOp.pushes_eq_length]
  unfold apply pop
  by_cases hwidth : width = 0
  · subst hwidth
    by_cases hpops : op.effect.pops = 0
    · rw [if_neg fun h => h.1 hpops, hpops]
      cases op.pushed? <;> simp [bind, Except.bind, pure, Except.pure, drop, push, hempty]
    · rw [if_pos ⟨hpops, hempty.2 rfl⟩]
      simp [bind, Except.bind, hpops]
  · have hslots : (placeholders width).slots ≠ [] := fun h => hwidth (hempty.1 (by rw [h]; rfl))
    have hdrop : ((placeholders width).drop op.effect.pops).slots.isEmpty = false := by
      rw [List.isEmpty_eq_false_iff, ← List.length_pos_iff, length_slots_drop _ hslots,
        List.length_pos_iff]
      exact hslots
    rw [if_neg fun h => hwidth (hempty.1 h.2)]
    cases op.pushed? <;> simp [bind, Except.bind, pure, Except.pure, push, hdrop, hwidth]

theorem pushes_le_maxDepthFrom (depth : Nat) (h : op ∈ ops) :
    op.effect.pushes ≤ maxDepthFrom depth ops := by
  induction ops generalizing depth with
  | nil => cases h
  | cons first ops ih =>
    rw [maxDepthFrom]
    rcases List.mem_cons.1 h with rfl | h
    · have hafter := Interpretation.le_maxDepthFrom (depthAfter depth op) ops
      unfold depthAfter at hafter ⊢
      omega
    · exact Nat.le_trans (ih _ h) (Nat.le_max_right ..)

/-- **A stream can be tracked** iff the stack is not too deep, and nothing is taken from a stack
that never holds anything. -/
theorem exists_track_iff (es : List Entry) :
    (∃ out, track es = .ok out) ↔ maxDepth es ≤ maxWidth ∧
      (maxDepth es = 0 → ∀ op ∈ es.filterMap (·.op?), op.effect.pops = 0) := by
  have hannotate : ∀ e, (∃ piece, (placeholders (maxDepth es)).annotate e = .ok piece) ↔
      ∀ op, e.op? = some op → ∃ after, (placeholders (maxDepth es)).apply op = .ok after := by
    intro e
    unfold annotate
    cases e.op? with
    | none => simp
    | some op =>
      refine exists_bind_pure_iff.trans ?_
      simp
  have hpieces : (∃ pieces, es.mapM (placeholders (maxDepth es)).annotate = .ok pieces) ↔
      (maxDepth es = 0 → ∀ op ∈ es.filterMap (·.op?), op.effect.pops = 0) := by
    simp only [exists_mapM_iff, hannotate, exists_apply_iff, List.mem_filterMap]
    constructor
    · rintro h hdepth op ⟨e, he, hop⟩
      exact (h e he op hop hdepth).1
    · intro h e he op hop hdepth
      -- A stack that stays empty is not pushed to.
      have hpushes := pushes_le_maxDepthFrom 0 (List.mem_filterMap.2 ⟨e, he, hop⟩)
      exact ⟨h hdepth op ⟨e, he, hop⟩, Nat.le_zero.1 (hdepth ▸ hpushes)⟩
  rw [← hpieces]
  unfold track ofWidth
  by_cases hwidth : maxDepth es ≤ maxWidth
  · rw [if_pos hwidth]
    exact exists_bind_pure_iff.trans (and_iff_right hwidth).symm
  · rw [if_neg hwidth]
    exact iff_of_false (fun ⟨_, h⟩ => nomatch h) fun h => hwidth h.1

end StackModel

/-! ### Types -/

/-- The type has a size. -/
def Universe.HasSize (u : Universe) (t : TypeName) : Prop := ∃ n, sizeOf u t = .ok n

instance Universe.decidableHasSize (u : Universe) (t : TypeName) : Decidable (u.HasSize t) :=
  match h : sizeOf u t with
  | .ok n => .isTrue ⟨n, h⟩
  | .error _ => .isFalse fun ⟨_, hn⟩ => nomatch h.symm.trans hn

/-- The types that are numbered in every program have a size. -/
def Universe.HasBuiltIns (u : Universe) : Prop :=
  ∀ t ∈ [TypeName.byte, .boolean, .nothing], u.HasSize t

/-- If the label is the number or the size of a type, then the type has a size. -/
def Label.Sized (u : Universe) (l : Label) : Prop :=
  ∀ t, l.describedType? = some t → u.HasSize t

namespace Label

variable {u : Universe} {types : List TypeName} {type size : Label}

theorem sized_of_describedType? {l : Label} (h : l.describedType? = none) : l.Sized u := by
  intro t ht
  rw [h] at ht
  cases ht

theorem sized_iff_of_describedType? {l : Label} {t : TypeName} (h : l.describedType? = some t) :
    l.Sized u ↔ u.HasSize t := by
  simp [Sized, h]

theorem sized_of_isPosition {l : Label} (h : l.isPosition = true) : l.Sized u := by
  cases l <;> first | exact sized_of_describedType? rfl | cases h

theorem DescribeByte.sized (hbyte : u.HasSize .byte) (h : DescribeByte type size) :
    type.Sized u ∧ size.Sized u := by
  obtain ⟨rfl, rfl⟩ := h
  have helement : TypeName.byte.elementType = .byte := by decide
  rw [sized_iff_of_describedType? (l := .type .byte) rfl,
    sized_iff_of_describedType? (l := .size .byte) rfl, helement]
  exact ⟨hbyte, hbyte⟩

/-- Only of a pointer does the type refer to more than the size. -/
theorem DescribeVariable.sized_iff
    (hu : ∀ t ∈ types, t.isPointer = true → u.HasSize t.elementType)
    (h : DescribeVariable types type size) : type.Sized u ↔ size.Sized u := by
  obtain ⟨t, ht, rfl, rfl⟩ := h
  unfold typeOf sizeOf
  by_cases hp : t.isPointer = true
  · rw [if_pos hp, if_pos hp, sized_iff_of_describedType? (l := .pointerType t.elementType) rfl,
      TypeName.elementType_elementType]
    exact iff_of_true (hu t ht hp) (sized_of_describedType? rfl)
  · rw [if_neg hp, if_neg hp]
    exact Iff.rfl

end Label

namespace Resolution

theorem exists_assignTypes_iff {u : Universe} {refs : List Label} :
    (∃ entries, assignTypes u refs = .ok entries) ↔
      u.HasBuiltIns ∧ ∀ l ∈ refs, l.Sized u := by
  have htype : ∀ t n, (∃ entries, assignType u t n = .ok entries) ↔ u.HasSize t := by
    intro t n
    exact exists_bind_pure_iff
  have hall : (∃ entries, assignTypes u refs = .ok entries) ↔ ∀ t ∈ numbered refs, u.HasSize t := by
    refine exists_bind_pure_iff.trans (exists_mapM_iff.trans ?_)
    simp only [htype]
    rw [← List.forall_mem_map, List.zipIdx_map_fst]
  simp only [hall, numbered, List.mem_eraseDups, List.forall_mem_append, List.mem_filterMap,
    Label.Sized, Universe.HasBuiltIns, forall_exists_index, and_imp]
  exact and_congr_right fun _ =>
    ⟨fun h l hl t ht => h t l hl ht, fun h t l hl ht => h l hl t ht⟩

end Resolution

/-! ### Alike streams -/

namespace Peephole

variable {u : Universe} {es es' : List Entry}

/-- Every type that the stream refers to has a size. -/
def Sized (u : Universe) (es : List Entry) : Prop := ∀ e ∈ es, ∀ l ∈ e.labels, l.Sized u

theorem sized_append {as bs : List Entry} : Sized u (as ++ bs) ↔ Sized u as ∧ Sized u bs :=
  List.forall_mem_append

/-- What the pointers among the variables that the stream refers to point to has a size. -/
def KnownPointees (u : Universe) (es : List Entry) : Prop :=
  ∀ e ∈ es, ∀ t ∈ e.variableTypes u, t.isPointer = true → u.HasSize t.elementType

instance decidableKnownPointees (u : Universe) (es : List Entry) :
    Decidable (KnownPointees u es) :=
  inferInstanceAs
    (Decidable (∀ e ∈ es, ∀ t ∈ e.variableTypes u, t.isPointer = true → u.HasSize t.elementType))

theorem knownPointees_append {as bs : List Entry} :
    KnownPointees u (as ++ bs) ↔ KnownPointees u as ∧ KnownPointees u bs :=
  List.forall_mem_append

/-- An optional rule refers to no new variables. -/
theorem variableTypes_of_replaces {rule : Rule} {w r : List Entry} (hr : rule ∈ Rule.optional)
    (h : rule.Replaces u w r) :
    ∀ e ∈ r, ∀ t ∈ e.variableTypes u, ∃ e' ∈ w, t ∈ e'.variableTypes u := by
  have hlabels : ∀ e ∈ r, e.labels ⊆ w.flatMap (·.labels) := by
    cases h
    all_goals first | exact absurd hr (by decide) | skip
    all_goals simp [Entry.labels, MacroOp.labels]
  have hsources : ∀ e ∈ r, e.sources ⊆ w.flatMap (·.sources) := by
    cases h
    all_goals first | exact absurd hr (by decide) | skip
    all_goals simp [Entry.sources]
  intro e he t ht
  rcases Entry.mem_variableTypes_iff.1 ht with ⟨l, hl, ht⟩ | ⟨i, hi, m, hm, ht⟩
  · obtain ⟨e', he', hl⟩ := List.mem_flatMap.1 (hlabels e he hl)
    exact ⟨e', he', Entry.mem_variableTypes_of_label hl ht⟩
  · obtain ⟨e', he', hi⟩ := List.mem_flatMap.1 (hsources e he hi)
    exact ⟨e', he', Entry.mem_variableTypes_of_source hi hm ht⟩

theorem KnownPointees.of_optional (h : KnownPointees u es) (hr : Rewrites u Rule.optional es es') :
    KnownPointees u es' := by
  obtain @⟨before, after, rule, w, r, hr, hw⟩ := hr
  rw [knownPointees_append, knownPointees_append] at h ⊢
  refine ⟨⟨h.1.1, fun e he t ht => ?_⟩, h.2⟩
  obtain ⟨e', he', ht⟩ := variableTypes_of_replaces hr hw e he t ht
  exact h.1.2 e' he' t ht

theorem sized_iff_of_replaces (hbyte : u.HasSize .byte) {rule : Rule} {w r : List Entry}
    (hr : rule ∈ Rule.optional) (h : rule.Replaces u w r) (hw : Described u w)
    (hknown : KnownPointees u w) : Sized u r ↔ Sized u w := by
  cases h
  all_goals first | exact absurd hr (by decide) | skip
  all_goals
    simp only [Described, KnownPointees, List.forall_mem_cons, List.not_mem_nil, false_imp_iff,
      implies_true, and_true, Entry.Described, MacroOp.Described] at hw hknown
    simp only [Sized, List.forall_mem_cons, List.not_mem_nil, false_imp_iff, implies_true,
      and_true, Entry.labels, MacroOp.labels]
  case assignConstantToGlobal =>
    have hconstant := hw.1.sized hbyte
    have hvariable := hw.2.sized_iff hknown.2
    tauto
  case copyGlobalToGlobal =>
    have hsource := hw.1.sized_iff hknown.1
    have htarget := hw.2.sized_iff hknown.2
    tauto
  case addGlobalFirst | addConstantFirst | addGlobalAndConstantToGlobal => tauto
  case incrementGlobal =>
    have hvariable := hw.1.sized_iff hknown
    have hconstant := hw.2.1.sized hbyte
    have htarget := hw.2.2.sized_iff hknown
    tauto
  case removeBranchToNext => exact iff_of_true trivial (Label.sized_of_isPosition hw)

theorem sized_iff_of_optional (hbyte : u.HasSize .byte) (hes : Described u es)
    (hknown : KnownPointees u es) (h : Rewrites u Rule.optional es es') :
    Sized u es' ↔ Sized u es := by
  obtain @⟨before, after, rule, w, r, hr, hw⟩ := h
  rw [described_append, described_append] at hes
  rw [knownPointees_append, knownPointees_append] at hknown
  simp only [sized_append, sized_iff_of_replaces hbyte hr hw hes.1.2 hknown.1.2]

/-- **Alike streams refer to types without a size alike.** -/
theorem Alike.sized_iff (hbyte : u.HasSize .byte) (h : Alike u es es')
    (hes : Described u es ∧ KnownPointees u es) (hes' : Described u es' ∧ KnownPointees u es') :
    Sized u es ↔ Sized u es' :=
  iff_of_eq <| h.congr (P := fun es => Described u es ∧ KnownPointees u es)
    (fun _ _ ha hstep => ⟨ha.1.of_rewrites hstep, ha.2.of_optional hstep⟩)
    (fun _ _ ha hstep => propext (sized_iff_of_optional hbyte ha.1 ha.2 hstep)) hes hes'

end Peephole

end Cartridge
