import Cartridge.Proofs.Peephole.Confluence

/-!
# Rules that are switched off

Two streams are `Alike` if optional rules lead from both to one stream. What is left of alike streams
is alike, whichever optional rules run (`Alike.optimize`): the mandatory rules replace the same
windows in both, since an optional rule puts nothing into a stream that a mandatory rule could
replace or reject.
-/

namespace Cartridge.Peephole

variable {u : Universe} {rules : List Rule} {es es' out out' : List Entry} {err : Error}

theorem Rewrites.around (h : Rewrites u rules es es') (before after : List Entry) :
    Rewrites u rules (before ++ es ++ after) (before ++ es' ++ after) := by
  obtain @⟨before', after', rule, w, r, hr, hw⟩ := h
  have hstep := Rewrites.intro (before ++ before') (after' ++ after) hr hw
  simpa only [List.append_assoc] using hstep

theorem reflTransGen_around (h : Relation.ReflTransGen (Rewrites u rules) es es')
    (before after : List Entry) :
    Relation.ReflTransGen (Rewrites u rules) (before ++ es ++ after) (before ++ es' ++ after) :=
  Relation.ReflTransGen.lift (fun es => before ++ es ++ after)
    (fun _ _ hs => hs.around before after) _ _ h

/-! ### Optional rules keep out of the way of the mandatory ones -/

theorem mandatory_subset_rules (o : Options) : Rule.mandatory ⊆ Peephole.rules o :=
  List.subset_append_left _ _

theorem rules_subset (o : Options) : Peephole.rules o ⊆ Rule.mandatory ++ Rule.optional :=
  List.append_subset.2 ⟨List.subset_append_left _ _,
    List.Subset.trans List.filter_sublist.subset (List.subset_append_right _ _)⟩

/-- Whether an optional rule may put the entry into a stream. -/
def isFusion : Entry → Bool
  | .label _ | .invoke ⟨.assignConstantToGlobal .., _⟩ | .invoke ⟨.copyGlobalToGlobal .., _⟩
  | .invoke ⟨.addGlobalAndConstant .., _⟩ | .invoke ⟨.addGlobalAndConstantToGlobal .., _⟩
  | .invoke ⟨.incrementGlobal .., _⟩ => true
  | _ => false

theorem isFusion_of_optional {rule : Rule} {w r : List Entry} (hr : rule ∈ Rule.optional)
    (h : rule.Replaces u w r) : r ≠ [] ∧ ∀ e ∈ r, isFusion e = true := by
  cases h
  all_goals first | exact absurd hr (by decide) | simp [isFusion]

theorem isFusion_of_mandatory {rule : Rule} {w r : List Entry} (hr : rule ∈ Rule.mandatory)
    (h : rule.Replaces u w r) : ∀ e ∈ w, isFusion e = false := by
  cases h
  all_goals first | exact absurd hr (by decide) | simp [isFusion]

/-- Optional rules make no window for a mandatory one. -/
theorem not_mandatory_of_optional (h : Rewrites u Rule.optional es es')
    (hes : ∀ next, ¬ Rewrites u Rule.mandatory es next) :
    ∀ next, ¬ Rewrites u Rule.mandatory es' next := by
  intro next hnext
  obtain @⟨before, after, rule, w, r, hr, hw⟩ := h
  generalize heq : before ++ r ++ after = es' at hnext
  obtain @⟨before', after', rule', w', r', hr', hw'⟩ := hnext
  obtain ⟨hne, hfusion⟩ := isFusion_of_optional hr hw
  have hdisjoint : ∀ e ∈ r, e ∉ w' := fun e he he' => by
    have hno := isFusion_of_mandatory hr' hw' e he'
    rw [hfusion e he] at hno
    cases hno
  rcases apart_of_disjoint heq hne (Rule.isWindow_of_replaces hw').ne_nil hdisjoint with
    ⟨mid, rfl, rfl⟩ | ⟨mid, rfl, rfl⟩
  · refine hes (before ++ w ++ (mid ++ r' ++ after')) ?_
    simpa using Rewrites.intro (before ++ w ++ mid) after' hr' hw'
  · refine hes (before' ++ r' ++ (mid ++ w ++ after)) ?_
    simpa using Rewrites.intro before' (mid ++ w ++ after) hr' hw'

/-- Once the mandatory rules are done, only optional ones are left. -/
theorem optional_of_all (hes : ∀ next, ¬ Rewrites u Rule.mandatory es next)
    (h : Relation.ReflTransGen (Rewrites u (Rule.mandatory ++ Rule.optional)) es es') :
    Relation.ReflTransGen (Rewrites u Rule.optional) es es' := by
  induction h using Relation.ReflTransGen.head_induction_on with
  | refl => exact .refl
  | @head a b hstep _ ih =>
    obtain @⟨before, after, rule, w, r, hr, hw⟩ := hstep
    rcases List.mem_append.1 hr with hr | hr
    · exact absurd (.intro before after hr hw) (hes _)
    · have hstep := Rewrites.intro before after hr hw
      exact .head hstep (ih (not_mandatory_of_optional hstep hes))

/-- Only mandatory rules reject anything. -/
theorem faulty_rules_iff (o : Options) :
    Faulty u (Peephole.rules o) err es ↔ Faulty u Rule.mandatory err es := by
  refine ⟨?_, Faulty.mono (mandatory_subset_rules o)⟩
  rintro ⟨before, w, after, rule, -, heq, hw⟩
  refine ⟨before, w, after, rule, ?_, heq, hw⟩
  obtain ⟨field, type, size, s, i, ⟨rfl, -⟩ | ⟨rfl, -⟩⟩ := Rule.of_replacement?_error hw
  all_goals decide

theorem leftovers_of_optional (h : Rewrites u Rule.optional es es') :
    leftovers es' = leftovers es := by
  obtain @⟨before, after, rule, w, r, hr, hw⟩ := h
  have hwindow : leftovers w = [] := by
    cases hw
    all_goals first | rfl | exact absurd hr (by decide)
  simp only [leftovers_append, hwindow, leftovers_of_replaces hw]

/-! ### Alike streams -/

/-- Optional rules lead from both streams to one stream. -/
def Alike (u : Universe) (es es' : List Entry) : Prop :=
  Relation.Join (Relation.ReflTransGen (Rewrites u Rule.optional)) es es'

namespace Alike

theorem refl (es : List Entry) : Alike u es es := ⟨es, .refl, .refl⟩

theorem symm (h : Alike u es es') : Alike u es' es := by
  obtain ⟨c, hc, hc'⟩ := h
  exact ⟨c, hc', hc⟩

theorem around (h : Alike u es es') (before after : List Entry) :
    Alike u (before ++ es ++ after) (before ++ es' ++ after) := by
  obtain ⟨c, hc, hc'⟩ := h
  exact ⟨before ++ c ++ after, reflTransGen_around hc before after,
    reflTransGen_around hc' before after⟩

theorem trans {a b c : List Entry} (h : Alike u a b) (h' : Alike u b c) : Alike u a c := by
  obtain ⟨d, had, hbd⟩ := h
  obtain ⟨e, hbe, hce⟩ := h'
  obtain ⟨f, hdf, hef⟩ := join_of_reflTransGen hbd hbe
  exact ⟨f, had.trans hdf, hce.trans hef⟩

theorem append {as bs as' bs' : List Entry} (h : Alike u as as') (h' : Alike u bs bs') :
    Alike u (as ++ bs) (as' ++ bs') := by
  have hfirst := h.around [] bs
  have hsecond := h'.around as' []
  simp only [List.nil_append, List.append_nil] at hfirst hsecond
  exact hfirst.trans hsecond

/-- What optional rules keep of streams with an invariant is the same for alike streams with it. -/
theorem congr {α : Type} {f : List Entry → α} {P : List Entry → Prop} (h : Alike u es es')
    (hP : ∀ a b, P a → Rewrites u Rule.optional a b → P b)
    (hf : ∀ a b, P a → Rewrites u Rule.optional a b → f b = f a) (hes : P es) (hes' : P es') :
    f es = f es' := by
  have hsteps : ∀ {a b}, P a → Relation.ReflTransGen (Rewrites u Rule.optional) a b →
      P b ∧ f b = f a := by
    intro a b ha hab
    induction hab with
    | refl => exact ⟨ha, rfl⟩
    | tail _ hstep ih => exact ⟨hP _ _ ih.1 hstep, (hf _ _ ih.1 hstep).trans ih.2⟩
  obtain ⟨c, hc, hc'⟩ := h
  exact (hsteps hes hc).2.symm.trans (hsteps hes' hc').2

/-- **What passes return for alike streams is alike**, whichever optional rules run. -/
theorem of_normalize {o o' : Options} (h : Alike u es es')
    (hout : normalize u (Peephole.rules o) es = .ok out)
    (hout' : normalize u (Peephole.rules o') es' = .ok out') : Alike u out out' := by
  have hall : ∀ {o : Options} {a b : List Entry}, normalize u (Peephole.rules o) a = .ok b →
      Relation.ReflTransGen (Rewrites u (Rule.mandatory ++ Rule.optional)) a b := fun {o a b} hb =>
    Relation.ReflTransGen.mono (fun _ _ => Rewrites.mono (rules_subset o)) _ _
      (reflTransGen_of_normalize hb)
  have hoptional : ∀ {a b : List Entry}, Relation.ReflTransGen (Rewrites u Rule.optional) a b →
      Relation.ReflTransGen (Rewrites u (Rule.mandatory ++ Rule.optional)) a b := fun {a b} hb =>
    Relation.ReflTransGen.mono (fun _ _ => Rewrites.mono (List.subset_append_right _ _)) _ _ hb
  have hdone : ∀ {o : Options} {a b : List Entry}, normalize u (Peephole.rules o) a = .ok b →
      ∀ next, ¬ Rewrites u Rule.mandatory b next := fun {o a b} hb next hstep =>
    (settled_of_normalize hb).not_rewrites (hstep.mono (mandatory_subset_rules o))
  -- All rules together lead from both results to one stream.
  obtain ⟨c, hc, hc'⟩ := h
  obtain ⟨d, hcd, hd⟩ := join_of_reflTransGen (hoptional hc) (hall hout)
  obtain ⟨d', hcd', hd'⟩ := join_of_reflTransGen (hoptional hc') (hall hout')
  obtain ⟨e, hde, hde'⟩ := join_of_reflTransGen hcd hcd'
  -- After passes, these are optional rules only.
  exact ⟨e, optional_of_all (hdone hout) (hd.trans hde),
    optional_of_all (hdone hout') (hd'.trans hde')⟩

theorem exists_normalize {o o' : Options} (h : Alike u es es')
    (hout : normalize u (Peephole.rules o) es = .ok out) :
    ∃ out', normalize u (Peephole.rules o') es' = .ok out' := by
  refine exists_normalize_iff.2 fun err hfaulty => ?_
  obtain ⟨c, hc, hc'⟩ := h
  rw [faulty_rules_iff, faulty_iff_of_reflTransGen hc', ← faulty_iff_of_reflTransGen hc,
    ← faulty_rules_iff o] at hfaulty
  exact exists_normalize_iff.1 ⟨out, hout⟩ err hfaulty

theorem exists_optimize {o o' : Options} {m : Member} (h : Alike u es es')
    (hout : optimize ⟨u, o⟩ m es = .ok out) :
    ∃ out', optimize ⟨u, o'⟩ m es' = .ok out' ∧ Alike u out out' := by
  obtain ⟨hnormal, hleft⟩ := optimize_eq_ok.1 hout
  obtain ⟨out', hnormal'⟩ : ∃ out', normalize u (Peephole.rules o') es' = .ok out' :=
    h.exists_normalize hnormal
  have halike := h.of_normalize hnormal hnormal'
  have hleft' : leftovers out' = [] :=
    (halike.congr (P := fun _ => True) (fun _ _ _ _ => trivial)
      (fun _ _ _ => leftovers_of_optional) trivial trivial).symm.trans hleft
  exact ⟨out', optimize_eq_ok.2 ⟨hnormal', hleft'⟩, halike⟩

/-- **Alike streams are optimized to alike streams**, or both are rejected. -/
theorem optimize {o o' : Options} {m : Member} (h : Alike u es es') :
    Matched (Alike u) (optimize ⟨u, o⟩ m es) (optimize ⟨u, o'⟩ m es') := by
  cases hout : Peephole.optimize ⟨u, o⟩ m es with
  | ok out =>
    obtain ⟨out', hout', halike⟩ :
        ∃ out', Peephole.optimize ⟨u, o'⟩ m es' = .ok out' ∧ Alike u out out' :=
      h.exists_optimize hout
    rw [hout']
    exact .ok halike
  | error err =>
    cases hout' : Peephole.optimize ⟨u, o'⟩ m es' with
    | error err' => exact .error err err'
    | ok out' =>
      obtain ⟨out, hout'', -⟩ :
          ∃ out, Peephole.optimize ⟨u, o⟩ m es = .ok out ∧ Alike u out' out :=
        h.symm.exists_optimize hout'
      rw [hout] at hout''
      cases hout''

end Alike

end Cartridge.Peephole
