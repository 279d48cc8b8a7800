import Cartridge.Routine.Compile
import Cartridge.Proofs.Descent
import Cartridge.Proofs.Peephole.Rewriting
import Cartridge.Proofs.Scopes
import Cartridge.Proofs.Selection

/-!
# The shape of bodies

What selection, inlining and optimizing make of the body of a method. Every inlined body is a block
that keeps its labels and its jumps to itself (`Sealed`). Outside of blocks, a body defines the
label of each instruction that a branch leads to, in order, and jumps only to those (`Shaped`).
-/

namespace Cartridge

/-! ### Jumps -/

namespace Peephole

variable {u : Universe} {rules : List Rule}

/-- The labels that a stream may jump to, in order. -/
def branchTargets (es : List Entry) : List Label :=
  es.filterMap fun e => e.op?.bind (·.branchTarget?)

@[simp] theorem branchTargets_append (as bs : List Entry) :
    branchTargets (as ++ bs) = branchTargets as ++ branchTargets bs := List.filterMap_append

/-- No rule puts in a jump. -/
theorem branchTargets_of_replaces {rule : Rule} {w r : List Entry} (h : rule.Replaces u w r) :
    branchTargets r = [] := by
  cases h <;> rfl

theorem branchTargets_of_rewrites {es es' : List Entry} (h : Rewrites u rules es es') :
    branchTargets es' ⊆ branchTargets es := by
  obtain ⟨before, after, _, hw⟩ := h
  intro l hl
  simp only [branchTargets_append, branchTargets_of_replaces hw, List.append_nil,
    List.mem_append] at hl ⊢
  exact hl.imp_left .inl

theorem plain_of_replaces {rule : Rule} {w r : List Entry} (h : rule.Replaces u w r) :
    w ≠ [] ∧ (∀ e ∈ w, e.isMark = false) ∧ ∀ e ∈ r, e.isMark = false := by
  cases h <;> simp [Entry.isMark]

/-- The labels that rules bring in by themselves. -/
def ruleLabels : List Label := [.type .byte, .size .byte, .pointerSize .long]

theorem labels_of_replaces {rule : Rule} {w r : List Entry} (h : rule.Replaces u w r) :
    r.flatMap (·.labels) ⊆ ruleLabels ++ w.flatMap (·.labels) := by
  cases h <;>
    simp only [ruleLabels, Entry.labels, MacroOp.labels, List.flatMap_cons, List.flatMap_nil,
      List.append_nil, List.cons_append, List.nil_append, List.cons_subset, List.nil_subset,
      List.mem_cons, true_or, or_true, and_self]

theorem returnVoid_of_replaces {rule : Rule} {w r : List Entry} (h : rule.Replaces u w r) :
    .returnVoid ∉ r.filterMap (·.op?) := by
  cases h <;> simp [Entry.op?]

end Peephole

open Peephole (definedLabels branchTargets Rewrites optimize)

/-- Replacements stay inside scopes. -/
theorem Nested.of_rewrites {P : List Entry → Prop} {u : Universe} {rules : List Rule}
    {es es' s : List Entry} (hP : ∀ t t', P t → Rewrites u rules t t' → P t')
    (h : Nested P es s) (hr : Rewrites u rules es es') :
    ∃ s', Nested P es' s' ∧ (s' = s ∨ Rewrites u rules s s') := by
  obtain @⟨before, after, rule, w, r, hrule, hw⟩ := hr
  obtain ⟨hne, hplain, hplain'⟩ := Peephole.plain_of_replaces hw
  rw [List.append_assoc] at h ⊢
  have hstep : ∀ b a, Rewrites u rules (b ++ (w ++ a)) (b ++ (r ++ a)) := by
    intro b a
    rw [← List.append_assoc, ← List.append_assoc]
    exact .intro b a hrule hw
  rcases h.window hne hplain with ⟨b, a, rfl, hin⟩ | ⟨b, a, hPw, hin⟩
  · exact ⟨_, hin r hplain', .inr (hstep b a)⟩
  · exact ⟨s, hin r hplain' (hP _ _ hPw (hstep b a)), .inl rfl⟩

/-! ### Inlined bodies -/

namespace Routine

/-- The scope of an inlined body: it defines labels of instructions, each once, and then the label
at its end; it jumps only to those, and it does not return. -/
structure Sealed (t : List Entry) : Prop where
  defines : ∃ m, ∃ offsets : List UInt32,
    definedLabels t = offsets.map Label.instruction ++ [inlineEnd m] ∧ offsets.Nodup
  targets : branchTargets t ⊆ definedLabels t
  stays : .returnVoid ∉ t.filterMap (·.op?)

theorem Sealed.of_rewrites {u : Universe} {rules : List Rule} {t t' : List Entry} (h : Sealed t)
    (hr : Rewrites u rules t t') : Sealed t' := by
  have hlabels := Peephole.definedLabels_of_rewrites hr
  refine ⟨hlabels ▸ h.defines, ?_, ?_⟩
  · rw [hlabels]
    exact List.Subset.trans (Peephole.branchTargets_of_rewrites hr) h.targets
  · have hstays := h.stays
    obtain ⟨before, after, _, hw⟩ := hr
    simp only [List.filterMap_append, List.mem_append, not_or] at hstays ⊢
    exact ⟨⟨hstays.1.1, Peephole.returnVoid_of_replaces hw⟩, hstays.2⟩

theorem jumpInstead_of_ne {stop : Label} {e : Entry} (h : e.op? ≠ some .returnVoid) :
    jumpInstead stop e = e := by
  unfold jumpInstead
  split
  · exact absurd rfl h
  · rfl

theorem Sealed.map_jumpInstead {t : List Entry} (h : Sealed t) (stop : Label) :
    t.map (jumpInstead stop) = t := by
  have hfix : ∀ e ∈ t, jumpInstead stop e = e := fun e he =>
    jumpInstead_of_ne fun hop => h.stays (List.mem_filterMap.2 ⟨e, he, hop⟩)
  calc t.map (jumpInstead stop) = t.map id := List.map_congr_left hfix
    _ = t := List.map_id t

/-! ### Bodies -/

/-- Whether an entry may stand in a body before its stack is described: the only directives are the
marks of blocks. -/
def isBodyEntry : Entry → Bool
  | .directive d => (Entry.directive d).isMark
  | _ => true

/-- An entry that may stand in a body, with labels that the program declares. -/
def Fits (u : Universe) (e : Entry) : Prop :=
  isBodyEntry e = true ∧ ∀ l ∈ e.labels, l.Declared u

/-- A body that fits and that has, outside of its sealed blocks, the labels of the instructions at
`offsets` in this order, and jumps to instructions at `jumps` only. -/
structure Shaped (u : Universe) (offsets jumps : List UInt32) (es : List Entry) : Prop where
  fits : ∀ e ∈ es, Fits u e
  scopes : ∃ s, Nested Sealed es s ∧ definedLabels s = offsets.map .instruction ∧
    branchTargets s ⊆ jumps.map .instruction

variable {u : Universe} {offsets offsets' jumps : List UInt32} {es es' : List Entry}

theorem isBodyEntry_of_replaces {rule : Rule} {w r : List Entry} (h : rule.Replaces u w r) :
    ∀ e ∈ r, isBodyEntry e = true := by
  cases h <;> simp [isBodyEntry]

theorem fits_of_replaces {rule : Rule} {w r : List Entry} (h : rule.Replaces u w r)
    (hw : ∀ e ∈ w, Fits u e) : ∀ e ∈ r, Fits u e := by
  intro e he
  refine ⟨isBodyEntry_of_replaces h e he, fun l hl => ?_⟩
  rcases List.mem_append.1 (Peephole.labels_of_replaces h (List.mem_flatMap.2 ⟨e, he, hl⟩))
    with hown | hmem
  · simp only [Peephole.ruleLabels, List.mem_cons, List.not_mem_nil, or_false] at hown
    rcases hown with rfl | rfl | rfl <;> trivial
  · obtain ⟨x, hx, hl⟩ := List.mem_flatMap.1 hmem
    exact (hw x hx).2 l hl

namespace Shaped

theorem of_plain (hfits : ∀ e ∈ es, Fits u e) (hmark : ∀ e ∈ es, e.isMark = false)
    (hlabels : definedLabels es = []) (hjumps : branchTargets es ⊆ jumps.map .instruction) :
    Shaped u [] jumps es :=
  ⟨hfits, es, .plain hmark, hlabels, hjumps⟩

theorem nil : Shaped u [] jumps [] := of_plain (by simp) (by simp) rfl (List.nil_subset _)

theorem mono (h : Shaped u offsets [] es) : Shaped u offsets jumps es := by
  obtain ⟨hfits, s, hs, hlabels, hjumps⟩ := h
  exact ⟨hfits, s, hs, hlabels, List.Subset.trans hjumps (List.nil_subset _)⟩

theorem append (h : Shaped u offsets jumps es) (h' : Shaped u offsets' jumps es') :
    Shaped u (offsets ++ offsets') jumps (es ++ es') := by
  obtain ⟨hfits, s, hs, hlabels, hjumps⟩ := h
  obtain ⟨hfits', s', hs', hlabels', hjumps'⟩ := h'
  refine ⟨fun e he => ?_, s ++ s', hs.append hs', ?_, ?_⟩
  · exact (List.mem_append.1 he).elim (hfits e) (hfits' e)
  · rw [Peephole.definedLabels_append, hlabels, hlabels', List.map_append]
  · rw [Peephole.branchTargets_append]
    exact List.append_subset.2 ⟨hjumps, hjumps'⟩

theorem of_rewrites {rules : List Rule} (h : Shaped u offsets jumps es)
    (hr : Rewrites u rules es es') : Shaped u offsets jumps es' := by
  obtain ⟨hfits, s, hs, hlabels, hjumps⟩ := h
  obtain ⟨s', hs', hstep⟩ := hs.of_rewrites (fun _ _ ht hr => ht.of_rewrites hr) hr
  refine ⟨?_, s', hs', ?_⟩
  · obtain ⟨before, after, _, hw⟩ := hr
    intro e he
    simp only [List.mem_append] at he hfits
    rcases he with (he | he) | he
    · exact hfits e (.inl (.inl he))
    · exact fits_of_replaces hw (fun x hx => hfits x (.inl (.inr hx))) e he
    · exact hfits e (.inr he)
  · rcases hstep with rfl | hstep
    · exact ⟨hlabels, hjumps⟩
    · exact ⟨(Peephole.definedLabels_of_rewrites hstep).trans hlabels,
        List.Subset.trans (Peephole.branchTargets_of_rewrites hstep) hjumps⟩

/-- Optimizing keeps the shape. -/
theorem of_optimize {ctx : Context} {m : Member} (h : Shaped ctx.program offsets jumps es)
    (hout : optimize ctx m es = .ok es') : Shaped ctx.program offsets jumps es' := by
  have hsteps := Peephole.reflTransGen_of_optimize hout
  clear hout
  induction hsteps with
  | refl => exact h
  | tail _ hstep ih => exact ih.of_rewrites hstep

theorem of_selects {s : Site} {i : Instruction} (h : s.Selects i es)
    (hjump : ∀ o, i.branchTarget? = some o → o ∈ jumps)
    (hinline : ∀ callee body, s.inline callee = .ok body →
      Shaped s.context.program [] [] body.body) : Shaped s.context.program [] jumps es := by
  cases h with
  | nothing => exact nil
  | placeholder p =>
    exact of_plain (by simp [Fits, isBodyEntry, Entry.labels]) (by simp [Entry.isMark]) rfl
      (List.nil_subset _)
  | op op hlabels htarget =>
    refine of_plain ?_ (by simp [Entry.ofInstruction, Entry.isMark]) rfl ?_
    · intro e he
      cases List.mem_singleton.1 he
      exact ⟨rfl, hlabels⟩
    · intro l hl
      obtain ⟨e, he, hl⟩ := List.mem_filterMap.1 hl
      cases List.mem_singleton.1 he
      obtain ⟨o, ho, rfl⟩ := htarget l hl
      exact List.mem_map.2 ⟨o, hjump o ho, rfl⟩
  | inlined callee body hbody =>
    have hmark : Shaped s.context.program [] jumps [.inlineFunction callee (some i)] :=
      of_plain (by simp [Fits, isBodyEntry, Entry.labels]) (by simp [Entry.isMark]) rfl
        (List.nil_subset _)
    exact hmark.append (hinline callee body hbody).mono

theorem of_labelAt (i : Instruction) :
    Shaped u ([i.offset].filter (· ∈ jumps)) jumps (labelAt jumps i) := by
  by_cases h : i.offset ∈ jumps
  · rw [labelAt, if_pos h, List.filter_cons_of_pos (by simpa using h), List.filter_nil]
    exact ⟨by simp [Fits, isBodyEntry, Entry.labels], _, .plain (by simp [Entry.isMark]), rfl,
      List.nil_subset _⟩
  · rw [labelAt, if_neg h, List.filter_cons_of_neg (by simpa using h), List.filter_nil]
    exact nil

end Shaped

/-! ### Selected bodies -/

/-- The offsets of the instructions of a body that a branch leads to, in order. -/
def labelled (body : List Instruction) : List UInt32 :=
  (body.map (·.offset)).filter (· ∈ targets body)

theorem shaped_of_selectAt {s : Site} (hm : s.context.program.findMethod s.method = .ok s.decl)
    (hinline : ∀ callee body, s.inline callee = .ok body →
      Shaped s.context.program [] [] body.body)
    {body : List Instruction} {parts : List Selection} (hbody : body ⊆ s.decl.body)
    (hjumps : targets body ⊆ jumps)
    (h : List.Forall₂ (fun i part => selectAt s jumps i = .ok part) body parts) :
    Shaped s.context.program ((body.map (·.offset)).filter (· ∈ jumps)) jumps
      (parts.flatMap (·.entries)) := by
  induction h with
  | nil => exact .nil
  | @cons i part body parts hi h ih =>
    obtain ⟨sel, hsel, hpart⟩ := bind_eq_ok.1 hi
    cases pure_eq_ok.1 hpart
    obtain ⟨hmem, hbody⟩ := List.cons_subset.1 hbody
    have hjump : ∀ o, i.branchTarget? = some o → o ∈ jumps := fun o ho =>
      hjumps (List.mem_filterMap.2 ⟨i, List.mem_cons_self .., ho⟩)
    have hrest : targets body ⊆ jumps := fun o ho => by
      obtain ⟨j, hj, ho⟩ := List.mem_filterMap.1 ho
      exact hjumps (List.mem_filterMap.2 ⟨j, List.mem_cons_of_mem _ hj, ho⟩)
    have hhead := (Shaped.of_labelAt i).append
      (Shaped.of_selects (Site.selects_of_select hm hmem hsel) hjump hinline)
    have hall := hhead.append (ih hbody hrest)
    rw [List.append_nil, ← List.filter_append] at hall
    exact hall

/-- **The shape of a selected body.** -/
theorem shaped_of_selectBody {ctx : Context} {inline : Member → Except Error Routine} {m : Member}
    {sel : Selection}
    (hinline : ∀ callee body, inline callee = .ok body → Shaped ctx.program [] [] body.body)
    (h : selectBody ctx inline m = .ok sel) :
    ∃ d, ctx.program.findMethod m = .ok d ∧
      Shaped ctx.program (labelled d.body) (targets d.body) sel.entries := by
  obtain ⟨d, hd, h⟩ := bind_eq_ok.1 h
  obtain ⟨parts, hparts, h⟩ := bind_eq_ok.1 h
  cases pure_eq_ok.1 h
  have hsite : (Site.mk ctx m d inline).context.program.findMethod m = .ok d := hd
  exact ⟨d, hd, shaped_of_selectAt hsite hinline (List.Subset.refl _) (List.Subset.refl _)
    (mapM_eq_ok.1 hparts)⟩

end Routine

/-- Offsets are distinct, and every branch leads to an instruction of the body. -/
structure MethodDecl.WellFormed (d : MethodDecl) : Prop where
  offsets : (d.body.map (·.offset)).Nodup
  targets : ∀ i ∈ d.body, ∀ o, i.branchTarget? = some o → o ∈ d.body.map (·.offset)

/-- Every declared body is well formed. -/
def Universe.WellFormed (u : Universe) : Prop := ∀ t ∈ u.types, ∀ d ∈ t.methods, d.WellFormed

namespace Routine

variable {u : Universe} {offsets jumps : List UInt32} {es : List Entry}

theorem nodup_labelled {d : MethodDecl} (h : d.WellFormed) : (labelled d.body).Nodup :=
  h.offsets.sublist List.filter_sublist

theorem targets_subset_labelled {d : MethodDecl} (h : d.WellFormed) :
    targets d.body ⊆ labelled d.body := by
  intro o ho
  obtain ⟨i, hi, hio⟩ := List.mem_filterMap.1 ho
  exact List.mem_filter.2 ⟨h.targets i hi o hio, by simpa using ho⟩

theorem wellFormed_of_findMethod (hu : u.WellFormed) {m : Member} {d : MethodDecl}
    (h : u.findMethod m = .ok d) : d.WellFormed := by
  obtain ⟨t, ht, hd⟩ := Universe.of_findMethod h
  exact hu t ht d hd

/-! ### Returns become jumps -/

theorem op?_of_isMark {e : Entry} (h : e.isMark = true) : e.op? = none := by
  cases e with
  | directive d => rfl
  | _ => cases h

theorem isMark_jumpInstead (stop : Label) (e : Entry) :
    (jumpInstead stop e).isMark = e.isMark := by
  unfold jumpInstead
  split <;> rfl

theorem fits_jumpInstead (m : Member) {e : Entry} (h : Fits u e) :
    Fits u (jumpInstead (inlineEnd m) e) := by
  unfold jumpInstead
  split
  · exact ⟨rfl, by simp [Entry.labels, MacroOp.labels, inlineEnd]⟩
  · exact h

theorem definedLabels_map_jumpInstead (stop : Label) (es : List Entry) :
    definedLabels (es.map (jumpInstead stop)) = definedLabels es := by
  rw [definedLabels, List.filterMap_map]
  refine List.filterMap_congr fun e _ => ?_
  rw [Function.comp_apply]
  unfold jumpInstead
  split <;> rfl

theorem op?_jumpInstead (stop : Label) (e : Entry) :
    (jumpInstead stop e).op? = some (.branch stop) ∨
      (jumpInstead stop e).op? = e.op? ∧ e.op? ≠ some .returnVoid := by
  by_cases h : e.op? = some .returnVoid
  · cases e with
    | invoke call =>
      obtain ⟨op, sources⟩ := call
      cases Option.some.inj h
      exact .inl rfl
    | _ => cases h
  · exact .inr ⟨by rw [jumpInstead_of_ne h], h⟩

theorem branchTargets_map_jumpInstead {stop l : Label} {es : List Entry}
    (h : l ∈ branchTargets (es.map (jumpInstead stop))) : l = stop ∨ l ∈ branchTargets es := by
  obtain ⟨e', he', hl⟩ := List.mem_filterMap.1 h
  obtain ⟨e, he, rfl⟩ := List.mem_map.1 he'
  rcases op?_jumpInstead stop e with hop | ⟨hop, -⟩
  · rw [hop] at hl
    cases hl
    exact .inl rfl
  · rw [hop] at hl
    exact .inr (List.mem_filterMap.2 ⟨e, he, hl⟩)

theorem returnVoid_map_jumpInstead (stop : Label) (es : List Entry) :
    .returnVoid ∉ (es.map (jumpInstead stop)).filterMap (·.op?) := by
  intro h
  obtain ⟨e', he', hop⟩ := List.mem_filterMap.1 h
  obtain ⟨e, he, rfl⟩ := List.mem_map.1 he'
  rcases op?_jumpInstead stop e with hop' | ⟨hop', hne⟩
  · rw [hop'] at hop
    cases hop
  · exact hne (hop'.symm.trans hop)

/-! ### Inlining -/

theorem Shaped.frame (what : String) (h : Shaped u offsets jumps es) :
    Shaped u offsets jumps (frame what es) := by
  have hfirst : Shaped u [] jumps [.comment ("Begin " ++ what)] :=
    .of_plain (by simp [Fits, isBodyEntry, Entry.labels]) (by simp [Entry.isMark]) rfl
      (List.nil_subset _)
  have hlast : Shaped u [] jumps [.comment ("End " ++ what), .endFunction] :=
    .of_plain (by simp [Fits, isBodyEntry, Entry.labels]) (by simp [Entry.isMark]) rfl
      (List.nil_subset _)
  have hall := (hfirst.append h).append hlast
  rwa [List.append_nil, List.nil_append] at hall

/-- A body that jumps to its own labels only is sealed by wrapping it. -/
theorem Shaped.wrapInline (m : Member) (hoffsets : offsets.Nodup) (hjumps : jumps ⊆ offsets)
    (h : Shaped u offsets jumps es) : Shaped u [] [] (wrapInline m es) := by
  obtain ⟨hfits, s, hs, hlabels, htargets⟩ := h
  have hmap := hs.map (isMark_jumpInstead (inlineEnd m))
    (fun e he => jumpInstead_of_ne (by simp [op?_of_isMark he]))
    (fun t ht => ht.map_jumpInstead (inlineEnd m))
  have hlabel : Nested Sealed [.label (inlineEnd m)] [.label (inlineEnd m)] :=
    .plain (by simp [Entry.isMark])
  have hdefined : definedLabels (s.map (jumpInstead (inlineEnd m)) ++ [.label (inlineEnd m)]) =
      offsets.map .instruction ++ [inlineEnd m] := by
    rw [Peephole.definedLabels_append, definedLabels_map_jumpInstead, hlabels]
    rfl
  have hsealed : Sealed (s.map (jumpInstead (inlineEnd m)) ++ [.label (inlineEnd m)]) := by
    refine ⟨⟨m, offsets, hdefined, hoffsets⟩, ?_, ?_⟩
    · intro l hl
      rw [hdefined, List.mem_append, List.mem_singleton]
      rw [Peephole.branchTargets_append, List.mem_append] at hl
      rcases hl with hl | hl
      · refine (branchTargets_map_jumpInstead hl).symm.imp_left fun hl => ?_
        exact List.map_subset _ hjumps (htargets hl)
      · cases hl
    · rw [List.filterMap_append, List.mem_append, not_or]
      exact ⟨returnVoid_map_jumpInstead _ _, by simp [Entry.op?]⟩
  refine ⟨?_, [.directive .beginBlock, .directive .endBlock], ?_, rfl, List.nil_subset _⟩
  · intro e he
    simp only [Routine.wrapInline, List.cons_append, List.mem_cons, List.mem_append, List.mem_map,
      List.not_mem_nil, or_false] at he
    rcases he with rfl | ⟨e, he, rfl⟩ | rfl | rfl
    · exact ⟨rfl, by simp [Entry.labels]⟩
    · exact fits_jumpInstead m (hfits e he)
    · exact ⟨rfl, by simp [Entry.labels]⟩
    · exact ⟨rfl, by simp [Entry.labels]⟩
  · have hblock := Nested.block (hmap.append hlabel) hsealed .nil
    simpa [Routine.wrapInline] using hblock

/-- An inlined body keeps its labels and jumps to itself. -/
theorem shaped_of_inlineBody {ctx : Context} (hu : ctx.program.WellFormed)
    {inline : Member → Except Error Routine} {m : Member} {r : Routine}
    (hinline : ∀ callee body, inline callee = .ok body → Shaped ctx.program [] [] body.body)
    (h : inlineBody ctx inline m = .ok r) : Shaped ctx.program [] [] r.body := by
  obtain ⟨sel, hsel, h⟩ := bind_eq_ok.1 h
  obtain ⟨body, hbody, h⟩ := bind_eq_ok.1 h
  cases pure_eq_ok.1 h
  obtain ⟨d, hd, hshape⟩ := shaped_of_selectBody hinline hsel
  have hwf := wellFormed_of_findMethod hu hd
  have hwrap := hshape.wrapInline m (nodup_labelled hwf) (targets_subset_labelled hwf)
  exact (hwrap.of_optimize hbody).frame _

theorem shaped_of_inlined {ctx : Context} (hu : ctx.program.WellFormed) (chain : List Member)
    (m : Member) {r : Routine} (h : inlined ctx chain m = .ok r) :
    Shaped ctx.program [] [] r.body := by
  let P (x : Except Error Routine) : Prop := ∀ r, x = .ok r → Shaped ctx.program [] [] r.body
  have hall : P (inlined ctx chain m) := by
    refine descend_induction (P := P) ?_ ?_ ?_ chain m
    · intro chain m r h
      cases h
    · intro m r h
      cases h
    · intro chain inline m hinline r h
      exact shaped_of_inlineBody hu hinline h
  exact hall r h

theorem shaped_of_inlineInto {ctx : Context} (hu : ctx.program.WellFormed) (chain : List Member)
    (m : Member) (r : Routine) (h : inlineInto ctx chain m = .ok r) :
    Shaped ctx.program [] [] r.body := by
  unfold inlineInto at h
  split at h
  · cases h
  · exact shaped_of_inlined hu chain m h

theorem shaped_prologue {inits : List Routine} (h : ∀ r ∈ inits, Shaped u [] [] r.body) :
    Shaped u [] [] (prologue inits) := by
  have hparts : Shaped u [] []
      (inits.flatMap fun r => .inlineFunction r.method none :: r.body) := by
    induction inits with
    | nil => exact .nil
    | cons r inits ih =>
      have hmark : Shaped u [] [] [.inlineFunction r.method none] :=
        .of_plain (by simp [Fits, isBodyEntry, Entry.labels]) (by simp [Entry.isMark]) rfl
          (List.nil_subset _)
      exact (hmark.append (h r (List.mem_cons_self ..))).append
        (ih fun x hx => h x (List.mem_cons_of_mem _ hx))
  have hentry : Shaped u [] [] [.synthetic .entryPoint] :=
    .of_plain (by simp [Fits, isBodyEntry, Entry.synthetic, Entry.labels, MacroOp.labels])
      (by simp [Entry.synthetic, Entry.isMark]) rfl (List.nil_subset _)
  exact hentry.append hparts

end Routine

end Cartridge
