import Cartridge.Proofs.Calls
import Cartridge.Proofs.Routine.Compiled
import Cartridge.Proofs.Routine.Entries
import Cartridge.Proofs.Values

/-!
# Routines under other rules

The optional rules that run have no influence on what is selected and inlined, apart from what they
do to the streams themselves: the stream of a routine under one choice of rules is alike the stream
under another one, or there is none under both (`Routine.matched_stream`,
`Routine.matched_entryStream`). Compiled routines of both kinds therefore refer to the same routines,
memory and data in ROM, in the same order (`Routine.sameStorage_of_compile`,
`Routine.sameStorage_of_compileEntryPoint`).
-/

namespace Cartridge

open Peephole (Described storage)

variable {u : Universe} {o o' : Options}

/-- The entries are alike, and the same locals are lifted. -/
structure Selection.Alike (u : Universe) (a b : Selection) : Prop where
  entries : Peephole.Alike u a.entries b.entries
  lifted : a.lifted = b.lifted

theorem Selection.Alike.refl (a : Selection) : Selection.Alike u a a := ⟨.refl _, rfl⟩

theorem Selection.Alike.flatMap {as bs : List Selection}
    (h : List.Forall₂ (Selection.Alike u) as bs) :
    Peephole.Alike u (as.flatMap (·.entries)) (bs.flatMap (·.entries)) ∧
      as.flatMap (·.lifted) = bs.flatMap (·.lifted) := by
  induction h with
  | nil => exact ⟨.refl [], rfl⟩
  | cons hab _ ih =>
    rw [List.flatMap_cons, List.flatMap_cons, List.flatMap_cons, List.flatMap_cons, hab.lifted, ih.2]
    exact ⟨hab.entries.append ih.1, rfl⟩

namespace Routine

/-- Two bodies of one method that are alike and lift the same locals. -/
structure Alike (u : Universe) (r r' : Routine) : Prop where
  method : r.method = r'.method
  body : Peephole.Alike u r.body r'.body
  lifted : r.lifted = r'.lifted

/-! ### Selection -/

section Selection

variable {m : Member} {inline inline' : Member → Except Error Routine}

theorem inlines_congr (ho : o'.inlineAllCalls = o.inlineAllCalls) {i : Instruction} {c : Member}
    (h : i.Inlines ⟨u, o⟩ c) : i.Inlines ⟨u, o'⟩ c := by
  obtain ⟨hop, hoperand, d, hfind, hm⟩ := h
  exact ⟨hop, hoperand, d, hfind, hm.imp_right fun hm => ⟨hm.1, ho.trans hm.2⟩⟩

theorem matched_inlineCall {d callee : MethodDecl} {i : Instruction} {c : Member}
    (h : Matched (Alike u) (inline c) (inline' c)) :
    Matched (Selection.Alike u) (Site.inlineCall ⟨⟨u, o⟩, m, d, inline⟩ i c callee)
      (Site.inlineCall ⟨⟨u, o'⟩, m, d, inline'⟩ i c callee) := by
  unfold Site.inlineCall
  split
  · exact .error _ _
  · refine h.bind fun r r' hr => .ok ⟨?_, hr.lifted⟩
    exact (Peephole.Alike.refl [Entry.inlineFunction c (some i)]).append hr.body

/-- An instruction becomes alike entries if it inlines alike bodies. -/
theorem matched_selectAt (ho : o'.inlineAllCalls = o.inlineAllCalls)
    (h : ∀ c, Matched (Alike u) (inline c) (inline' c)) (d : MethodDecl) (targets : List UInt32)
    (i : Instruction) :
    Matched (Selection.Alike u) (selectAt ⟨⟨u, o⟩, m, d, inline⟩ targets i)
      (selectAt ⟨⟨u, o'⟩, m, d, inline'⟩ targets i) := by
  have hselect : Matched (Selection.Alike u) (Site.select ⟨⟨u, o⟩, m, d, inline⟩ i)
      (Site.select ⟨⟨u, o'⟩, m, d, inline'⟩ i) := by
    by_cases hc : ∃ c, i.Inlines ⟨u, o⟩ c
    · obtain ⟨c, hc⟩ := hc
      obtain ⟨callee, hfind, heq⟩ :=
        Site.select_of_inlines (s := ⟨⟨u, o⟩, m, d, inline⟩) hc
      obtain ⟨callee', hfind', heq'⟩ :=
        Site.select_of_inlines (s := ⟨⟨u, o'⟩, m, d, inline'⟩) (inlines_congr ho hc)
      cases hfind.symm.trans hfind'
      rw [heq, heq']
      exact matched_inlineCall (h c)
    · exact .of_eq (Site.select_congr ho (not_exists.1 hc)).symm .refl
  refine hselect.bind fun a b hab => .ok ⟨?_, hab.lifted⟩
  exact (Peephole.Alike.refl (labelAt targets i)).append hab.entries

theorem matched_selectBody (ho : o'.inlineAllCalls = o.inlineAllCalls)
    (h : ∀ c, Matched (Alike u) (inline c) (inline' c)) (m : Member) :
    Matched (Selection.Alike u) (selectBody ⟨u, o⟩ inline m) (selectBody ⟨u, o'⟩ inline' m) := by
  refine (Matched.of_eq rfl fun _ => rfl : Matched Eq (u.findMethod m) _).bind ?_
  rintro d _ rfl
  refine (Matched.mapM fun i _ => matched_selectAt ho h d (targets d.body) i).bind ?_
  intro parts parts' hparts
  obtain ⟨hentries, hlifted⟩ := Selection.Alike.flatMap hparts
  exact .ok ⟨hentries, by rw [hlifted]⟩

end Selection

/-! ### Inlined bodies -/

/-- No rule has to do with returns. -/
theorem map_jumpInstead_of_replaces {rule : Rule} {w r : List Entry} (h : rule.Replaces u w r)
    (stop : Label) : w.map (jumpInstead stop) = w ∧ r.map (jumpInstead stop) = r := by
  cases h <;> exact ⟨rfl, rfl⟩

theorem rewrites_map_jumpInstead {rules : List Rule} {es es' : List Entry}
    (h : Peephole.Rewrites u rules es es') (stop : Label) :
    Peephole.Rewrites u rules (es.map (jumpInstead stop)) (es'.map (jumpInstead stop)) := by
  obtain ⟨before, after, hr, hw⟩ := h
  obtain ⟨hwindow, hresult⟩ := map_jumpInstead_of_replaces hw stop
  rw [List.map_append, List.map_append, List.map_append, List.map_append, hwindow, hresult]
  exact .intro _ _ hr hw

theorem alike_wrapInline {es es' : List Entry} (h : Peephole.Alike u es es') (m : Member) :
    Peephole.Alike u (wrapInline m es) (wrapInline m es') := by
  have hmap : Peephole.Alike u (es.map (jumpInstead (inlineEnd m)))
      (es'.map (jumpInstead (inlineEnd m))) := by
    have hsteps : ∀ {a b}, Relation.ReflTransGen (Peephole.Rewrites u Rule.optional) a b →
        Relation.ReflTransGen (Peephole.Rewrites u Rule.optional)
          (a.map (jumpInstead (inlineEnd m))) (b.map (jumpInstead (inlineEnd m))) := fun hab =>
      Relation.ReflTransGen.lift (List.map (jumpInstead (inlineEnd m)))
        (fun _ _ hs => rewrites_map_jumpInstead hs _) _ _ hab
    obtain ⟨c, hc, hc'⟩ := h
    exact ⟨_, hsteps hc, hsteps hc'⟩
  exact hmap.around [.directive .beginBlock] [.label (inlineEnd m), .directive .endBlock]

theorem matched_inlined (ho : o'.inlineAllCalls = o.inlineAllCalls) (chain : List Member)
    (m : Member) : Matched (Alike u) (inlined ⟨u, o⟩ chain m) (inlined ⟨u, o'⟩ chain m) := by
  refine descend_rel (fun chain m => ?_) (fun m => ?_) (fun _ inline inline' m h => ?_) chain m
  · exact .error _ _
  · exact .error _ _
  · refine (matched_selectBody ho h m).bind fun a b hab => ?_
    refine (alike_wrapInline hab.entries m).optimize.bind fun out out' hout => ?_
    exact .ok ⟨rfl, hout.around [_] [_, _], hab.lifted⟩

theorem matched_inlineInto (ho : o'.inlineAllCalls = o.inlineAllCalls) (chain : List Member)
    (m : Member) : Matched (Alike u) (inlineInto ⟨u, o⟩ chain m) (inlineInto ⟨u, o'⟩ chain m) := by
  unfold inlineInto
  split
  · exact .error _ _
  · exact matched_inlined ho chain m

/-! ### Streams -/

/-- The stream of a routine that is called, before its stack is described. -/
def stream (ctx : Context) (m : Member) : Except Error Selection := do
  let selected ← selectBody ctx (inlineInto ctx [m]) m
  let optimized ← Peephole.optimize ctx m selected.entries
  pure ⟨optimized, selected.lifted⟩

/-- The stream of the routine at which the program starts. -/
def entryStream (ctx : Context) (m : Member) : Except Error Selection := do
  let selected ← selectBody ctx (inlineInto ctx [m]) m
  let inits ← initializers ctx m
  let optimized ← Peephole.optimize ctx m (prologue inits ++ selected.entries)
  pure ⟨optimized, Label.insertAll (inits.flatMap (·.lifted)) selected.lifted⟩

/-- The routine with a given stream. -/
def ofStream (m : Member) (s : Selection) : Except Error Routine := do
  let tracked ← StackModel.track s.entries
  pure ⟨m, frame m.fullName (.label (.function m) :: tracked), s.lifted⟩

theorem compile_eq (ctx : Context) (m : Member) :
    compile ctx m = stream ctx m >>= ofStream m := by
  simp only [compile, stream, finish, ofStream, bind_assoc, pure_bind]

theorem compileEntryPoint_eq (ctx : Context) (m : Member) :
    compileEntryPoint ctx m = entryStream ctx m >>= ofStream m := by
  simp only [compileEntryPoint, entryStream, finish, ofStream, bind_assoc, pure_bind]

/-- **Streams are alike under any two choices of rules.** -/
theorem matched_stream (ho : o'.inlineAllCalls = o.inlineAllCalls) (m : Member) :
    Matched (Selection.Alike u) (stream ⟨u, o⟩ m) (stream ⟨u, o'⟩ m) := by
  refine (matched_selectBody ho (matched_inlineInto ho [m]) m).bind fun a b hab => ?_
  exact hab.entries.optimize.bind fun out out' hout => .ok ⟨hout, hab.lifted⟩

theorem alike_prologue {inits inits' : List Routine} (h : List.Forall₂ (Alike u) inits inits') :
    Peephole.Alike u (prologue inits) (prologue inits') ∧
      inits.flatMap (·.lifted) = inits'.flatMap (·.lifted) := by
  have hparts : Peephole.Alike u
      (inits.flatMap fun r => .inlineFunction r.method none :: r.body)
      (inits'.flatMap fun r => .inlineFunction r.method none :: r.body) ∧
      inits.flatMap (·.lifted) = inits'.flatMap (·.lifted) := by
    induction h with
    | nil => exact ⟨.refl [], rfl⟩
    | @cons r r' _ _ hr _ ih =>
      simp only [List.flatMap_cons, hr.lifted, ih.2, hr.method, and_true]
      exact ((Peephole.Alike.refl [Entry.inlineFunction r'.method none]).append hr.body).append ih.1
  exact ⟨(Peephole.Alike.refl [Entry.synthetic .entryPoint]).append hparts.1, hparts.2⟩

theorem matched_entryStream (ho : o'.inlineAllCalls = o.inlineAllCalls) (m : Member) :
    Matched (Selection.Alike u) (entryStream ⟨u, o⟩ m) (entryStream ⟨u, o'⟩ m) := by
  refine (matched_selectBody ho (matched_inlineInto ho [m]) m).bind fun a b hab => ?_
  refine (Matched.mapM fun i _ => matched_inlined ho [m] i).bind fun inits inits' hinits => ?_
  obtain ⟨hprologue, hlifted⟩ := alike_prologue hinits
  refine (hprologue.append hab.entries).optimize.bind fun out out' hout => .ok ⟨hout, ?_⟩
  rw [hlifted, hab.lifted]

/-! ### Streams are described -/

section Described

variable {m : Member}

theorem invariant_described (ctx : Context) : Invariant ctx (Entry.Described ctx.program) where
  select {m d inline i sel} hd _ hinline h :=
    Site.described_of_select (s := ⟨ctx, m, d, inline⟩) hd hinline h
  replace := Peephole.described_of_replaces
  framing e he := by
    cases e with
    | invoke call => cases he
    | _ => trivial
  start := trivial
  jump _ _ := rfl

theorem described_of_stream {s : Selection} (h : stream ⟨u, o⟩ m = .ok s) :
    Described u s.entries := by
  obtain ⟨sel, hsel, h⟩ := bind_eq_ok.1 h
  obtain ⟨out, hout, h⟩ := bind_eq_ok.1 h
  cases pure_eq_ok.1 h
  have hP := invariant_described ⟨u, o⟩
  exact hP.of_optimize (hP.of_selectBody (hP.of_inlineInto [m]) hsel) hout

theorem described_of_entryStream {s : Selection} (h : entryStream ⟨u, o⟩ m = .ok s) :
    Described u s.entries := by
  obtain ⟨sel, hsel, h⟩ := bind_eq_ok.1 h
  obtain ⟨inits, hinits, h⟩ := bind_eq_ok.1 h
  obtain ⟨out, hout, h⟩ := bind_eq_ok.1 h
  cases pure_eq_ok.1 h
  have hP := invariant_described ⟨u, o⟩
  have hselected := hP.of_selectBody (hP.of_inlineInto [m]) hsel
  exact hP.of_optimize (List.forall_mem_append.2 ⟨hP.of_prologue hinits, hselected⟩) hout

end Described

/-! ### Storage of routines -/

/-- Routines of one method that refer to the same routines, memory and data in ROM, in the order of
first occurrence, and lift the same locals. -/
structure SameStorage (r r' : Routine) : Prop where
  method : r.method = r'.method
  labels : r.labels.filter (·.isStorage) = r'.labels.filter (·.isStorage)
  lifted : r.lifted = r'.lifted

theorem not_isStorage_of_ownLabels {l : Label} (h : l ∈ StackModel.ownLabels) :
    l.isStorage = false := by
  simp only [StackModel.ownLabels, List.mem_cons, List.not_mem_nil, or_false] at h
  rcases h with rfl | rfl | rfl | rfl <;> rfl

/-- Tracking refers to nothing new. -/
theorem eraseDups_storage_of_annotate {width : Nat} {e : Entry} {piece : List Entry}
    (h : (StackModel.placeholders width).annotate e = .ok piece) :
    (storage piece).eraseDups = (storage [e]).eraseDups := by
  obtain ⟨sets, rfl, hsets⟩ := StackModel.annotate_eq_ok h
  have hsubset : storage sets ⊆ storage [e] := by
    intro l hl
    obtain ⟨hl, hstorage⟩ := List.mem_filter.1 hl
    obtain ⟨x, hx, hl⟩ := List.mem_flatMap.1 hl
    rcases (hsets x hx).2 l hl with hl | hown
    · exact List.mem_filter.2 ⟨List.mem_flatMap.2 ⟨e, List.mem_singleton_self e, hl⟩, hstorage⟩
    · rw [not_isStorage_of_ownLabels hown] at hstorage
      cases hstorage
  rw [← List.singleton_append, Peephole.storage_append]
  exact eraseDups_append_subset hsubset

theorem eraseDups_storage_of_annotated {width : Nat} {es : List Entry} {pieces : List (List Entry)}
    (h : List.Forall₂ (fun e piece => (StackModel.placeholders width).annotate e = .ok piece) es
      pieces) : (storage pieces.flatten).eraseDups = (storage es).eraseDups := by
  induction h with
  | nil => rfl
  | @cons e piece es pieces he _ ih =>
    rw [List.flatten_cons, ← List.singleton_append, Peephole.storage_append,
      Peephole.storage_append]
    exact eraseDups_append_congr (eraseDups_storage_of_annotate he) ih

theorem eraseDups_storage_of_track {es out : List Entry} (h : StackModel.track es = .ok out) :
    (storage out).eraseDups = (storage es).eraseDups := by
  obtain ⟨pieces, rfl, hpieces⟩ := StackModel.track_eq_ok h
  have hfirst : storage (StackModel.placeholders (StackModel.maxDepth es)).initialization = [] := by
    refine List.filter_eq_nil_iff.2 fun l hl => ?_
    obtain ⟨x, hx, hl⟩ := List.mem_flatMap.1 hl
    rw [not_isStorage_of_ownLabels ((StackModel.labels_initialization hx).2 l hl)]
    exact Bool.false_ne_true
  rw [Peephole.storage_append, hfirst, List.nil_append]
  exact eraseDups_storage_of_annotated hpieces

theorem labels_of_ofStream {m : Member} {s : Selection} {r : Routine}
    (h : ofStream m s = .ok r) :
    r.labels.filter (·.isStorage) = (storage s.entries).eraseDups := by
  obtain ⟨tracked, htrack, h⟩ := bind_eq_ok.1 h
  cases pure_eq_ok.1 h
  have hbody : storage (frame m.fullName (.label (.function m) :: tracked)) = storage tracked := by
    simp [storage, frame, Entry.labels]
  rw [labels, filter_eraseDups, ← eraseDups_storage_of_track htrack]
  exact congrArg List.eraseDups hbody

/-- Alike streams become routines with the same storage. -/
theorem sameStorage_of_ofStream {m : Member} {s s' : Selection} {r r' : Routine}
    (halike : Selection.Alike u s s') (hs : Described u s.entries) (hs' : Described u s'.entries)
    (h : ofStream m s = .ok r) (h' : ofStream m s' = .ok r') : SameStorage r r' := by
  have hlabels : r.labels.filter (·.isStorage) = r'.labels.filter (·.isStorage) := by
    rw [labels_of_ofStream h, labels_of_ofStream h', halike.entries.eraseDups_storage hs hs']
  obtain ⟨tracked, -, h⟩ := bind_eq_ok.1 h
  obtain ⟨tracked', -, h'⟩ := bind_eq_ok.1 h'
  cases pure_eq_ok.1 h
  cases pure_eq_ok.1 h'
  exact ⟨rfl, hlabels, halike.lifted⟩

/-- **Routines refer to the same storage under any two choices of rules.** -/
theorem sameStorage_of_compile (ho : o'.inlineAllCalls = o.inlineAllCalls) {m : Member}
    {r r' : Routine} (h : compile ⟨u, o⟩ m = .ok r) (h' : compile ⟨u, o'⟩ m = .ok r') :
    SameStorage r r' := by
  rw [compile_eq] at h h'
  obtain ⟨s, hs, h⟩ := bind_eq_ok.1 h
  obtain ⟨s', hs', h'⟩ := bind_eq_ok.1 h'
  have halike : Selection.Alike u s s' := (matched_stream ho m).rel hs hs'
  exact sameStorage_of_ofStream halike (described_of_stream hs) (described_of_stream hs') h h'

theorem sameStorage_of_compileEntryPoint (ho : o'.inlineAllCalls = o.inlineAllCalls) {m : Member}
    {r r' : Routine} (h : compileEntryPoint ⟨u, o⟩ m = .ok r)
    (h' : compileEntryPoint ⟨u, o'⟩ m = .ok r') : SameStorage r r' := by
  rw [compileEntryPoint_eq] at h h'
  obtain ⟨s, hs, h⟩ := bind_eq_ok.1 h
  obtain ⟨s', hs', h'⟩ := bind_eq_ok.1 h'
  have halike : Selection.Alike u s s' := (matched_entryStream ho m).rel hs hs'
  exact sameStorage_of_ofStream halike (described_of_entryStream hs)
    (described_of_entryStream hs') h h'

end Routine

end Cartridge
