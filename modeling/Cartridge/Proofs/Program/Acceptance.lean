import Cartridge.Proofs.Checks
import Cartridge.Proofs.Program.Placement

/-!
# Rules and acceptance

Whether a program is compiled can depend on the optional rules that run. What is selected and
optimized does not (`Routine.matched_streamIn`), but the stack is tracked and the types are numbered
after the rules: a rule may drop the only reference to a type without a size, and it may drop every
push of a routine that pops from an empty stack (`Program.rules_decide_acceptance`).

**`Program.accepted_iff`**: there is nothing else. If no routine pops from a stack that never holds
anything, and the pointers among the variables that routines refer to point to types that have a
size, then a program is compiled under both of two choices of rules or under none, as long as no
stack gets too deep.
-/

namespace Cartridge

open Peephole (Described storage)

variable {u : Universe} {o o' : Options} {rs rs' : List Routine}

/-! ### Types of a routine -/

namespace Routine

/-- Every type that the routine refers to has a size. -/
def Sized (u : Universe) (r : Routine) : Prop := ∀ l ∈ r.labels ++ r.lifted, l.Sized u

theorem sized_iff (r : Routine) :
    r.Sized u ↔ Peephole.Sized u r.body ∧ ∀ l ∈ r.lifted, l.Sized u := by
  simp only [Sized, labels, List.forall_mem_append, List.mem_eraseDups, List.mem_flatMap]
  refine and_congr_left fun _ => ⟨fun h e he l hl => h l ⟨e, he, hl⟩, ?_⟩
  rintro h l ⟨e, he, hl⟩
  exact h e he l hl

theorem sized_of_ownLabels (hu : u.HasBuiltIns) {l : Label} (h : l ∈ StackModel.ownLabels) :
    l.Sized u := by
  have hnothing : u.HasSize TypeName.nothing.elementType := hu _ (by decide)
  have hboolean : u.HasSize TypeName.boolean.elementType := hu _ (by decide)
  simp only [StackModel.ownLabels, List.mem_cons, List.not_mem_nil, or_false] at h
  rcases h with rfl | rfl | rfl | rfl
  · exact (Label.sized_iff_of_describedType? rfl).2 hnothing
  · exact (Label.sized_iff_of_describedType? rfl).2 hnothing
  · exact (Label.sized_iff_of_describedType? rfl).2 hboolean
  · exact (Label.sized_iff_of_describedType? rfl).2 hboolean

theorem sized_iff_of_annotated (hu : u.HasBuiltIns) {width : Nat} {es : List Entry}
    {pieces : List (List Entry)}
    (h : List.Forall₂ (fun e piece => (StackModel.placeholders width).annotate e = .ok piece) es
      pieces) : Peephole.Sized u pieces.flatten ↔ Peephole.Sized u es := by
  induction h with
  | nil => rfl
  | @cons e piece es pieces he _ ih =>
    obtain ⟨sets, rfl, hsets⟩ := StackModel.annotate_eq_ok he
    -- The assignments after an entry refer to its own types, or to built-in ones.
    have hpiece : Peephole.Sized u (e :: sets) ↔ Peephole.Sized u [e] := by
      refine ⟨fun h => List.forall_mem_singleton.2 (h e (List.mem_cons_self ..)), fun h => ?_⟩
      have he := h e (List.mem_singleton_self e)
      refine List.forall_mem_cons.2 ⟨he, fun x hx l hl => ?_⟩
      exact ((hsets x hx).2 l hl).elim (he l) (sized_of_ownLabels hu)
    rw [List.flatten_cons, Peephole.sized_append, hpiece, ih, ← Peephole.sized_append,
      List.singleton_append]

/-- Tracking refers to no other types. -/
theorem sized_iff_of_track (hu : u.HasBuiltIns) {es out : List Entry}
    (h : StackModel.track es = .ok out) : Peephole.Sized u out ↔ Peephole.Sized u es := by
  obtain ⟨pieces, rfl, hpieces⟩ := StackModel.track_eq_ok h
  have hfirst :
      Peephole.Sized u (StackModel.placeholders (StackModel.maxDepth es)).initialization :=
    fun x hx l hl => sized_of_ownLabels hu ((StackModel.labels_initialization hx).2 l hl)
  rw [Peephole.sized_append, and_iff_right hfirst, sized_iff_of_annotated hu hpieces]

theorem sized_iff_of_ofStream (hu : u.HasBuiltIns) {m : Member} {s : Selection} {r : Routine}
    (h : ofStream m s = .ok r) :
    r.Sized u ↔ Peephole.Sized u s.entries ∧ ∀ l ∈ s.lifted, l.Sized u := by
  obtain ⟨tracked, htrack, h⟩ := bind_eq_ok.1 h
  cases pure_eq_ok.1 h
  have hbody : Peephole.Sized u (frame m.fullName (.label (.function m) :: tracked)) ↔
      Peephole.Sized u tracked := by
    simp only [frame, Peephole.Sized, List.cons_append, List.forall_mem_cons,
      List.forall_mem_append]
    simp [Entry.labels]
  rw [sized_iff, hbody, sized_iff_of_track hu htrack]

/-- Routines that can be exchanged for one another, as far as all labels are concerned. -/
structure Interchangeable (u : Universe) (r r' : Routine) : Prop extends SameStorage r r' where
  sized : r.Sized u ↔ r'.Sized u

theorem interchangeable_of_ofStream (hu : u.HasBuiltIns) {m : Member} {s s' : Selection}
    {r r' : Routine} (halike : Selection.Alike u s s')
    (hs : Described u s.entries ∧ Peephole.KnownPointees u s.entries)
    (hs' : Described u s'.entries ∧ Peephole.KnownPointees u s'.entries)
    (h : ofStream m s = .ok r) (h' : ofStream m s' = .ok r') : Interchangeable u r r' := by
  refine ⟨sameStorage_of_ofStream halike hs.1 hs'.1 h h', ?_⟩
  rw [sized_iff_of_ofStream hu h, sized_iff_of_ofStream hu h', ← halike.lifted,
    halike.entries.sized_iff (hu _ (List.mem_cons_self ..)) hs hs']

/-! ### Streams of a program -/

/-- The stream of a method as a routine of a program that starts at `entry`. -/
def streamIn (ctx : Context) (entry m : Member) : Except Error Selection :=
  if m = entry then entryStream ctx m else stream ctx m

/-- **Streams are alike under any two choices of rules**, wherever the program starts. -/
theorem matched_streamIn (ho : o'.inlineAllCalls = o.inlineAllCalls) (entry m : Member) :
    Matched (Selection.Alike u) (streamIn ⟨u, o⟩ entry m) (streamIn ⟨u, o'⟩ entry m) := by
  unfold streamIn
  split
  · exact matched_entryStream ho m
  · exact matched_stream ho m

theorem described_of_streamIn {entry m : Member} {s : Selection}
    (h : streamIn ⟨u, o⟩ entry m = .ok s) : Described u s.entries := by
  unfold streamIn at h
  split at h
  · exact described_of_entryStream h
  · exact described_of_stream h

/-- A routine of a program that starts at `entry`. -/
def compileIn (ctx : Context) (entry m : Member) : Except Error Routine :=
  streamIn ctx entry m >>= ofStream m

theorem compileIn_self (ctx : Context) (entry : Member) :
    compileIn ctx entry entry = compileEntryPoint ctx entry := by
  rw [compileIn, streamIn, if_pos rfl, compileEntryPoint_eq]

theorem compileIn_of_ne (ctx : Context) {entry m : Member} (hm : m ≠ entry) :
    compileIn ctx entry m = compile ctx m := by
  rw [compileIn, streamIn, if_neg hm, compile_eq]

/-- A routine exists under other rules if its stack can be tracked there. -/
theorem exists_compileIn (ho : o'.inlineAllCalls = o.inlineAllCalls) (hu : u.HasBuiltIns)
    {entry m : Member} {r : Routine}
    (hknown : ∀ s, streamIn ⟨u, o⟩ entry m = .ok s → Peephole.KnownPointees u s.entries)
    (hknown' : ∀ s, streamIn ⟨u, o'⟩ entry m = .ok s → Peephole.KnownPointees u s.entries)
    (htrack : ∀ s, streamIn ⟨u, o'⟩ entry m = .ok s → ∃ out, StackModel.track s.entries = .ok out)
    (h : compileIn ⟨u, o⟩ entry m = .ok r) :
    ∃ r', compileIn ⟨u, o'⟩ entry m = .ok r' ∧ Interchangeable u r r' := by
  obtain ⟨s, hs, h⟩ := bind_eq_ok.1 h
  obtain ⟨s', hs', halike⟩ : ∃ s', streamIn ⟨u, o'⟩ entry m = .ok s' ∧ Selection.Alike u s s' :=
    (matched_streamIn ho entry m).exists_ok hs
  obtain ⟨r', h'⟩ : ∃ r', ofStream m s' = .ok r' := exists_bind_pure_iff.2 (htrack s' hs')
  exact ⟨r', bind_eq_ok.2 ⟨s', hs', h'⟩, interchangeable_of_ofStream hu halike
    ⟨described_of_streamIn hs, hknown s hs⟩ ⟨described_of_streamIn hs', hknown' s' hs'⟩ h h'⟩

theorem function_mem_storage {m k : Member} {s : Selection} {r : Routine}
    (h : ofStream m s = .ok r) (hk : k ∈ r.callees) : .function k ∈ storage s.entries := by
  obtain ⟨l, hl, hroutine⟩ := List.mem_filterMap.1 hk
  have hfunction : l = .function k := by
    cases l <;> cases hroutine
    rfl
  subst hfunction
  rw [← List.mem_eraseDups, ← labels_of_ofStream h]
  exact List.mem_filter.2 ⟨hl, rfl⟩

end Routine

/-! ### Resolution -/

namespace Resolution

theorem sized_referenced_iff :
    (∀ l ∈ referenced rs, l.Sized u) ↔ ∀ r ∈ rs, r.Sized u := by
  simp only [referenced, List.mem_eraseDups, List.mem_flatMap, Routine.Sized]
  refine ⟨fun h r hr l hl => h l ⟨r, hr, hl⟩, ?_⟩
  rintro h l ⟨r, hr, hl⟩
  exact h r hr l hl

/-- **Labels can be resolved** iff memory can be placed, the aliases are in order, and all types have
a size. -/
theorem exists_ofRoutines_iff {bounds : RamBounds} :
    (∃ res, ofRoutines u bounds rs = .ok res) ↔ (∃ r, placeStorage u bounds rs = .ok r) ∧
      (∃ entries, assignAliases [] (aliases u) = .ok entries) ∧ u.HasBuiltIns ∧
      ∀ r ∈ rs, r.Sized u := by
  rw [ofRoutines_eq, ← sized_referenced_iff, ← exists_assignTypes_iff]
  constructor
  · rintro ⟨res, h⟩
    obtain ⟨r, hr, h⟩ := bind_eq_ok.1 h
    obtain ⟨aliasEntries, haliases, h⟩ := bind_eq_ok.1 h
    obtain ⟨typeEntries, htypes, h⟩ := bind_eq_ok.1 h
    exact ⟨⟨r, hr⟩, ⟨aliasEntries, haliases⟩, typeEntries, htypes⟩
  · rintro ⟨⟨r, hr⟩, ⟨aliasEntries, haliases⟩, typeEntries, htypes⟩
    exact ⟨_, bind_eq_ok.2 ⟨r, hr, bind_eq_ok.2 ⟨aliasEntries, haliases,
      bind_eq_ok.2 ⟨typeEntries, htypes, rfl⟩⟩⟩⟩

theorem forall_sized_iff (h : List.Forall₂ (Routine.Interchangeable u) rs rs') :
    (∀ r ∈ rs, r.Sized u) ↔ ∀ r ∈ rs', r.Sized u := by
  induction h with
  | nil => rfl
  | cons hr _ ih => rw [List.forall_mem_cons, List.forall_mem_cons, hr.sized, ih]

/-- Routines can be exchanged before labels are resolved. -/
theorem exists_ofRoutines_congr (bounds : RamBounds)
    (h : List.Forall₂ (Routine.Interchangeable u) rs rs') :
    (∃ res, ofRoutines u bounds rs = .ok res) ↔ ∃ res, ofRoutines u bounds rs' = .ok res := by
  have hsame : List.Forall₂ Routine.SameStorage rs rs' := h.imp fun _ _ hr => hr.toSameStorage
  rw [exists_ofRoutines_iff, exists_ofRoutines_iff, placeStorage_congr bounds hsame,
    forall_sized_iff h]

end Resolution

/-! ### Programs -/

namespace Program

/-- The methods that become routines of a program that starts at `entry`. -/
inductive Reaches (ctx : Context) (entry : Member) : Member → Prop where
  | start : Reaches ctx entry entry
  | call {m k : Member} {s : Selection} (hm : Reaches ctx entry m)
      (hs : Routine.streamIn ctx entry m = .ok s) (hk : .function k ∈ storage s.entries) :
      Reaches ctx entry k

/-- The stream of a routine of the program, before its stack is tracked. -/
def HasStream (ctx : Context) (m : Member) (s : Selection) : Prop :=
  ∃ entry, ctx.program.entryPoint = .ok entry ∧ Reaches ctx entry m ∧
    Routine.streamIn ctx entry m = .ok s

/-- Something holds of the streams of all routines. -/
def EveryStream (ctx : Context) (Q : List Entry → Prop) : Prop :=
  ∀ m s, HasStream ctx m s → Q s.entries

/-- No stack of the program gets too deep. -/
def Shallow (ctx : Context) : Prop :=
  EveryStream ctx fun es => StackModel.maxDepth es ≤ StackModel.maxWidth

/-- No routine pops whose stack never holds anything, so that the model of it has no slots. -/
def HasSlots (ctx : Context) : Prop :=
  EveryStream ctx fun es =>
    StackModel.maxDepth es = 0 → ∀ op ∈ es.filterMap (·.op?), op.effect.pops = 0

/-- What the pointers among the variables that routines refer to point to has a size. -/
def KnownPointees (ctx : Context) : Prop :=
  EveryStream ctx (Peephole.KnownPointees ctx.program)

/-- Every stack of the program can be tracked. -/
theorem Shallow.exists_track {ctx : Context} (hwidth : Shallow ctx) (hslots : HasSlots ctx) :
    EveryStream ctx fun es => ∃ out, StackModel.track es = .ok out :=
  fun m s hs => (StackModel.exists_track_iff s.entries).2 ⟨hwidth m s hs, hslots m s hs⟩

theorem Reaches.congr (ho : o'.inlineAllCalls = o.inlineAllCalls) {entry m : Member}
    (h : Reaches ⟨u, o⟩ entry m) : Reaches ⟨u, o'⟩ entry m := by
  induction h with
  | start => exact .start
  | @call m k s _ hs hk ih =>
    obtain ⟨s', hs', halike⟩ :
        ∃ s', Routine.streamIn ⟨u, o'⟩ entry m = .ok s' ∧ Selection.Alike u s s' :=
      (Routine.matched_streamIn ho entry m).exists_ok hs
    refine .call ih hs' ?_
    rw [← List.mem_eraseDups, ← halike.entries.eraseDups_storage
      (Routine.described_of_streamIn hs) (Routine.described_of_streamIn hs'), List.mem_eraseDups]
    exact hk

/-- A program is compiled iff everything that it is put together from exists. -/
theorem exists_compile_iff {ctx : Context} {date : String} :
    (∃ p, compile ctx date = .ok p) ↔ ∃ entry e rs, ctx.program.entryPoint = .ok entry ∧
      Routine.compileEntryPoint ctx entry = .ok e ∧ discover ctx [entry] e.callees = .ok rs ∧
      (∃ res, Resolution.ofRoutines ctx.program ctx.options.memory (e :: rs) = .ok res) ∧
      ∃ blocks, Listing.romBlocks ctx.program (e :: rs) = .ok blocks := by
  constructor
  · rintro ⟨p, h⟩
    obtain ⟨entry, hentry, h⟩ := bind_eq_ok.1 h
    obtain ⟨e, he, h⟩ := bind_eq_ok.1 h
    obtain ⟨rs, hrs, h⟩ := bind_eq_ok.1 h
    obtain ⟨res, hres, h⟩ := bind_eq_ok.1 h
    obtain ⟨blocks, hblocks, h⟩ := bind_eq_ok.1 h
    exact ⟨entry, e, rs, hentry, he, hrs, ⟨res, hres⟩, blocks, hblocks⟩
  · rintro ⟨entry, e, rs, hentry, he, hrs, ⟨res, hres⟩, blocks, hblocks⟩
    exact ⟨_, bind_eq_ok.2 ⟨entry, hentry, bind_eq_ok.2 ⟨e, he, bind_eq_ok.2 ⟨rs, hrs,
      bind_eq_ok.2 ⟨res, hres, bind_eq_ok.2 ⟨blocks, hblocks, rfl⟩⟩⟩⟩⟩⟩

section Exists

variable (ho : o'.inlineAllCalls = o.inlineAllCalls) (hu : u.HasBuiltIns)
    (hknown : KnownPointees ⟨u, o⟩) (hknown' : KnownPointees ⟨u, o'⟩)
    (htrack : EveryStream ⟨u, o'⟩ fun es => ∃ out, StackModel.track es = .ok out)

include ho hu hknown hknown' htrack in
theorem exists_compileIn {entry m : Member} {r : Routine} (hentry : u.entryPoint = .ok entry)
    (hm : Reaches ⟨u, o⟩ entry m) (h : Routine.compileIn ⟨u, o⟩ entry m = .ok r) :
    ∃ r', Routine.compileIn ⟨u, o'⟩ entry m = .ok r' ∧ r.Interchangeable u r' :=
  Routine.exists_compileIn ho hu (fun s hs => hknown m s ⟨entry, hentry, hm, hs⟩)
    (fun s hs => hknown' m s ⟨entry, hentry, hm.congr ho, hs⟩)
    (fun s hs => htrack m s ⟨entry, hentry, hm.congr ho, hs⟩) h

include ho hu hknown hknown' htrack in
/-- Discovery succeeds under other rules. -/
theorem exists_discover {entry : Member} {done queue : List Member}
    (hentry : u.entryPoint = .ok entry) (hdone : entry ∈ done)
    (hqueue : ∀ m ∈ queue, Reaches ⟨u, o⟩ entry m) (h : discover ⟨u, o⟩ done queue = .ok rs) :
    ∃ rs', discover ⟨u, o'⟩ done queue = .ok rs' ∧
      List.Forall₂ (Routine.Interchangeable u) rs rs' := by
  fun_induction discover ⟨u, o⟩ done queue generalizing rs with
  | case1 done =>
    cases h
    exact ⟨[], by rw [discover], .nil⟩
  | case2 done m queue hm ih =>
    obtain ⟨r, hr, h⟩ := bind_eq_ok.1 h
    obtain ⟨rest, hrest, h⟩ := bind_eq_ok.1 h
    cases pure_eq_ok.1 h
    obtain ⟨hfirst, hqueue⟩ := List.forall_mem_cons.1 hqueue
    have hne : m ≠ entry := fun heq => hm.2 (heq ▸ hdone)
    rw [← Routine.compileIn_of_ne _ hne] at hr
    obtain ⟨r', hr', hrr'⟩ := exists_compileIn ho hu hknown hknown' htrack hentry hfirst hr
    -- What the routine calls is reached too.
    have hcallees : ∀ k ∈ queue ++ r.callees, Reaches ⟨u, o⟩ entry k := by
      refine List.forall_mem_append.2 ⟨hqueue, fun k hk => ?_⟩
      obtain ⟨s, hs, hr⟩ := bind_eq_ok.1 hr
      exact .call hfirst hs (Routine.function_mem_storage hr hk)
    obtain ⟨rest', hrest', hrests⟩ := ih r (List.mem_append_left _ hdone) hcallees hrest
    refine ⟨r' :: rest', ?_, .cons hrr' hrests⟩
    rw [discover, dif_pos hm]
    rw [Routine.compileIn_of_ne _ hne] at hr'
    refine bind_eq_ok.2 ⟨r', hr', bind_eq_ok.2 ⟨rest', ?_, rfl⟩⟩
    rw [← hrr'.toSameStorage.callees]
    exact hrest'
  | case3 done m queue hm ih =>
    obtain ⟨rs', hrs', hrs⟩ := ih hdone (List.forall_mem_cons.1 hqueue).2 h
    exact ⟨rs', by rw [discover, dif_neg hm, hrs'], hrs⟩

include ho hknown hknown' htrack in
/-- A program that is compiled is compiled under other rules. -/
theorem exists_compile (hmemory : o'.memory = o.memory) {date date' : String}
    (h : ∃ p, compile ⟨u, o⟩ date = .ok p) : ∃ p, compile ⟨u, o'⟩ date' = .ok p := by
  obtain ⟨entry, e, rs, hentry, he, hrs, hres, blocks, hblocks⟩ := exists_compile_iff.1 h
  have hu : u.HasBuiltIns := (Resolution.exists_ofRoutines_iff.1 hres).2.2.1
  -- Both choices of rules lead to routines that can be exchanged.
  rw [← Routine.compileIn_self] at he
  obtain ⟨e', he', hee'⟩ := exists_compileIn ho hu hknown hknown' htrack hentry .start he
  have hcallees : ∀ k ∈ e.callees, Reaches ⟨u, o⟩ entry k := by
    intro k hk
    obtain ⟨s, hs, he⟩ := bind_eq_ok.1 he
    exact .call .start hs (Routine.function_mem_storage he hk)
  obtain ⟨rs', hrs', hall⟩ := exists_discover ho hu hknown hknown' htrack hentry
    (List.mem_singleton_self entry) hcallees hrs
  rw [Routine.compileIn_self] at he'
  rw [hee'.toSameStorage.callees] at hrs'
  -- What comes after them looks at nothing that rules change.
  have hres' : ∃ res, Resolution.ofRoutines u o'.memory (e' :: rs') = .ok res := by
    rw [hmemory, ← Resolution.exists_ofRoutines_congr o.memory (.cons hee' hall)]
    exact hres
  have hblocks' := Listing.romBlocks_congr u
    (.cons hee'.toSameStorage (hall.imp fun _ _ hr => hr.toSameStorage))
  exact exists_compile_iff.2 ⟨entry, e', rs', hentry, he', hrs', hres', blocks,
    hblocks'.symm.trans hblocks⟩

end Exists

/-! ### Programs of one routine -/

/-- A test of the stream of an entry point, which must not call any routine. -/
def testAlone (ctx : Context) (test : List Entry → Bool) : Bool :=
  match ctx.program.entryPoint >>= Routine.entryStream ctx with
  | .ok s => test s.entries && (storage s.entries).all fun l => l.routine?.isNone
  | .error _ => true

theorem eq_of_reaches {ctx : Context} {entry m : Member}
    (hcalls : ∀ s, Routine.entryStream ctx entry = .ok s → ∀ k, .function k ∉ storage s.entries)
    (hm : Reaches ctx entry m) : m = entry := by
  induction hm with
  | start => rfl
  | @call m k s _ hs hk ih =>
    subst ih
    rw [Routine.streamIn, if_pos rfl] at hs
    exact absurd hk (hcalls s hs k)

/-- If the entry point calls no routine, then its stream is the only one. -/
theorem everyStream_of_testAlone {ctx : Context} {Q : List Entry → Prop} [DecidablePred Q]
    (h : testAlone ctx (fun es => decide (Q es)) = true) : EveryStream ctx Q := by
  rintro m s ⟨entry, hentry, hm, hs⟩
  have htest : ∀ s, Routine.entryStream ctx entry = .ok s →
      Q s.entries ∧ ∀ k, .function k ∉ storage s.entries := by
    intro s hs
    have hstream : (ctx.program.entryPoint >>= Routine.entryStream ctx) = .ok s :=
      bind_eq_ok.2 ⟨entry, hentry, hs⟩
    rw [testAlone, hstream, Bool.and_eq_true, List.all_eq_true] at h
    exact ⟨of_decide_eq_true h.1, fun k hk => absurd (h.2 _ hk) Bool.false_ne_true⟩
  cases eq_of_reaches (fun s hs => (htest s hs).2) hm
  rw [Routine.streamIn, if_pos rfl] at hs
  exact (htest s hs).1

/-- A program of one method without parameters. -/
def single (locals : List TypeName) (body : List Instruction) : Universe :=
  let types : List TypeDecl :=
    [{ name := .byte, primitiveSize := some 1 }, { name := .boolean, primitiveSize := some 1 },
     { name := .nothing, primitiveSize := some 0 },
     { name := ⟨"Game.Program"⟩, methods := [{ name := "Main", body, locals }] }]
  ⟨[{ name := "Game", types, entryPoint := some ⟨⟨"Game.Program"⟩, "Main"⟩ }]⟩

/-- Three locals, of which the last points to a type that is not declared, but is not used.
Something is taken from the empty stack first, but there is more on it later. -/
def pointer : Universe :=
  single [.byte, ⟨"System.Byte*"⟩, ⟨"Game.Sprite*"⟩]
    [⟨0, .pop, .absent⟩, ⟨1, .ldc5, .absent⟩, ⟨2, .stloc0, .absent⟩, ⟨3, .ldloc0, .absent⟩,
     ⟨4, .dup, .absent⟩, ⟨5, .stloc0, .absent⟩, ⟨6, .stloc0, .absent⟩, ⟨7, .ldc0, .absent⟩,
     ⟨8, .stloc1, .absent⟩, ⟨9, .br, .target 0⟩]

/-! ### Acceptance -/

/-- **Rules have no influence on acceptance** if under both choices of optional rules no stack gets
too deep, no routine pops whose stack never holds anything, and the pointers among the variables
that routines refer to point to types that have a size: a program is then compiled under both
choices or under none. -/
theorem accepted_iff (u : Universe) (o : Options) (off : Bool) (disabled : List String)
    (hwidth : Shallow ⟨u, o⟩) (hwidth' : Shallow ⟨u, o.withRules off disabled⟩)
    (hslots : HasSlots ⟨u, o⟩) (hslots' : HasSlots ⟨u, o.withRules off disabled⟩)
    (hpointees : KnownPointees ⟨u, o⟩) (hpointees' : KnownPointees ⟨u, o.withRules off disabled⟩)
    (date date' : String) :
    (∃ p, compile ⟨u, o⟩ date = .ok p) ↔
      ∃ p, compile ⟨u, o.withRules off disabled⟩ date' = .ok p := by
  have ho := o.inlineAllCalls_withRules off disabled
  exact ⟨exists_compile ho hpointees hpointees' (hwidth'.exists_track hslots') rfl,
    exists_compile ho.symm hpointees' hpointees (hwidth.exists_track hslots) rfl⟩

theorem accepted_iff_pointer :
    (Shallow ⟨pointer, {}⟩ ∧ HasSlots ⟨pointer, {}⟩ ∧ KnownPointees ⟨pointer, {}⟩) ∧
      (Shallow ⟨pointer, Options.withRules {} true []⟩ ∧
        HasSlots ⟨pointer, Options.withRules {} true []⟩ ∧
        KnownPointees ⟨pointer, Options.withRules {} true []⟩) ∧
      (∃ p, compile ⟨pointer, {}⟩ "" = .ok p) ∧
      ∃ p, compile ⟨pointer, Options.withRules {} true []⟩ "" = .ok p := by
  have hwidth : Shallow ⟨pointer, {}⟩ := everyStream_of_testAlone (by decide +kernel)
  have hslots : HasSlots ⟨pointer, {}⟩ := everyStream_of_testAlone (by decide +kernel)
  have hpointees : KnownPointees ⟨pointer, {}⟩ := everyStream_of_testAlone (by decide +kernel)
  have hwidth' : Shallow ⟨pointer, Options.withRules {} true []⟩ :=
    everyStream_of_testAlone (by decide +kernel)
  have hslots' : HasSlots ⟨pointer, Options.withRules {} true []⟩ :=
    everyStream_of_testAlone (by decide +kernel)
  have hpointees' : KnownPointees ⟨pointer, Options.withRules {} true []⟩ :=
    everyStream_of_testAlone (by decide +kernel)
  have hp : ∃ p, compile ⟨pointer, {}⟩ "" = .ok p := exists_compile_alone (by decide +kernel)
  exact ⟨⟨hwidth, hslots, hpointees⟩, ⟨hwidth', hslots', hpointees'⟩, hp,
    (accepted_iff pointer {} true [] hwidth hwidth' hslots hslots' hpointees hpointees' "" "").1 hp⟩

/-- A pointer to a type that is not declared gets a constant. -/
def sprite : Universe :=
  single [⟨"Game.Sprite*"⟩]
    [⟨0, .ldc0, .absent⟩, ⟨1, .stloc0, .absent⟩, ⟨2, .ret, .absent⟩]

/-- Something is taken from the empty stack, before an assignment. -/
def underflow : Universe :=
  single [.byte]
    [⟨0, .pop, .absent⟩, ⟨1, .ldc0, .absent⟩, ⟨2, .stloc0, .absent⟩, ⟨3, .ret, .absent⟩]

/-- **Rules can decide on acceptance**, even if no stack gets too deep: of a program with a pointer
to a type that has no size, and of one with a routine that pops from a stack that holds nothing. -/
theorem rules_decide_acceptance :
    (Shallow ⟨sprite, {}⟩ ∧ HasSlots ⟨sprite, {}⟩ ∧
      Shallow ⟨sprite, Options.withRules {} true []⟩ ∧
      HasSlots ⟨sprite, Options.withRules {} true []⟩ ∧ (∃ p, compile ⟨sprite, {}⟩ "" = .ok p) ∧
      compile ⟨sprite, Options.withRules {} true []⟩ "" = .error (.missingType "Game.Sprite")) ∧
    (Shallow ⟨underflow, {}⟩ ∧ KnownPointees ⟨underflow, {}⟩ ∧
      Shallow ⟨underflow, Options.withRules {} true []⟩ ∧
      KnownPointees ⟨underflow, Options.withRules {} true []⟩ ∧
      compile ⟨underflow, {}⟩ "" = .error .stackDepth ∧
      ∃ p, compile ⟨underflow, Options.withRules {} true []⟩ "" = .ok p) := by
  refine ⟨⟨?_, ?_, ?_, ?_, ?_, ?_⟩, ?_, ?_, ?_, ?_, ?_, ?_⟩
  · exact everyStream_of_testAlone (by decide +kernel)
  · exact everyStream_of_testAlone (by decide +kernel)
  · exact everyStream_of_testAlone (by decide +kernel)
  · exact everyStream_of_testAlone (by decide +kernel)
  · exact exists_compile_alone (by decide +kernel)
  · exact compile_alone_eq_error (by decide +kernel)
  · exact everyStream_of_testAlone (by decide +kernel)
  · exact everyStream_of_testAlone (by decide +kernel)
  · exact everyStream_of_testAlone (by decide +kernel)
  · exact everyStream_of_testAlone (by decide +kernel)
  · exact compile_alone_eq_error (by decide +kernel)
  · exact exists_compile_alone (by decide +kernel)

end Program

end Cartridge
