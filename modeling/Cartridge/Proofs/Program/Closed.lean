import Cartridge.Proofs.Program.Evaluation
import Cartridge.Proofs.Resolution
import Cartridge.Proofs.Routine.Compiled

/-!
# Compiled programs are closed

Every name that a compiled program uses is defined in it: the labels that branches lead to, the
routines that are called, the data in ROM, and the memory and numbers that labels stand for.

* `Program.of_discover`: discovery compiles each method once, and every method that is called from
  a compiled routine is compiled or was done before.
* `Program.of_compile`: what a program is put together from.
* **`Program.closed_of_compile`**: the program is closed.
-/

namespace Cartridge

/-! ### Operands -/

/-- The labels in the operands of a macro or in the elements of a stack array. -/
def Entry.operandLabels : Entry → List Label
  | .invoke call => call.op.parameters.flatMap (·.labels)
  | .directive (.arrayLet _ elements) => elements.flatMap (·.labels)
  | _ => []

theorem MacroOp.labels_parameters (op : MacroOp) :
    op.parameters.flatMap (·.labels) = op.labels := by
  cases op <;> rfl

theorem Entry.operandLabels_subset (e : Entry) : e.operandLabels ⊆ e.labels := by
  cases e with
  | invoke call =>
    rw [operandLabels, MacroOp.labels_parameters]
    exact List.Subset.refl _
  | directive d =>
    cases d with
    | arrayLet array elements => exact List.Subset.refl _
    | _ => exact List.nil_subset _
  | _ => exact List.nil_subset _

/-- No instruction names a field by a pointer to the type that declares it. -/
def Universe.PlainFields (u : Universe) : Prop :=
  ∀ t ∈ u.types, ∀ d ∈ t.methods, ∀ i ∈ d.body, ∀ f, i.operand = .field f →
    f.declaringType.isPointer = false

/-! ### Discovery -/

theorem Routine.method_of_compile {ctx : Context} {m : Member} {r : Routine}
    (h : Routine.compile ctx m = .ok r) : r.method = m := by
  obtain ⟨sel, -, h⟩ := bind_eq_ok.1 h
  obtain ⟨optimized, -, h⟩ := bind_eq_ok.1 h
  obtain ⟨tracked, -, h⟩ := bind_eq_ok.1 h
  cases pure_eq_ok.1 h
  rfl

namespace Program

/-- What discovery returns: routines of distinct methods that were not done, and among them or the
done methods whatever is in the queue or called from one of them. -/
structure Discovered (ctx : Context) (done queue : List Member) (rs : List Routine) : Prop where
  compiled : ∀ r ∈ rs, Routine.compile ctx r.method = .ok r
  nodup : (rs.map (·.method)).Nodup
  fresh : ∀ r ∈ rs, r.method ∉ done
  reached : ∀ m ∈ ctx.program.callees, (m ∈ queue ∨ ∃ r ∈ rs, m ∈ r.callees) →
    m ∈ done ∨ ∃ r ∈ rs, r.method = m

theorem of_discover {ctx : Context} {done queue : List Member} {rs : List Routine}
    (h : discover ctx done queue = .ok rs) : Discovered ctx done queue rs := by
  fun_induction discover ctx done queue generalizing rs with
  | case1 done =>
    cases h
    exact ⟨by simp, List.nodup_nil, by simp, by simp⟩
  | case2 done m queue hm ih =>
    obtain ⟨r, hr, h⟩ := bind_eq_ok.1 h
    obtain ⟨rest, hrest, h⟩ := bind_eq_ok.1 h
    cases pure_eq_ok.1 h
    have hmethod := Routine.method_of_compile hr
    obtain ⟨hcompiled, hnodup, hfresh, hreached⟩ := ih r hrest
    refine ⟨List.forall_mem_cons.2 ⟨hmethod ▸ hr, hcompiled⟩, ?_, ?_, fun k hk hq => ?_⟩
    · refine List.nodup_cons.2 ⟨fun hmem => ?_, hnodup⟩
      obtain ⟨r', hr', heq⟩ := List.mem_map.1 hmem
      exact hfresh r' hr' (by simp [heq, hmethod])
    · refine List.forall_mem_cons.2 ⟨hmethod ▸ hm.2, fun r' hr' hdone => ?_⟩
      exact hfresh r' hr' (List.mem_append_left _ hdone)
    · -- What is in the queue is done now, or still in the queue for the rest.
      by_cases hkm : k = m
      · exact .inr ⟨r, List.mem_cons_self .., hmethod.trans hkm.symm⟩
      · have hq' : k ∈ queue ++ r.callees ∨ ∃ r' ∈ rest, k ∈ r'.callees := by
          rw [List.mem_append]
          rcases hq with hq | ⟨r', hr', hcall⟩
          · exact .inl (.inl ((List.mem_cons.1 hq).resolve_left hkm))
          · rcases List.mem_cons.1 hr' with rfl | hr'
            · exact .inl (.inr hcall)
            · exact .inr ⟨r', hr', hcall⟩
        rcases hreached k hk hq' with hdone | ⟨r', hr', heq⟩
        · exact .inl ((List.mem_append.1 hdone).resolve_right (by simpa using hkm))
        · exact .inr ⟨r', List.mem_cons_of_mem _ hr', heq⟩
  | case3 done m queue hm ih =>
    obtain ⟨hcompiled, hnodup, hfresh, hreached⟩ := ih h
    refine ⟨hcompiled, hnodup, hfresh, fun k hk hq => ?_⟩
    by_cases hdone : k ∈ done
    · exact .inl hdone
    · refine hreached k hk (hq.imp_left fun hq => ?_)
      rcases List.mem_cons.1 hq with rfl | hq
      · exact absurd ⟨hk, hdone⟩ hm
      · exact hq

/-! ### Programs -/

/-- **What a program is put together from.** -/
theorem of_compile {ctx : Context} {date : String} {p : Program} (h : compile ctx date = .ok p) :
    ∃ entry blocks, Routine.compileEntryPoint ctx entry = .ok p.entryPoint ∧
      Discovered ctx [entry] p.entryPoint.callees p.routines ∧
      Resolution.ofRoutines ctx.program ctx.options.memory p.all = .ok p.resolution ∧
      Listing.romBlocks ctx.program p.all = .ok blocks ∧
      p.entries = Listing.entries p.entryPoint p.routines p.resolution.assignments blocks
        (if ctx.options.emitTimestamp then some date else none) := by
  obtain ⟨entry, -, h⟩ := bind_eq_ok.1 h
  obtain ⟨entryPoint, hentry, h⟩ := bind_eq_ok.1 h
  obtain ⟨routines, hroutines, h⟩ := bind_eq_ok.1 h
  obtain ⟨resolution, hresolution, h⟩ := bind_eq_ok.1 h
  obtain ⟨blocks, hblocks, h⟩ := bind_eq_ok.1 h
  cases pure_eq_ok.1 h
  exact ⟨entry, blocks, hentry, of_discover hroutines, hresolution, hblocks, rfl⟩

variable {ctx : Context} {date : String} {p : Program}

theorem compiled_of_mem_all (hu : ctx.program.WellFormed) (h : compile ctx date = .ok p)
    {r : Routine} (hr : r ∈ p.all) : r.Compiled ctx.program := by
  obtain ⟨entry, blocks, hentry, hdiscovered, -⟩ := of_compile h
  rcases List.mem_cons.1 hr with rfl | hr
  · exact (Routine.compiled_of_compileEntryPoint hu hentry).2
  · exact (Routine.compiled_of_compile hu (hdiscovered.compiled r hr)).2

theorem mem_callees {r : Routine} {e : Entry} {m : Member} (he : e ∈ r.body)
    (hm : .function m ∈ e.labels) : m ∈ r.callees :=
  List.mem_filterMap.2 ⟨.function m,
    List.mem_eraseDups.2 (List.mem_flatMap.2 ⟨e, he, hm⟩), rfl⟩

/-- Every routine that is called is compiled. -/
theorem exists_routine (hu : ctx.program.WellFormed) (h : compile ctx date = .ok p) {r : Routine}
    (hr : r ∈ p.all) {e : Entry} (he : e ∈ r.body) {m : Member} (hm : .function m ∈ e.labels) :
    ∃ r' ∈ p.all, r'.method = m := by
  have hcallee : m ∈ ctx.program.callees := (compiled_of_mem_all hu h hr).declared e he _ hm
  obtain ⟨entry, blocks, hentry, hdiscovered, -⟩ := of_compile h
  have hreached : m ∈ p.entryPoint.callees ∨ ∃ r ∈ p.routines, m ∈ r.callees := by
    rcases List.mem_cons.1 hr with rfl | hr
    · exact .inl (mem_callees he hm)
    · exact .inr ⟨r, hr, mem_callees he hm⟩
  rcases hdiscovered.reached m hcallee hreached with hdone | ⟨r', hr', heq⟩
  · refine ⟨p.entryPoint, List.mem_cons_self .., ?_⟩
    rw [List.mem_singleton.1 hdone]
    exact (Routine.compiled_of_compileEntryPoint hu hentry).1
  · exact ⟨r', List.mem_cons_of_mem _ hr', heq⟩

/-- Macros and stack arrays stand in routines only. -/
theorem exists_mem_body (h : compile ctx date = .ok p) {e : Entry} (he : e ∈ p.entries)
    (hne : e.operandLabels ≠ []) : ∃ r ∈ p.all, e ∈ r.body := by
  obtain ⟨entry, blocks, -, -, hresolution, -, hentries⟩ := of_compile h
  obtain ⟨placed, types, hassignments, hplaced, htypes, -⟩ := Resolution.of_ofRoutines hresolution
  rw [hentries, Listing.entries] at he
  simp only [List.mem_append] at he
  rcases he with ((((((he | he) | he) | he) | he) | he) | he) | he
  · unfold Listing.dateLine at he
    split at he
    · rcases List.mem_pair.1 he with rfl | rfl <;> exact absurd rfl hne
    · cases he
  · simp only [Listing.header, List.mem_cons, List.not_mem_nil, or_false] at he
    rcases he with rfl | rfl | rfl | rfl | rfl | rfl <;> exact absurd rfl hne
  · rw [hassignments, List.mem_append, List.mem_append] at he
    rcases he with (he | he) | he
    · obtain ⟨l, value, rfl⟩ := hplaced.of_mem he
      exact absurd rfl hne
    · obtain ⟨a, -, rfl⟩ := List.mem_map.1 he
      exact absurd rfl hne
    · obtain ⟨l, value, rfl⟩ := htypes.of_mem he
      exact absurd rfl hne
  · rcases List.mem_pair.1 he with rfl | rfl <;> exact absurd rfl hne
  · exact ⟨p.entryPoint, List.mem_cons_self .., he⟩
  · obtain ⟨r, hr, he⟩ := List.mem_flatMap.1 he
    rcases List.mem_cons.1 he with rfl | he
    · exact absurd rfl hne
    · exact ⟨r, List.mem_cons_of_mem _ hr, he⟩
  · obtain ⟨b, -, he⟩ := List.mem_flatMap.1 he
    simp only [Listing.romEntries, List.mem_cons, List.mem_map] at he
    rcases he with rfl | rfl | ⟨byte, -, rfl⟩ <;> exact absurd rfl hne
  · simp only [Listing.vectors, List.mem_cons, List.not_mem_nil, or_false] at he
    rcases he with rfl | rfl | rfl | rfl <;> exact absurd rfl hne

theorem assignments_subset (h : compile ctx date = .ok p) :
    p.resolution.assignments ⊆ p.entries := by
  obtain ⟨entry, blocks, -, -, -, -, hentries⟩ := of_compile h
  intro e he
  rw [hentries, Listing.entries]
  simp only [List.mem_append]
  exact .inl (.inl (.inl (.inl (.inl (.inr he)))))

/-- The data in ROM that a routine refers to stands in the program. -/
theorem exists_romBlock (h : compile ctx date = .ok p) {r : Routine} (hr : r ∈ p.all) {e : Entry}
    (he : e ∈ r.body) {f : Member} (hf : .romData f ∈ e.labels) :
    ∃ b, Listing.romBlock ctx.program f = .ok b ∧ Listing.romEntries b <:+: p.entries := by
  obtain ⟨entry, blocks, -, -, -, hblocks, hentries⟩ := of_compile h
  have hmem : f ∈ ((p.all.flatMap (·.labels)).filterMap (·.romField?)).eraseDups := by
    refine List.mem_eraseDups.2 (List.mem_filterMap.2 ⟨.romData f, ?_, rfl⟩)
    exact List.mem_flatMap.2 ⟨r, hr, List.mem_eraseDups.2 (List.mem_flatMap.2 ⟨e, he, hf⟩)⟩
  obtain ⟨b, hb, hblock⟩ := exists_mem_of_mapM hblocks hmem
  refine ⟨b, hblock, ?_⟩
  have hinfix : Listing.romEntries b <:+: blocks.flatMap Listing.romEntries := by
    obtain ⟨before, after, rfl⟩ := List.append_of_mem hb
    refine ⟨before.flatMap Listing.romEntries, after.flatMap Listing.romEntries, ?_⟩
    rw [List.flatMap_append, List.flatMap_cons, List.append_assoc]
  rw [hentries, Listing.entries]
  exact hinfix.trans (List.infix_append _ _ _)

/-- A program that uses no undefined name. -/
structure Closed (u : Universe) (p : Program) : Prop where
  /-- A branch has its label exactly once in the innermost block around it, or outside of all blocks
  of its routine if it is there. -/
  branches : ∀ r ∈ p.all, ∀ c e op l, (c, e) ∈ Scope.tagged r.body → e.op? = some op →
    op.branchTarget? = some l → (Scope.tagged r.body).count (c, .label l) = 1
  /-- A routine that is called is compiled, with its label. -/
  calls : ∀ r ∈ p.all, ∀ e ∈ r.body, ∀ m, .function m ∈ e.operandLabels →
    ∃ r' ∈ p.all, r'.method = m ∧ .label (.function m) ∈ r'.body
  /-- Data in ROM that is referred to stands in the program. -/
  romData : ∀ r ∈ p.all, ∀ e ∈ r.body, ∀ f, .romData f ∈ e.operandLabels →
    ∃ b, Listing.romBlock u f = .ok b ∧ Listing.romEntries b <:+: p.entries
  /-- The name of a label that stands for memory or a number is assigned. -/
  values : ∀ e ∈ p.entries, ∀ l ∈ e.operandLabels, l.needsValue = true →
    ∃ l' value, .directive (.labelAssign l' value) ∈ p.entries ∧ l'.text = l.text

/-- **Compiled programs are closed.** It is enough that offsets are distinct in every body, that
every branch leads to an instruction of its own body, and that no instruction names a field by a
pointer to its type. -/
theorem closed_of_compile (hu : ctx.program.WellFormed) (hfields : ctx.program.PlainFields)
    (h : compile ctx date = .ok p) : p.Closed ctx.program := by
  refine ⟨fun r hr c e op l he hop hl => ?_, fun r hr e he m hm => ?_, fun r hr e he f hf => ?_,
    fun e he l hl hv => ?_⟩
  · exact (compiled_of_mem_all hu h hr).count_label hu he hop hl
  · obtain ⟨r', hr', rfl⟩ := exists_routine hu h hr he (e.operandLabels_subset hm)
    exact ⟨r', hr', rfl, (compiled_of_mem_all hu h hr').label_mem⟩
  · exact exists_romBlock h hr he (e.operandLabels_subset hf)
  · obtain ⟨r, hr, he⟩ := exists_mem_body h he (List.ne_nil_of_mem hl)
    have hlabel := e.operandLabels_subset hl
    have hdeclared := (compiled_of_mem_all hu h hr).declared e he l hlabel
    -- A static field is looked up without pointer marks, but its label keeps them.
    have hplain : ∀ f, l = .global f → f.declaringType.isPointer = false := by
      rintro f rfl
      obtain ⟨⟨i, ⟨t, ht, d, hd, hi⟩, hoperand⟩, -⟩ := hdeclared
      exact hfields t ht d hd i hi f hoperand
    have href : l ∈ Resolution.referenced p.all := by
      refine List.mem_eraseDups.2 (List.mem_flatMap.2 ⟨r, hr, List.mem_append_left _ ?_⟩)
      exact List.mem_eraseDups.2 (List.mem_flatMap.2 ⟨e, he, hlabel⟩)
    obtain ⟨entry, blocks, -, -, hresolution, -⟩ := of_compile h
    obtain ⟨l', value, hmem, htext⟩ :=
      Resolution.exists_assign hresolution href hdeclared hplain hv
    exact ⟨l', value, assignments_subset h hmem, htext⟩

/-- A loop, around a loop in an inlined body and a call of a routine with a loop. The instructions
of the routine begin at `offset`. -/
def loops (offset : UInt32) : Context :=
  let game : TypeName := ⟨"Game"⟩
  let wait (offset : UInt32) (branch : Opcode) : List Instruction :=
    [⟨offset, .ldsfld, .field ⟨game, "score"⟩⟩, ⟨offset + 1, branch, .target offset⟩,
     ⟨offset + 2, .ret, .absent⟩]
  let main : List Instruction :=
    [⟨0, .call, .method ⟨game, "Wait"⟩⟩, ⟨1, .call, .method ⟨game, "Tick"⟩⟩, ⟨2, .br, .target 0⟩]
  let types : List TypeDecl :=
    [{ name := .byte, primitiveSize := some 1 }, { name := .boolean, primitiveSize := some 1 },
     { name := .nothing, primitiveSize := some 0 },
     { name := game
       fields := [{ name := "score", type := .byte, isStatic := true }]
       methods :=
         [{ name := "Main", body := main }, { name := "Tick", body := wait offset .brtrue },
          { name := "Wait", body := wait 0 .brfalse, marker := some .alwaysInline }] }]
  ⟨⟨[{ name := "Game", types, entryPoint := some ⟨game, "Main"⟩ }]⟩, {}⟩

/-- What a front end promises holds of `loops`. -/
theorem loops_bodies {offset : UInt32} (hoffset : offset = 0 ∨ offset = 16) :
    ∀ t ∈ (loops offset).program.types, ∀ d ∈ t.methods, d.WellFormed ∧
      ∀ i ∈ d.body, ∀ f, i.operand = .field f → f.declaringType.isPointer = false := by
  intro t ht d hd
  simp only [loops, Universe.types, List.flatMap_cons, List.flatMap_nil, List.append_nil,
    List.mem_cons, List.not_mem_nil, or_false] at ht
  rcases ht with rfl | rfl | rfl | rfl
  · cases hd
  · cases hd
  · cases hd
  · simp only [List.mem_cons, List.not_mem_nil, or_false] at hd
    rcases hoffset with rfl | rfl <;> rcases hd with rfl | rfl | rfl
    all_goals
      refine ⟨⟨by decide, fun i hi o ho => ?_⟩, fun i hi f hf => ?_⟩
      · simp only [List.mem_cons, List.not_mem_nil, or_false] at hi
        rcases hi with rfl | rfl | rfl <;> cases ho
        decide
      · simp only [List.mem_cons, List.not_mem_nil, or_false] at hi
        rcases hi with rfl | rfl | rfl <;> cases hf
        all_goals rfl

/-- The methods of `loops` that become routines. -/
def loopsRoutines : List Member := [⟨⟨"Game"⟩, "Main"⟩, ⟨⟨"Game"⟩, "Tick"⟩]

/-- Both routines of `loops 0` jump to their first instruction, which is at the same offset. -/
theorem loops_zero_compiles :
    ∃ p, compile (loops 0) "" = .ok p ∧ p.all.map (·.method) = loopsRoutines := by
  have heval : (compileWithin 1 (loops 0) "").map (·.map fun p => p.all.map (·.method)) =
      some (.ok loopsRoutines) := by decide +kernel
  exact exists_compile_of_within heval

theorem closed_of_compile_loops :
    ∃ p, compile (loops 0) "" = .ok p ∧ p.Closed (loops 0).program := by
  obtain ⟨p, hp, -⟩ := loops_zero_compiles
  have hbodies := loops_bodies (.inl rfl)
  have hu : (loops 0).program.WellFormed := fun t ht d hd => (hbodies t ht d hd).1
  have hfields : (loops 0).program.PlainFields := fun t ht d hd => (hbodies t ht d hd).2
  exact ⟨p, hp, closed_of_compile hu hfields hp⟩

end Program

end Cartridge
