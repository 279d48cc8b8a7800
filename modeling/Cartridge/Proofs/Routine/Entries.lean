import Cartridge.Routine.Compile
import Cartridge.Proofs.Descent
import Cartridge.Proofs.Peephole.Rewriting

/-!
# Properties of all entries

A body is selected, wrapped as a block, optimized and framed, and bodies are put into bodies. A
property of single entries holds of everything that comes out if it holds of what selection returns
and of the entries that frame bodies, and if rules keep it (`Routine.Invariant`). The induction over
inlined bodies is made once, in `Invariant.of_inlined`.
-/

namespace Cartridge.Routine

open Peephole (Rewrites optimize)

/-- Whether an entry is put around bodies: a label, a comment, or a mark of a block or of a body. -/
def isFraming : Entry → Bool
  | .label _ | .comment _ | .inlineFunction .. | .endFunction => true
  | .directive .beginBlock | .directive .endBlock => true
  | _ => false

/-- What a property of entries needs in order to hold of all entries of a body. -/
structure Invariant (ctx : Context) (P : Entry → Prop) : Prop where
  select : ∀ {m : Member} {d : MethodDecl} {inline : Member → Except Error Routine}
    {i : Instruction} {sel : Selection}, ctx.program.findMethod m = .ok d → i ∈ d.body →
    (∀ callee body, inline callee = .ok body → ∀ e ∈ body.body, P e) →
    Site.select ⟨ctx, m, d, inline⟩ i = .ok sel → ∀ e ∈ sel.entries, P e
  replace : ∀ {rule : Rule} {w r : List Entry}, rule.Replaces ctx.program w r →
    (∀ e ∈ w, P e) → ∀ e ∈ r, P e
  framing : ∀ e, isFraming e = true → P e
  start : P (.synthetic .entryPoint)
  /-- A return that has become a jump. -/
  jump : ∀ (m : Member) (sources : List Instruction), P (.invoke ⟨.branch (inlineEnd m), sources⟩)

namespace Invariant

variable {ctx : Context} {P : Entry → Prop} {m : Member} {es out : List Entry}

theorem of_rewrites (hP : Invariant ctx P) {rules : List Rule} (hes : ∀ e ∈ es, P e)
    (h : Rewrites ctx.program rules es out) : ∀ e ∈ out, P e := by
  obtain ⟨before, after, -, hw⟩ := h
  simp only [List.forall_mem_append] at hes ⊢
  exact ⟨⟨hes.1.1, hP.replace hw hes.1.2⟩, hes.2⟩

theorem of_reflTransGen (hP : Invariant ctx P) {rules : List Rule} (hes : ∀ e ∈ es, P e)
    (h : Relation.ReflTransGen (Rewrites ctx.program rules) es out) : ∀ e ∈ out, P e := by
  induction h with
  | refl => exact hes
  | tail _ hstep ih => exact hP.of_rewrites ih hstep

theorem of_optimize (hP : Invariant ctx P) (hes : ∀ e ∈ es, P e)
    (h : optimize ctx m es = .ok out) : ∀ e ∈ out, P e :=
  hP.of_reflTransGen hes (Peephole.reflTransGen_of_optimize h)

theorem of_labelAt (hP : Invariant ctx P) (targets : List UInt32) (i : Instruction) :
    ∀ e ∈ labelAt targets i, P e := by
  intro e he
  unfold labelAt at he
  split at he
  · cases List.mem_singleton.1 he
    exact hP.framing _ rfl
  · cases he

theorem of_selectBody (hP : Invariant ctx P) {inline : Member → Except Error Routine}
    {sel : Selection}
    (hinline : ∀ callee body, inline callee = .ok body → ∀ e ∈ body.body, P e)
    (h : selectBody ctx inline m = .ok sel) : ∀ e ∈ sel.entries, P e := by
  obtain ⟨d, hd, h⟩ := bind_eq_ok.1 h
  obtain ⟨parts, hparts, h⟩ := bind_eq_ok.1 h
  cases pure_eq_ok.1 h
  intro e he
  obtain ⟨part, hpart, he⟩ := List.mem_flatMap.1 he
  obtain ⟨i, hi, hselect⟩ := exists_of_mem_mapM hparts hpart
  obtain ⟨selected, hselected, hselect⟩ := bind_eq_ok.1 hselect
  cases pure_eq_ok.1 hselect
  rcases List.mem_append.1 he with he | he
  · exact hP.of_labelAt _ i e he
  · exact hP.select hd hi hinline hselected e he

theorem of_frame (hP : Invariant ctx P) (what : String) (h : ∀ e ∈ es, P e) :
    ∀ e ∈ frame what es, P e := by
  intro e he
  simp only [frame, List.cons_append, List.mem_cons, List.mem_append, List.not_mem_nil,
    or_false] at he
  rcases he with rfl | he | rfl | rfl
  · exact hP.framing _ rfl
  · exact h e he
  · exact hP.framing _ rfl
  · exact hP.framing _ rfl

theorem of_wrapInline (hP : Invariant ctx P) (m : Member) (h : ∀ e ∈ es, P e) :
    ∀ e ∈ wrapInline m es, P e := by
  intro e he
  simp only [wrapInline, List.cons_append, List.mem_cons, List.mem_append, List.mem_map,
    List.not_mem_nil, or_false] at he
  rcases he with rfl | ⟨e, he, rfl⟩ | rfl | rfl
  · exact hP.framing _ rfl
  · unfold jumpInstead
    split
    · exact hP.jump m _
    · exact h e he
  · exact hP.framing _ rfl
  · exact hP.framing _ rfl

/-- **An invariant holds of inlined bodies**, however deep they are put into one another. -/
theorem of_inlined (hP : Invariant ctx P) (chain : List Member) (m : Member) {r : Routine}
    (h : inlined ctx chain m = .ok r) : ∀ e ∈ r.body, P e := by
  let Q (x : Except Error Routine) : Prop := ∀ r, x = .ok r → ∀ e ∈ r.body, P e
  have hall : Q (inlined ctx chain m) := by
    refine descend_induction (P := Q) ?_ ?_ ?_ chain m
    · intro chain m r h
      cases h
    · intro m r h
      cases h
    · intro chain inline m hinline r h
      obtain ⟨sel, hsel, h⟩ := bind_eq_ok.1 h
      obtain ⟨body, hbody, h⟩ := bind_eq_ok.1 h
      cases pure_eq_ok.1 h
      have hselected := hP.of_selectBody hinline hsel
      exact hP.of_frame _ (hP.of_optimize (hP.of_wrapInline m hselected) hbody)
  exact hall r h

theorem of_inlineInto (hP : Invariant ctx P) (chain : List Member) (m : Member) (r : Routine)
    (h : inlineInto ctx chain m = .ok r) : ∀ e ∈ r.body, P e := by
  unfold inlineInto at h
  split at h
  · cases h
  · exact hP.of_inlined chain m h

theorem of_prologue (hP : Invariant ctx P) {entry : Member} {inits : List Routine}
    (h : initializers ctx entry = .ok inits) : ∀ e ∈ prologue inits, P e := by
  refine List.forall_mem_cons.2 ⟨hP.start, fun e he => ?_⟩
  obtain ⟨r, hr, he⟩ := List.mem_flatMap.1 he
  obtain ⟨i, -, hi⟩ := exists_of_mem_mapM h hr
  rcases List.mem_cons.1 he with rfl | he
  · exact hP.framing _ rfl
  · exact hP.of_inlined [entry] i hi e he

end Invariant

end Cartridge.Routine
