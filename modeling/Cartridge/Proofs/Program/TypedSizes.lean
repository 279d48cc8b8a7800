import Cartridge.Proofs.Peephole.NormalForm
import Cartridge.Proofs.Program.Acceptance
import Cartridge.Proofs.Routine.Views
import Cartridge.Proofs.Selection.Macros

/-!
# Types and their sizes

A macro that moves a value takes the label of its type and the label of its size. `Label.HasSize` says
that such a pair belongs together, and `MacroOp.Consistent` that all pairs of a macro do. Only the
address of data in ROM is two bytes long.

Selection returns consistent macros, and rules keep them so, though some drop one half of a pair.
`Peephole.Fires` says that a rule makes a replacement in some sweep of some pass. The rule that
makes an increment looks at the two types and not at the two sizes, but those are equal whenever it
fires: **`Program.consistent_of_compile`**.
-/

namespace Cartridge

theorem TypeName.isPointer_pointerTo (t : TypeName) : t.pointerTo.isPointer = true := by
  simp [pointerTo, isPointer, isPointerMark]

/-- The labels of a type and of its size. -/
inductive Label.HasSize : Label → Label → Prop where
  | plain (t : TypeName) (h : t.isPointer = false) : HasSize (.type t) (.size t)
  | pointer (t : TypeName) (width : PointerWidth) : HasSize (.pointerType t) (.pointerSize width)

namespace MacroOp

/-- The pairs of a type and its size among the operands. -/
def typedSizes : MacroOp → List (Label × Label)
  | .pushConstant _ type size | .pushGlobal _ type size | .pushAddressOfGlobal _ type size
  | .pushAddressOfLocal _ type size | .pushAddressOfField _ type size
  | .pushFieldFromStack _ type size | .pushDereferenceFromStack type size
  | .pushAddressOfRomElement _ type size _ | .pushAddressOfRomElementFromStack _ type size
  | .popToGlobal _ type size | .popToFieldFromStack _ type size | .popToAddressFromStack type size
  | .callNonVoid _ type size | .returnNonVoid _ type size | .incrementGlobal _ type size =>
    [(type, size)]
  | .addGlobalAndConstant _ globalType globalSize _ constantType constantSize =>
    [(globalType, globalSize), (constantType, constantSize)]
  | .addGlobalAndConstantToGlobal _ globalType globalSize _ constantType constantSize _ targetType
      targetSize =>
    [(globalType, globalSize), (constantType, constantSize), (targetType, targetSize)]
  | _ => []

/-- Whether the macro takes the address of data in ROM or of one of its elements. -/
def takesRomAddress : MacroOp → Bool
  | .pushAddressOfGlobal (.romData _) .. | .pushAddressOfRomElement (.romData _) ..
  | .pushAddressOfRomElementFromStack (.romData _) .. => true
  | _ => false

/-- Every size is that of its type, and long only for an address in ROM. -/
def Consistent (op : MacroOp) : Prop :=
  ∀ p ∈ op.typedSizes, Label.HasSize p.1 p.2 ∧
    (p.2 = .pointerSize .long ↔ op.takesRomAddress = true)

variable {op : MacroOp}

theorem consistent_of_nil (h : op.typedSizes = []) : op.Consistent := by
  rw [Consistent, h]
  exact List.forall_mem_nil _

theorem consistent_of_pair {type size : Label} (h : op.typedSizes = [(type, size)])
    (hrom : op.takesRomAddress = false) (hsized : type.HasSize size)
    (hshort : size ≠ .pointerSize .long) : op.Consistent := by
  rw [Consistent, h, hrom]
  exact List.forall_mem_singleton.2 ⟨hsized, iff_of_false hshort Bool.false_ne_true⟩

theorem consistent_of_typeOf (t : TypeName) (h : op.typedSizes = [(.typeOf t, .sizeOf t)])
    (hrom : op.takesRomAddress = false) : op.Consistent := by
  by_cases ht : t.isPointer = true
  · rw [Label.typeOf, Label.sizeOf, if_pos ht, if_pos ht] at h
    exact consistent_of_pair h hrom (.pointer _ _) nofun
  · rw [Label.typeOf, Label.sizeOf, if_neg ht, if_neg ht] at h
    exact consistent_of_pair h hrom (.plain t (Bool.eq_false_iff.2 ht)) nofun

theorem consistent_of_pointerTo (t : TypeName)
    (h : op.typedSizes = [(.typeOf t.pointerTo, .pointerSize .short)])
    (hrom : op.takesRomAddress = false) : op.Consistent := by
  rw [Label.typeOf, if_pos t.isPointer_pointerTo] at h
  exact consistent_of_pair h hrom (.pointer _ _) nofun

end MacroOp

/-- The macro of an entry, if it has one, is consistent. -/
def Entry.Consistent (e : Entry) : Prop := ∀ op, e.op? = some op → op.Consistent

theorem Entry.consistent_of_op? {e : Entry} (h : e.op? = none) : e.Consistent := by
  intro op hop
  cases h.symm.trans hop

theorem Entry.consistent_invoke {call : Invocation} :
    (Entry.invoke call).Consistent ↔ call.op.Consistent := by
  simp [Entry.Consistent, Entry.op?]

/-! ### Selection -/

namespace Site

open MacroOp

variable {s : Site} {i : Instruction} {op : MacroOp}

theorem EmitsCall.consistent {callee : Member} {d : MethodDecl} (h : EmitsCall callee d op) :
    op.Consistent := by
  cases h with
  | strobe => exact consistent_of_nil rfl
  | write => exact consistent_of_typeOf _ rfl rfl
  | read => exact consistent_of_typeOf _ rfl rfl
  | register => exact consistent_of_nil rfl
  | callVoid => exact consistent_of_nil rfl
  | callNonVoid => exact consistent_of_typeOf _ rfl rfl

theorem Emits.consistent (h : s.Emits i op) : op.Consistent := by
  cases h
  case call hcall => exact hcall.consistent
  case romAddress =>
    exact List.forall_mem_singleton.2 ⟨.pointer _ _, iff_of_true rfl rfl⟩
  case localAddress | fieldAddress | instanceAddress => exact consistent_of_pointerTo _ rfl rfl
  case constant | load | store | loadField | storeField | loadIndirect | storeIndirect
      | returnNonVoid => exact consistent_of_typeOf _ rfl rfl
  all_goals exact consistent_of_nil rfl

theorem Becomes.consistent {es : List Entry} (h : s.Becomes i es)
    (hinline : ∀ callee body, s.inline callee = .ok body → ∀ e ∈ body.body, e.Consistent) :
    ∀ e ∈ es, e.Consistent := by
  cases h with
  | idle => exact List.forall_mem_nil _
  | ignored => exact List.forall_mem_nil _
  | placeholder p => exact List.forall_mem_singleton.2 (Entry.consistent_of_op? rfl)
  | op hop => exact List.forall_mem_singleton.2 (Entry.consistent_invoke.2 hop.consistent)
  | inlined callee body hbody =>
    exact List.forall_mem_cons.2 ⟨Entry.consistent_of_op? rfl, hinline callee body hbody⟩

end Site

/-! ### Rules -/

theorem Label.HasSize.eq_of_short {type size size' : Label} (h : type.HasSize size)
    (h' : type.HasSize size') (hshort : size ≠ .pointerSize .long)
    (hshort' : size' ≠ .pointerSize .long) : size' = size := by
  cases h with
  | plain t ht =>
    cases h'
    rfl
  | pointer t width =>
    cases h' with
    | pointer _ width' =>
      cases width with
      | long => exact absurd rfl hshort
      | short =>
        cases width' with
        | long => exact absurd rfl hshort'
        | short => rfl

namespace Rule

/-- **Rules keep macros consistent.** -/
theorem consistent_of_replaces {u : Universe} {rule : Rule} {w r : List Entry}
    (h : rule.Replaces u w r) (hw : ∀ e ∈ w, e.Consistent) : ∀ e ∈ r, e.Consistent := by
  have hbyte : Label.HasSize (.type .byte) (.size .byte) := .plain .byte (by decide)
  cases h <;>
    simp only [List.mem_cons, List.not_mem_nil, or_false, forall_eq_or_imp, forall_eq,
      Entry.consistent_invoke, MacroOp.Consistent, MacroOp.typedSizes, MacroOp.takesRomAddress,
      iff_true, iff_false, Bool.false_eq_true, reduceCtorEq, not_false_eq_true, and_true, true_and,
      IsEmpty.forall_iff, implies_true, List.append_assoc] at hw ⊢
  case inlineAssembly =>
    exact ⟨Entry.consistent_of_op? rfl, Entry.consistent_of_op? rfl, Entry.consistent_of_op? rfl⟩
  case romDataLength | romDataStride => exact hbyte
  -- The size that is put in is the one that was there.
  case romElementAtConstant => exact hw.1.2 ▸ hw.1.1
  case romElementFromStack => exact ⟨hw.2.1, hw.1.2 ▸ hw.1.1⟩
  case addGlobalFirst => exact hw
  case addConstantFirst => exact hw.symm
  case addGlobalAndConstantToGlobal => exact ⟨hw.1.1, hw.1.2, hw.2⟩
  case incrementGlobal => exact hw.1
  case removeBranchToNext => exact hw

/-- The increment drops a size that equals the one that it keeps. -/
theorem eq_of_incrementGlobal {u : Universe} {w r : List Entry}
    (h : incrementGlobal.Replaces u w r) (hw : ∀ e ∈ w, e.Consistent) :
    ∃ global type size value constantType constantSize sources,
      w = [.invoke ⟨.addGlobalAndConstantToGlobal global type size value constantType constantSize
        global type size, sources⟩] ∧
      r = [.invoke ⟨.incrementGlobal global type size, sources⟩] := by
  cases h with
  | incrementGlobal global type size value constantType constantSize targetSize sources hone =>
    have hop := Entry.consistent_invoke.1 (hw _ (List.mem_singleton_self _))
    have hglobal := hop (type, size) (by simp [MacroOp.typedSizes])
    have htarget := hop (type, targetSize) (by simp [MacroOp.typedSizes])
    have hshort : ∀ {z : Label}, (z = .pointerSize .long ↔ false = true) →
        z ≠ .pointerSize .long := fun hz heq => Bool.false_ne_true (hz.1 heq)
    cases hglobal.1.eq_of_short htarget.1 (hshort hglobal.2) (hshort htarget.2)
    exact ⟨global, type, size, value, constantType, constantSize, sources, rfl, rfl⟩

end Rule

/-! ### Passes -/

namespace Peephole

open Relation (ReflTransGen)

variable {u : Universe} {rules : List Rule} {rule : Rule} {es w r : List Entry}

/-- A rule replaces a window while a stream is normalized: after some passes that changed the
stream, and the sweeps of the rules before it, its own sweep comes to the window. -/
inductive Fires (u : Universe) (rules : List Rule) (es : List Entry) (rule : Rule) :
    List Entry → List Entry → Prop where
  | intro {start mid passed ahead r : List Entry} {earlier later : List Rule} {e : Entry}
      (hpasses : ReflTransGen (Changes u rules) es start)
      (hrules : rules = earlier ++ rule :: later) (hearlier : pass u earlier start = .ok mid)
      (hsweep : ReflTransGen (Cursor.Step u rule) ⟨[], mid⟩ ⟨passed, e :: ahead⟩)
      (h : rule.replacement? u ((e :: ahead).take rule.window) = .ok (some r)) :
      Fires u rules es rule ((e :: ahead).take rule.window) r

/-- The stream that a cursor is in. -/
def Cursor.stream (c : Cursor) : List Entry := c.passed.reverse ++ c.ahead

/-- A step of a sweep replaces a window or leaves the stream as it is. -/
theorem Cursor.rewrites_of_step {c c' : Cursor} (hr : rule ∈ rules) (h : Step u rule c c') :
    ReflTransGen (Rewrites u rules) c.stream c'.stream := by
  cases h with
  | @replace passed e ahead r h =>
    have hstep := Rewrites.intro passed.reverse ((e :: ahead).drop rule.window) hr
      (Rule.replaces_of_replacement? h)
    rw [List.append_assoc, List.take_append_drop, List.append_assoc] at hstep
    exact .single hstep
  | @move passed e ahead h =>
    have hsame : stream ⟨e :: passed, ahead⟩ = stream ⟨passed, e :: ahead⟩ := by simp [stream]
    rw [hsame]

/-- A rule that fires finds its window in a stream that comes about by replacements. -/
theorem Fires.rewrites (h : Fires u rules es rule w r) :
    rule.Replaces u w r ∧
      ∃ before after, ReflTransGen (Rewrites u rules) es (before ++ w ++ after) := by
  obtain @⟨start, mid, passed, ahead, r, earlier, later, e, hpasses, rfl, hearlier, hsweep, h⟩ := h
  refine ⟨Rule.replaces_of_replacement? h, passed.reverse, (e :: ahead).drop rule.window, ?_⟩
  have hstart : ReflTransGen (Rewrites u (earlier ++ rule :: later)) es start :=
    hpasses.lift' id fun _ _ hchange => reflTransGen_of_pass (List.Subset.refl _) hchange.1
  have hmid := reflTransGen_of_pass (List.subset_append_left earlier (rule :: later)) hearlier
  have hmem : rule ∈ earlier ++ rule :: later := by simp
  have hwindow := hsweep.lift' Cursor.stream fun _ _ => Cursor.rewrites_of_step hmem
  rw [List.append_assoc, List.take_append_drop]
  exact hstart.trans (hmid.trans hwindow)

end Peephole

/-! ### Routines -/

namespace Routine

open Relation (ReflTransGen)

variable {ctx : Context} {m : Member} {es : List Entry} {r : Routine}

/-- The streams that are optimized when a program is compiled. -/
inductive Optimizes (ctx : Context) (m : Member) : List Entry → Prop where
  | routine {sel : Selection} (h : selectBody ctx (inlineInto ctx [m]) m = .ok sel) :
      Optimizes ctx m sel.entries
  | entryPoint {sel : Selection} {inits : List Routine}
      (h : selectBody ctx (inlineInto ctx [m]) m = .ok sel)
      (hinits : initializers ctx m = .ok inits) : Optimizes ctx m (prologue inits ++ sel.entries)
  | inlined {sel : Selection} (chain : List Member)
      (h : selectBody ctx (inlineInto ctx (chain ++ [m])) m = .ok sel) :
      Optimizes ctx m (wrapInline m sel.entries)

theorem invariant_consistent (ctx : Context) : Invariant ctx Entry.Consistent where
  select _ _ hinline h := (Site.becomes_of_select h).consistent hinline
  replace := Rule.consistent_of_replaces
  framing e he := by
    cases e with
    | invoke call => cases he
    | _ => exact Entry.consistent_of_op? rfl
  start := Entry.consistent_invoke.2 (MacroOp.consistent_of_nil rfl)
  jump _ _ := Entry.consistent_invoke.2 (MacroOp.consistent_of_nil rfl)

theorem Optimizes.consistent (h : Optimizes ctx m es) : ∀ e ∈ es, e.Consistent := by
  have hP := invariant_consistent ctx
  cases h with
  | routine h => exact hP.of_selectBody (hP.of_inlineInto [m]) h
  | entryPoint h hinits =>
    exact List.forall_mem_append.2
      ⟨hP.of_prologue hinits, hP.of_selectBody (hP.of_inlineInto [m]) h⟩
  | inlined chain h => exact hP.of_wrapInline m (hP.of_selectBody (hP.of_inlineInto _) h)

theorem consistent_of_finish {lifted : List Label} (hes : Optimizes ctx m es)
    (h : finish ctx m es lifted = .ok r) : ∀ e ∈ r.body, e.Consistent := by
  have hP := invariant_consistent ctx
  obtain ⟨optimized, hoptimized, h⟩ := bind_eq_ok.1 h
  obtain ⟨tracked, htracked, h⟩ := bind_eq_ok.1 h
  cases pure_eq_ok.1 h
  have hconsistent := hP.of_optimize hes.consistent hoptimized
  refine hP.of_frame m.fullName
    (List.forall_mem_cons.2 ⟨hP.framing _ rfl, fun e he op hop => ?_⟩)
  have hmem : op ∈ tracked.filterMap (·.op?) := List.mem_filterMap.2 ⟨e, he, hop⟩
  rw [StackModel.filterMap_of_track (fun e he => op?_of_isArrayLet he) htracked] at hmem
  obtain ⟨e', he', hop'⟩ := List.mem_filterMap.1 hmem
  exact hconsistent e' he' op hop'

end Routine

namespace Program

/-- **Types and sizes agree in a compiled program.** Wherever a macro has a type and its size, the
one belongs to the other. So whenever an increment is made while the program is compiled, the size
that is dropped is the one that is kept. -/
theorem consistent_of_compile {ctx : Context} {date : String} {p : Program}
    (h : compile ctx date = .ok p) :
    (∀ r ∈ p.all, ∀ call, .invoke call ∈ r.body → call.op.Consistent) ∧
      ∀ m es w r, Routine.Optimizes ctx m es →
        Peephole.Fires ctx.program (Peephole.rules ctx.options) es .incrementGlobal w r →
        ∃ global type size value constantType constantSize sources,
          w = [.invoke ⟨.addGlobalAndConstantToGlobal global type size value constantType
            constantSize global type size, sources⟩] ∧
          r = [.invoke ⟨.incrementGlobal global type size, sources⟩] := by
  refine ⟨fun r hr call hcall => Entry.consistent_invoke.1 ?_, fun m es w r hes hfires => ?_⟩
  · obtain ⟨entry, blocks, hentry, hdiscovered, -⟩ := of_compile h
    rcases List.mem_cons.1 hr with rfl | hr
    · obtain ⟨sel, hsel, hentry⟩ := bind_eq_ok.1 hentry
      obtain ⟨inits, hinits, hentry⟩ := bind_eq_ok.1 hentry
      exact Routine.consistent_of_finish (.entryPoint hsel hinits) hentry _ hcall
    · obtain ⟨sel, hsel, hroutine⟩ := bind_eq_ok.1 (hdiscovered.compiled r hr)
      exact Routine.consistent_of_finish (.routine hsel) hroutine _ hcall
  · obtain ⟨hreplaces, before, after, hrewrites⟩ := hfires.rewrites
    have hreached : ∀ e ∈ before ++ w ++ after, e.Consistent :=
      (Routine.invariant_consistent ctx).of_reflTransGen hes.consistent hrewrites
    refine Rule.eq_of_incrementGlobal hreplaces fun e he => hreached e ?_
    exact List.mem_append_left _ (List.mem_append_right _ he)

/-- Adds one to a local. -/
def increment : Universe :=
  single [.byte]
    [⟨0, .ldloc0, .absent⟩, ⟨1, .ldc1, .absent⟩, ⟨2, .add, .absent⟩, ⟨3, .stloc0, .absent⟩,
     ⟨4, .ret, .absent⟩]

/-- In `increment` the rule fires in the first pass, at the entry after the set-up. -/
theorem consistent_of_compile_increment :
    let ctx : Context := ⟨increment, {}⟩
    ∃ p, compile ctx "" = .ok p ∧
      (∀ r ∈ p.all, ∀ call, .invoke call ∈ r.body → call.op.Consistent) ∧
      ∃ m es w r, Routine.Optimizes ctx m es ∧
        Peephole.Fires ctx.program (Peephole.rules ctx.options) es .incrementGlobal w r ∧
        ∃ global type size value constantType constantSize sources,
          w = [.invoke ⟨.addGlobalAndConstantToGlobal global type size value constantType
            constantSize global type size, sources⟩] ∧
          r = [.invoke ⟨.incrementGlobal global type size, sources⟩] := by
  intro ctx
  let main : Member := ⟨⟨"Game.Program"⟩, "Main"⟩
  let slot : Label := .localSlot main 0
  let type : Label := .type .byte
  let size : Label := .size .byte
  let ret : Entry := .ofInstruction .returnVoid ⟨4, .ret, .absent⟩
  let sources : List Instruction :=
    [⟨0, .ldloc0, .absent⟩, ⟨1, .ldc1, .absent⟩, ⟨2, .add, .absent⟩, ⟨3, .stloc0, .absent⟩]
  let selected : List Entry :=
    [.ofInstruction (.pushGlobal slot type size) ⟨0, .ldloc0, .absent⟩,
     .ofInstruction (.pushConstant (.byte 1) type size) ⟨1, .ldc1, .absent⟩,
     .ofInstruction .addFromStack ⟨2, .add, .absent⟩,
     .ofInstruction (.popToGlobal slot type size) ⟨3, .stloc0, .absent⟩, ret]
  let fused : Entry :=
    .invoke ⟨.addGlobalAndConstantToGlobal slot type size (.byte 1) type size slot type size,
      sources⟩
  let earlier : List Rule := Rule.mandatory ++ [.assignConstantToGlobal, .copyGlobalToGlobal,
    .addGlobalAndConstant, .addGlobalAndConstantToGlobal]
  have hcompile : ∃ p, compile ctx "" = .ok p :=
    exists_compile_alone (by decide +kernel)
  have hselected : Routine.selectBody ctx (Routine.inlineInto ctx [main]) main =
      .ok ⟨selected, []⟩ := by decide +kernel
  have hstream : Routine.Optimizes ctx main (Routine.prologue [] ++ selected) :=
    .entryPoint hselected (by decide +kernel)
  have hrules : Peephole.rules ctx.options = earlier ++ .incrementGlobal :: [.removeBranchToNext] :=
    by decide +kernel
  have hearlier : Peephole.pass increment earlier (Routine.prologue [] ++ selected) =
      .ok [.synthetic .entryPoint, fused, ret] := by decide +kernel
  have hsweep : Relation.ReflTransGen (Peephole.Cursor.Step increment .incrementGlobal)
      ⟨[], [.synthetic .entryPoint, fused, ret]⟩ ⟨[.synthetic .entryPoint], [fused, ret]⟩ :=
    .single (.move rfl)
  have hfires : Peephole.Fires increment (Peephole.rules ctx.options)
      (Routine.prologue [] ++ selected) .incrementGlobal [fused]
      [.invoke ⟨.incrementGlobal slot type size, sources⟩] :=
    .intro .refl hrules hearlier hsweep rfl
  obtain ⟨p, hp⟩ := hcompile
  obtain ⟨hall, hsizes⟩ := consistent_of_compile hp
  exact ⟨p, hp, hall, main, _, _, _, hstream, hfires, hsizes _ _ _ _ hstream hfires⟩

end Program

end Cartridge
