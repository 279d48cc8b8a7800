import Cartridge.Proofs.Selection.Macros
import Mathlib.Algebra.BigOperators.Group.List.Basic
import Mathlib.Algebra.Ring.Int.Defs

/-!
# Instructions and the depth of the operand stack

`Instruction.depthChange?` says by how much an instruction changes the depth of the stack of the
bytecode machine, without a look at macros. A call is replaced as the marker of its callee says: by
nothing, a write, a read or a load of a register.

* **`Site.netEffect_of_select`**: the macros of an instruction change the depth as the instruction
  does. For a call this is what the signature of the callee promises iff the signature fits the
  marker (`MethodDecl.FitsMarker`).
* `Site.markers_override_signatures`: with every marker that puts a macro or nothing in place there
  is a call for which it is not.
-/

namespace Cartridge

/-! ### Bytecode -/

namespace Opcode

/-- The change in depth that an opcode makes by itself. -/
def depthChange? : Opcode → Option Int
  | .ldcM1 | .ldc0 | .ldc1 | .ldc2 | .ldc3 | .ldc4 | .ldc5 | .ldc6 | .ldc7 | .ldc8 | .ldcShort
  | .ldc | .ldloc0 | .ldloc1 | .ldloc2 | .ldloc3 | .ldlocShort | .ldloc | .ldarg0 | .ldarg1
  | .ldarg2 | .ldarg3 | .ldargShort | .ldarg | .ldsfld | .ldlocaShort | .ldloca | .ldsflda
  | .dup => some 1
  | .nop | .convU1 | .convU | .convI | .ldfld | .ldflda | .ldindU1 | .ldobj | .br
  | .brShort => some 0
  | .stloc0 | .stloc1 | .stloc2 | .stloc3 | .stlocShort | .stloc | .stsfld | .pop | .initobj | .add
  | .sub | .or | .ceq | .brtrue | .brtrueShort | .brfalse | .brfalseShort => some (-1)
  | .stfld | .stindI1 | .blt | .bltShort => some (-2)
  | _ => none

end Opcode

namespace MethodDecl

variable (d : MethodDecl)

/-- The number of values that a method returns. -/
def results : Nat := if d.returnType.isVoid then 0 else 1

variable {d} in
theorem results_of_isVoid (h : d.returnType.isVoid = true) : d.results = 0 := if_pos h

variable {d} in
theorem results_of_not_isVoid (h : d.returnType.isVoid = false) : d.results = 1 :=
  if_neg (Bool.eq_false_iff.1 h)

/-- The change in depth that the signature of a method promises. -/
def signatureChange : Int := d.results - d.arity

/-- The change in depth by a call of the method. -/
def callChange : Int :=
  match d.marker with
  | some .ignoreCall => 0
  | some (.storeToSymbol _) | some (.loadToRegister _) => -d.arity
  | some (.loadFromSymbol _) => 1
  | _ => d.signatureChange

/-- The signature promises what the marker does: a write returns nothing, a read returns a value,
and a call that is left out takes as many values as it returns. -/
def FitsMarker : Prop :=
  match d.marker with
  | some .ignoreCall => d.arity = d.results
  | some (.storeToSymbol _) | some (.loadToRegister _) => d.results = 0
  | some (.loadFromSymbol _) => d.results = 1
  | _ => True

end MethodDecl

/-- The change in depth by an instruction in the body of `d`. -/
def Instruction.depthChange? (u : Universe) (d : MethodDecl) (i : Instruction) : Option Int :=
  match i.opcode.depthChange?, i.opcode, i.operand with
  | some change, _, _ => some change
  | none, .ret, _ => some (-d.results)
  | none, .call, .method callee => (u.findMethod callee).toOption.map (·.callChange)
  | none, _, _ => none

/-! ### Macros -/

/-- The change in depth by the macros of a stream. -/
def netEffect (es : List Entry) : Int := ((es.filterMap (·.op?)).map (·.effect.net)).sum

theorem netEffect_ofInstruction (op : MacroOp) (i : Instruction) :
    netEffect [.ofInstruction op i] = op.effect.net := by
  simp [netEffect, Entry.ofInstruction, Entry.op?]

section Instructions

variable {u : Universe} {d : MethodDecl} {i : Instruction} {c : Int}

theorem depthChange?_of_opcode (h : i.opcode.depthChange? = some c) :
    i.depthChange? u d = some c := by
  rw [Instruction.depthChange?, h]

theorem depthChange?_of_mem {os : List Opcode} (hos : ∀ o ∈ os, o.depthChange? = some c)
    (ho : i.opcode ∈ os) : i.depthChange? u d = some c :=
  depthChange?_of_opcode (hos _ ho)

theorem depthChange?_ret (ho : i.opcode = .ret) : i.depthChange? u d = some (-(d.results : Int)) := by
  have hopcode : i.opcode.depthChange? = none := by rw [ho]; rfl
  rw [Instruction.depthChange?, hopcode, ho]

theorem depthChange?_call {callee : Member} {d' : MethodDecl} (ho : i.opcode = .call)
    (hoperand : i.operand = .method callee) (hd : u.findMethod callee = .ok d') :
    i.depthChange? u d = some d'.callChange := by
  have hopcode : i.opcode.depthChange? = none := by rw [ho]; rfl
  rw [Instruction.depthChange?, hopcode, ho, hoperand]
  simp only [hd, Except.toOption, Option.map_some]

end Instructions

namespace Site

variable {s : Site} {i : Instruction} {op : MacroOp}

theorem EmitsCall.callChange {callee : Member} {d : MethodDecl} (h : EmitsCall callee d op) :
    d.callChange = op.effect.net := by
  cases h with
  | strobe symbol hmarker hparameters =>
    rw [MethodDecl.callChange, hmarker, MethodDecl.arity, hparameters]
    rfl
  | write symbol p hmarker hparameters =>
    rw [MethodDecl.callChange, hmarker, MethodDecl.arity, hparameters]
    rfl
  | read symbol hmarker harity =>
    rw [MethodDecl.callChange, hmarker]
    rfl
  | register register hmarker harity =>
    rw [MethodDecl.callChange, hmarker, harity]
    rfl
  | callVoid hmarker harity hvoid =>
    rw [MethodDecl.callChange, hmarker, MethodDecl.signatureChange, harity,
      MethodDecl.results_of_isVoid hvoid]
    rfl
  | callNonVoid hmarker harity hvoid =>
    rw [MethodDecl.callChange, hmarker, MethodDecl.signatureChange, harity,
      MethodDecl.results_of_not_isVoid hvoid]
    rfl

/-- **A macro changes the depth as its instruction does.** -/
theorem Emits.depthChange? (h : s.Emits i op) :
    i.depthChange? s.context.program s.decl = some op.effect.net := by
  cases h with
  | constant _ ho => exact depthChange?_of_mem (c := 1) (by decide) ho
  | load _ _ ho => exact depthChange?_of_mem (c := 1) (by decide) ho
  | store _ _ ho => exact depthChange?_of_mem (c := -1) (by decide) ho
  | localAddress _ _ ho => exact depthChange?_of_mem (c := 1) (by decide) ho
  | loadIndirect _ ho => exact depthChange?_of_mem (c := 0) (by decide) ho
  | branch _ ho => exact depthChange?_of_mem (c := 0) (by decide) ho
  | branchTrue _ ho => exact depthChange?_of_mem (c := -1) (by decide) ho
  | branchFalse _ ho => exact depthChange?_of_mem (c := -1) (by decide) ho
  | branchLess _ ho => exact depthChange?_of_mem (c := -2) (by decide) ho
  | returnVoid ho hvoid =>
    rw [depthChange?_ret ho, MethodDecl.results_of_isVoid hvoid]
    rfl
  | returnNonVoid ho hvoid =>
    rw [depthChange?_ret ho, MethodDecl.results_of_not_isVoid hvoid]
    rfl
  | call callee d ho hoperand hd hcall =>
    rw [depthChange?_call ho hoperand hd, hcall.callChange]
  | _ =>
    rename_i ho
    exact depthChange?_of_opcode (by rw [ho]; rfl)

/-- The macro of a call is one that the callee asks for. -/
theorem Emits.emitsCall {callee : Member} {d : MethodDecl} (h : s.Emits i op)
    (ho : i.opcode = .call) (hoperand : i.operand = .method callee)
    (hd : s.context.program.findMethod callee = .ok d) : EmitsCall callee d op := by
  cases h with
  | call callee' d' _ hoperand' hd' hcall =>
    cases hoperand.symm.trans hoperand'
    cases hd.symm.trans hd'
    exact hcall
  | returnVoid ho' _ => cases ho.symm.trans ho'
  | returnNonVoid ho' _ => cases ho.symm.trans ho'
  | _ =>
    rename_i ho'
    rw [ho] at ho'
    exact absurd ho' (by decide)

/-- A read has no parameters. -/
theorem EmitsCall.arity_eq_zero {callee : Member} {d : MethodDecl} {symbol : String}
    (h : EmitsCall callee d op) (hread : d.marker = some (.loadFromSymbol symbol)) :
    d.arity = 0 := by
  cases h with
  | read _ _ harity => exact harity
  | callVoid _ harity _ => exact harity
  | callNonVoid _ harity _ => exact harity
  | strobe _ hmarker _ => cases hmarker.symm.trans hread
  | write _ _ hmarker _ => cases hmarker.symm.trans hread
  | register _ hmarker _ => cases hmarker.symm.trans hread

end Site

/-- The marker keeps the promise of the signature iff the signature fits. -/
theorem MethodDecl.callChange_eq_signatureChange_iff {d : MethodDecl}
    (hread : ∀ symbol, d.marker = some (.loadFromSymbol symbol) → d.arity = 0) :
    d.callChange = d.signatureChange ↔ d.FitsMarker := by
  unfold callChange FitsMarker signatureChange
  split
  · omega
  · omega
  · omega
  · rename_i symbol hmarker
    have harity := hread symbol hmarker
    omega
  · exact iff_of_true rfl trivial

namespace Site

/-- **Selection changes the depth of the stack as the bytecode does.** The macros of an instruction,
if it is not inlined and becomes no placeholder, together change the depth as the instruction does.
For a call this is what the signature of the callee promises iff the signature fits the marker. -/
theorem netEffect_of_select {s : Site} {i : Instruction} {sel : Selection}
    (h : s.select i = .ok sel)
    (hinline : ∀ callee site, .inlineFunction callee site ∉ sel.entries)
    (hpending : ∀ p, .pending p ∉ sel.entries) :
    i.depthChange? s.context.program s.decl = some (netEffect sel.entries) ∧
      ∀ callee d, i.opcode = .call → i.operand = .method callee →
        s.context.program.findMethod callee = .ok d →
        (netEffect sel.entries = d.signatureChange ↔ d.FitsMarker) := by
  have hbecomes := becomes_of_select h
  generalize sel.entries = es at hbecomes hinline hpending ⊢
  have hchange : i.depthChange? s.context.program s.decl = some (netEffect es) := by
    cases hbecomes with
    | idle ho => exact depthChange?_of_mem (c := 0) (by decide) ho
    | ignored callee d ho hoperand hd hmarker =>
      rw [depthChange?_call ho hoperand hd, MethodDecl.callChange, hmarker]
      rfl
    | placeholder p => exact absurd (List.mem_singleton_self _) (hpending p)
    | op hop => rw [netEffect_ofInstruction, hop.depthChange?]
    | inlined callee body _ => exact absurd (List.mem_cons_self ..) (hinline callee (some i))
  refine ⟨hchange, fun callee d ho hoperand hd => ?_⟩
  have heffect : netEffect es = d.callChange :=
    Option.some.inj (hchange.symm.trans (depthChange?_call ho hoperand hd))
  rw [heffect, MethodDecl.callChange_eq_signatureChange_iff fun symbol hread => ?_]
  cases hbecomes with
  | idle ho' =>
    rw [ho] at ho'
    exact absurd ho' (by decide)
  | ignored callee' d' _ hoperand' hd' hmarker =>
    cases hoperand.symm.trans hoperand'
    cases hd.symm.trans hd'
    cases hmarker.symm.trans hread
  | placeholder p => exact absurd (List.mem_singleton_self _) (hpending p)
  | op hop => exact (hop.emitsCall ho hoperand hd).arity_eq_zero hread
  | inlined callee body _ => exact absurd (List.mem_cons_self ..) (hinline callee (some i))

/-- A place in a method that may call `d`, a method of the same type. -/
def calling (d : MethodDecl) : Site where
  context := ⟨⟨[{ name := "Game", types := [{ name := ⟨"Game"⟩, methods := [d] }] }]⟩, {}⟩
  method := ⟨⟨"Game"⟩, "Main"⟩
  decl := { name := "Main" }
  inline _ := .error .stackDepth

/-- The call of `d` there. -/
def callOf (d : MethodDecl) : Instruction := ⟨0, .call, .method ⟨⟨"Game"⟩, d.name⟩⟩

/-- The read of a timer. -/
def timer : MethodDecl :=
  { name := "Timer", returnType := .byte, marker := some (.loadFromSymbol "INTIM") }

/-- The call pushes one value, as its signature promises. -/
theorem netEffect_of_select_timer :
    let es := [.ofInstruction (.pushGlobal (.predefined "INTIM") (.type .byte) (.size .byte))
      (callOf timer)]
    (calling timer).select (callOf timer) = .ok ⟨es, []⟩ ∧ netEffect es = 1 ∧
      (callOf timer).depthChange? (calling timer).context.program (calling timer).decl =
        some (netEffect es) ∧
      (netEffect es = timer.signatureChange ↔ timer.FitsMarker) := by
  intro es
  have hselect : (calling timer).select (callOf timer) = .ok ⟨es, []⟩ := by rfl
  obtain ⟨hchange, hfits⟩ := netEffect_of_select hselect (by simp [es, Entry.ofInstruction])
    (by simp [es, Entry.ofInstruction])
  exact ⟨hselect, rfl, hchange, hfits _ timer rfl rfl (by rfl)⟩

/-- **Markers override signatures.** A call that is left out does not take its argument, a strobe
and a load of a register do not return a value, and a read pushes one though nothing is returned. -/
theorem markers_override_signatures :
    let value : Parameter := ⟨"value", .byte⟩
    let ignored : MethodDecl :=
      { name := "Trace", parameters := [value], marker := some .ignoreCall }
    let strobe : MethodDecl :=
      { name := "Sync", returnType := .byte, marker := some (.storeToSymbol "WSYNC") }
    let read : MethodDecl := { name := "Timer", marker := some (.loadFromSymbol "INTIM") }
    let register : MethodDecl :=
      { name := "SetX", parameters := [value], returnType := .byte,
        marker := some (.loadToRegister .x) }
    let chosen : List (MethodDecl × List MacroOp) :=
      [(ignored, []), (strobe, [.storeTo (.predefined "WSYNC")]),
        (read, [.pushGlobal (.predefined "INTIM") (.typeOf .void) (.sizeOf .void)]),
        (register, [.popToRegister .x])]
    ∀ p ∈ chosen,
      let es := p.2.map (Entry.ofInstruction · (callOf p.1))
      (calling p.1).select (callOf p.1) = .ok ⟨es, []⟩ ∧ netEffect es ≠ p.1.signatureChange := by
  decide +kernel

end Site

end Cartridge
