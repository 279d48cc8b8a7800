import Cartridge.Proofs.Selection

/-!
# The macro of each instruction

`Site.Emits` says which macro stands for which instruction, with all of its operands, and
`Site.EmitsCall` does so for calls. **`Site.becomes_of_select`**: selection returns such a macro, or
nothing, a placeholder or an inlined body. What follows from the operands of a macro, or from the
opcode that it comes from, is proved by cases on these relations.
-/

namespace Cartridge

namespace Opcode

/-- The opcodes that do nothing on this machine. -/
def idle : List Opcode := [.nop, .convU1, .convU, .convI]

/-- The opcodes that load a constant. -/
def constantLoads : List Opcode :=
  [.ldcM1, .ldc0, .ldc1, .ldc2, .ldc3, .ldc4, .ldc5, .ldc6, .ldc7, .ldc8, .ldcShort, .ldc]

/-- The opcodes that load a local, a parameter or a static field. -/
def variableLoads : List Opcode :=
  [.ldloc0, .ldloc1, .ldloc2, .ldloc3, .ldlocShort, .ldloc, .ldarg0, .ldarg1, .ldarg2, .ldarg3,
   .ldargShort, .ldarg, .ldsfld]

/-- The opcodes that store into a local or a static field. -/
def variableStores : List Opcode :=
  [.stloc0, .stloc1, .stloc2, .stloc3, .stlocShort, .stloc, .stsfld]

end Opcode

namespace Site

/-- The macro in the place of a call of a method that is not inlined. -/
inductive EmitsCall (callee : Member) (d : MethodDecl) : MacroOp → Prop where
  | strobe (symbol : String) (hmarker : d.marker = some (.storeToSymbol symbol))
      (hparameters : d.parameters = []) : EmitsCall callee d (.storeTo (.predefined symbol))
  | write (symbol : String) (p : Parameter) (hmarker : d.marker = some (.storeToSymbol symbol))
      (hparameters : d.parameters = [p]) :
      EmitsCall callee d (.popToGlobal (.predefined symbol) (.typeOf p.type) (.sizeOf p.type))
  | read (symbol : String) (hmarker : d.marker = some (.loadFromSymbol symbol))
      (harity : d.arity = 0) :
      EmitsCall callee d
        (.pushGlobal (.predefined symbol) (.typeOf d.returnType) (.sizeOf d.returnType))
  | register (register : Register) (hmarker : d.marker = some (.loadToRegister register))
      (harity : d.arity = 1) : EmitsCall callee d (.popToRegister register)
  | callVoid (hmarker : d.marker = none) (harity : d.arity = 0)
      (hvoid : d.returnType.isVoid = true) : EmitsCall callee d (.callVoid (.function callee))
  | callNonVoid (hmarker : d.marker = none) (harity : d.arity = 0)
      (hvoid : d.returnType.isVoid = false) :
      EmitsCall callee d
        (.callNonVoid (.function callee) (.typeOf d.returnType) (.sizeOf d.returnType))

/-- The macro in the place of an instruction. -/
inductive Emits (s : Site) (i : Instruction) : MacroOp → Prop where
  | constant (value : UInt8) (ho : i.opcode ∈ Opcode.constantLoads) :
      Emits s i (.pushConstant (.byte value) (.typeOf .byte) (.sizeOf .byte))
  | load (l : Label) (type : TypeName) (ho : i.opcode ∈ Opcode.variableLoads) :
      Emits s i (.pushGlobal l (.typeOf type) (.sizeOf type))
  | store (l : Label) (type : TypeName) (ho : i.opcode ∈ Opcode.variableStores) :
      Emits s i (.popToGlobal l (.typeOf type) (.sizeOf type))
  | localAddress (l : Label) (type : TypeName) (ho : i.opcode ∈ [.ldlocaShort, .ldloca]) :
      Emits s i (.pushAddressOfLocal l (.typeOf type.pointerTo) (.pointerSize .short))
  | romAddress (f : Member) (type : TypeName) (ho : i.opcode = .ldsflda) :
      Emits s i (.pushAddressOfGlobal (.romData f) (.pointerType type) (.pointerSize .long))
  | fieldAddress (f : Member) (type : TypeName) (ho : i.opcode = .ldsflda) :
      Emits s i (.pushAddressOfGlobal (.global f) (.typeOf type.pointerTo) (.pointerSize .short))
  | loadField (offset : Constant) (type : TypeName) (ho : i.opcode = .ldfld) :
      Emits s i (.pushFieldFromStack offset (.typeOf type) (.sizeOf type))
  | storeField (offset : Constant) (type : TypeName) (ho : i.opcode = .stfld) :
      Emits s i (.popToFieldFromStack offset (.typeOf type) (.sizeOf type))
  | instanceAddress (offset : Constant) (type : TypeName) (ho : i.opcode = .ldflda) :
      Emits s i (.pushAddressOfField offset (.typeOf type.pointerTo) (.pointerSize .short))
  | loadIndirect (type : TypeName) (ho : i.opcode ∈ [.ldindU1, .ldobj]) :
      Emits s i (.pushDereferenceFromStack (.typeOf type) (.sizeOf type))
  | storeIndirect (ho : i.opcode = .stindI1) :
      Emits s i (.popToAddressFromStack (.typeOf .byte) (.sizeOf .byte))
  | clearObject (type : TypeName) (ho : i.opcode = .initobj) :
      Emits s i (.initializeObject (.sizeOf type))
  | add (ho : i.opcode = .add) : Emits s i .addFromStack
  | sub (ho : i.opcode = .sub) : Emits s i .subFromStack
  | or (ho : i.opcode = .or) : Emits s i .orFromStack
  | compare (ho : i.opcode = .ceq) : Emits s i .compareEqualFromStack
  | duplicate (ho : i.opcode = .dup) : Emits s i .duplicate
  | pop (ho : i.opcode = .pop) : Emits s i .popStack
  | branch (target : Label) (ho : i.opcode ∈ [.br, .brShort]) : Emits s i (.branch target)
  | branchTrue (target : Label) (ho : i.opcode ∈ [.brtrue, .brtrueShort]) :
      Emits s i (.branchTrueFromStack target)
  | branchFalse (target : Label) (ho : i.opcode ∈ [.brfalse, .brfalseShort]) :
      Emits s i (.branchFalseFromStack target)
  | branchLess (target : Label) (ho : i.opcode ∈ [.blt, .bltShort]) :
      Emits s i (.branchLessFromStack target)
  | returnVoid (ho : i.opcode = .ret) (hvoid : s.decl.returnType.isVoid = true) :
      Emits s i .returnVoid
  | returnNonVoid (ho : i.opcode = .ret) (hvoid : s.decl.returnType.isVoid = false) :
      Emits s i (.returnNonVoid (.returnValue s.method) (.typeOf s.decl.returnType)
        (.sizeOf s.decl.returnType))
  | call {op : MacroOp} (callee : Member) (d : MethodDecl) (ho : i.opcode = .call)
      (hoperand : i.operand = .method callee) (hd : s.context.program.findMethod callee = .ok d)
      (hcall : EmitsCall callee d op) : Emits s i op

/-- The entries in the place of an instruction. -/
inductive Becomes (s : Site) (i : Instruction) : List Entry → Prop where
  | idle (ho : i.opcode ∈ Opcode.idle) : Becomes s i []
  | ignored (callee : Member) (d : MethodDecl) (ho : i.opcode = .call)
      (hoperand : i.operand = .method callee) (hd : s.context.program.findMethod callee = .ok d)
      (hmarker : d.marker = some .ignoreCall) : Becomes s i []
  | placeholder (p : Pending) : Becomes s i [.pending p]
  | op {op : MacroOp} (h : Emits s i op) : Becomes s i [.ofInstruction op i]
  | inlined (callee : Member) (body : Routine) (hbody : s.inline callee = .ok body) :
      Becomes s i (.inlineFunction callee (some i) :: body.body)

variable {s : Site} {i : Instruction} {sel : Selection}

theorem becomes_of_one {op : MacroOp} (h : one i op = .ok sel) (hop : Emits s i op) :
    s.Becomes i sel.entries := by
  cases h
  exact .op hop

theorem becomes_of_inlineCall {callee : Member} {d : MethodDecl}
    (h : s.inlineCall i callee d = .ok sel) : s.Becomes i sel.entries := by
  unfold inlineCall at h
  split at h
  · cases h
  · obtain ⟨body, hbody, h⟩ := bind_eq_ok.1 h
    cases pure_eq_ok.1 h
    exact .inlined callee body hbody

theorem becomes_of_call (ho : i.opcode = .call) (h : s.call i = .ok sel) :
    s.Becomes i sel.entries := by
  unfold call at h
  split at h
  · rename_i callee hoperand
    obtain ⟨d, hd, h⟩ := bind_eq_ok.1 h
    have hemits : ∀ {op}, one i op = .ok sel → EmitsCall callee d op → s.Becomes i sel.entries :=
      fun h hcall => becomes_of_one h (.call callee d ho hoperand hd hcall)
    split at h
    · rename_i hmarker
      cases pure_eq_ok.1 h
      exact .ignored callee d ho hoperand hd hmarker
    · rename_i symbol hmarker
      split at h
      · rename_i hparameters
        exact hemits h (.strobe symbol hmarker hparameters)
      · rename_i p hparameters
        exact hemits h (.write symbol p hmarker hparameters)
      · cases h
    · rename_i symbol hmarker
      split at h
      · cases h
      · rename_i harity
        exact hemits h (.read symbol hmarker (not_not.1 harity))
    · rename_i register hmarker
      split at h
      · cases h
      · rename_i harity
        exact hemits h (.register register hmarker (not_not.1 harity))
    · cases pure_eq_ok.1 h
      exact .placeholder _
    · exact becomes_of_inlineCall h
    · rename_i hmarker
      split at h
      · exact becomes_of_inlineCall h
      · unfold plainCall at h
        split at h
        · cases h
        · rename_i harity
          split at h
          · rename_i hvoid
            exact hemits h (.callVoid hmarker (not_not.1 harity) hvoid)
          · rename_i hvoid
            exact hemits h (.callNonVoid hmarker (not_not.1 harity) (Bool.eq_false_iff.2 hvoid))
  · cases h

/-- **The entries in the place of an instruction**, with the operands of its macro. -/
theorem becomes_of_select (h : s.select i = .ok sel) : s.Becomes i sel.entries := by
  unfold select at h
  cases hop : i.opcode <;> rw [hop] at h
  case nop | convU1 | convU | convI =>
    cases h
    exact .idle (by rw [hop]; decide)
  case ldcM1 | ldc0 | ldc1 | ldc2 | ldc3 | ldc4 | ldc5 | ldc6 | ldc7 | ldc8 | ldcShort | ldc =>
    obtain ⟨value, -, h⟩ := bind_eq_ok.1 h
    exact becomes_of_one h (.constant value (by rw [hop]; decide))
  case ldstr =>
    dsimp only at h
    split at h
    · cases h
      exact .placeholder _
    · cases h
  case ldloc0 | ldloc1 | ldloc2 | ldloc3 | ldlocShort | ldloc | ldarg0 | ldarg1 | ldarg2 | ldarg3
      | ldargShort | ldarg =>
    obtain ⟨⟨l, type⟩, -, h⟩ := bind_eq_ok.1 h
    exact becomes_of_one h (.load l type (by rw [hop]; decide))
  case stloc0 | stloc1 | stloc2 | stloc3 | stlocShort | stloc =>
    obtain ⟨⟨l, type⟩, -, h⟩ := bind_eq_ok.1 h
    exact becomes_of_one h (.store l type (by rw [hop]; decide))
  case ldlocaShort | ldloca =>
    obtain ⟨⟨l, type⟩, -, h⟩ := bind_eq_ok.1 h
    cases pure_eq_ok.1 h
    exact .op (.localAddress l type (by rw [hop]; decide))
  case ldsfld =>
    obtain ⟨⟨f, d⟩, -, h⟩ := bind_eq_ok.1 h
    dsimp only at h
    split at h
    · cases h
    · exact becomes_of_one h (.load (.global f) d.type (by rw [hop]; decide))
  case stsfld =>
    obtain ⟨⟨f, d⟩, -, h⟩ := bind_eq_ok.1 h
    dsimp only at h
    split at h
    · cases h
    · exact becomes_of_one h (.store (.global f) d.type (by rw [hop]; decide))
  case ldsflda =>
    obtain ⟨⟨f, d⟩, -, h⟩ := bind_eq_ok.1 h
    dsimp only at h
    split at h
    · rename_i data _
      exact becomes_of_one h (.romAddress f data.elementType hop)
    · exact becomes_of_one h (.fieldAddress f d.type hop)
  case ldfld =>
    obtain ⟨⟨offset, type⟩, -, h⟩ := bind_eq_ok.1 h
    exact becomes_of_one h (.loadField offset type hop)
  case stfld =>
    obtain ⟨⟨offset, type⟩, -, h⟩ := bind_eq_ok.1 h
    exact becomes_of_one h (.storeField offset type hop)
  case ldflda =>
    obtain ⟨⟨offset, type⟩, -, h⟩ := bind_eq_ok.1 h
    exact becomes_of_one h (.instanceAddress offset type hop)
  case ldindU1 => exact becomes_of_one h (.loadIndirect .byte (by rw [hop]; decide))
  case stindI1 => exact becomes_of_one h (.storeIndirect hop)
  case ldobj =>
    obtain ⟨type, -, h⟩ := bind_eq_ok.1 h
    exact becomes_of_one h (.loadIndirect type (by rw [hop]; decide))
  case initobj =>
    obtain ⟨type, -, h⟩ := bind_eq_ok.1 h
    exact becomes_of_one h (.clearObject type hop)
  case add => exact becomes_of_one h (.add hop)
  case sub => exact becomes_of_one h (.sub hop)
  case or => exact becomes_of_one h (.or hop)
  case ceq => exact becomes_of_one h (.compare hop)
  case dup => exact becomes_of_one h (.duplicate hop)
  case pop => exact becomes_of_one h (.pop hop)
  case br | brShort =>
    obtain ⟨target, -, h⟩ := bind_eq_ok.1 h
    exact becomes_of_one h (.branch target (by rw [hop]; decide))
  case brtrue | brtrueShort =>
    obtain ⟨target, -, h⟩ := bind_eq_ok.1 h
    exact becomes_of_one h (.branchTrue target (by rw [hop]; decide))
  case brfalse | brfalseShort =>
    obtain ⟨target, -, h⟩ := bind_eq_ok.1 h
    exact becomes_of_one h (.branchFalse target (by rw [hop]; decide))
  case blt | bltShort =>
    obtain ⟨target, -, h⟩ := bind_eq_ok.1 h
    exact becomes_of_one h (.branchLess target (by rw [hop]; decide))
  case call => exact becomes_of_call hop h
  case ret =>
    dsimp only at h
    split at h
    · rename_i hvoid
      exact becomes_of_one h (.returnVoid hop hvoid)
    · rename_i hvoid
      exact becomes_of_one h (.returnNonVoid hop (Bool.eq_false_iff.2 hvoid))
  -- What is left has no macro.
  all_goals cases h

end Site

end Cartridge
