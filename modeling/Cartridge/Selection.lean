import Cartridge.Context
import Cartridge.Layout
import Cartridge.Vil.Entry

/-!
# Selecting entries for an instruction

Each instruction becomes a few entries, mostly one macro. `Site` holds what an instruction needs to
know of the method around it; `Site.select` does the selection. A call goes by the marker of its
callee (`Site.call`).
-/

namespace Cartridge

/-- The entries for one instruction. -/
structure Selection where
  entries : List Entry
  /-- The locals whose address is taken. -/
  lifted : List Label := []
deriving DecidableEq, Repr, Inhabited

/-- What surrounds an instruction. -/
structure Site where
  context : Context
  method : Member
  decl : MethodDecl
  /-- The body of a callee, to be put in place of a call. -/
  inline : Member → Except Error Routine

namespace Site

variable (s : Site) (i : Instruction)

/-- A fault of an instruction. -/
def fault (reason : String) : Except Error α :=
  .error (.invalidInstruction i.offset s.method.fullName reason)

/-- The selection of a single macro. -/
def one (op : MacroOp) : Except Error Selection := .ok { entries := [.ofInstruction op i] }

/-! ### Operands -/

/-- The slot in the opcode or in the operand. -/
def slot : Except Error UInt16 :=
  match i.opcode.impliedSlot?, i.operand with
  | some index, _ => .ok index
  | none, .localSlot index | none, .argument index => .ok index
  | none, .int value =>
    if 0 ≤ value.toInt ∧ value.toInt < UInt16.size then .ok (UInt16.ofNat value.toInt.toNat)
    else s.fault i "expected a slot operand"
  | none, _ => s.fault i "expected a slot operand"

/-- A local and its type. -/
def localSlot : Except Error (Label × TypeName) := do
  let index ← s.slot i
  match s.decl.locals[index.toNat]? with
  | some type => pure (.localSlot s.method index, type)
  | none => s.fault i ("no local in slot " ++ toString index.toNat)

/-- A parameter and its type. -/
def argument : Except Error (Label × TypeName) := do
  let index ← s.slot i
  match s.decl.parameters[index.toNat]? with
  | some p => pure (.argument s.method index, p.type)
  | none => s.fault i ("no parameter in slot " ++ toString index.toNat)

/-- The field in the operand. -/
def field : Except Error Member :=
  match i.operand with
  | .field f => .ok f
  | _ => s.fault i "expected a field operand"

/-- The static field in the operand and its declaration. -/
def staticField : Except Error (Member × FieldDecl) := do
  let f ← s.field i
  let decl ← s.context.program.findField f
  if decl.isStatic then pure (f, decl) else s.fault i (f.fullName ++ " is not static")

/-- Offset and type of the instance field in the operand. -/
def instanceField : Except Error (Constant × TypeName) := do
  let f ← s.field i
  let layout ← layoutOf s.context.program f.declaringType
  match layout.field? f.name with
  | none => throw (.missingField f.fullName)
  | some placed =>
    if placed.offset < UInt8.size then pure (.byte (UInt8.ofNat placed.offset), placed.type)
    else s.fault i ("field offset " ++ toString placed.offset ++ " exceeds a byte")

/-- The type in the operand. -/
def type : Except Error TypeName :=
  match i.operand with
  | .type t => .ok t
  | _ => s.fault i "expected a type operand"

/-- The byte in the opcode or in the operand. -/
def constant : Except Error UInt8 := do
  let value ← match i.opcode.impliedConstant?, i.operand with
    | some value, _ => .ok value
    | none, .int value => .ok value.toInt
    | none, _ => s.fault i "expected an integer operand"
  if 0 ≤ value ∧ value < UInt8.size then pure (UInt8.ofNat value.toNat)
  else s.fault i ("constant " ++ toString value ++ " does not fit in a byte")

/-- The label of the instruction that a branch leads to. -/
def target : Except Error Label :=
  match i.branchTarget? with
  | some offset => .ok (.instruction offset)
  | none => s.fault i "expected a branch target"

/-! ### Calls -/

/-- A marker that does not fit the number of parameters. -/
def arityMismatch (callee : Member) (decl : MethodDecl) (marker : CallMarker) (expected : Nat) :
    Except Error α :=
  .error (.arityMismatch callee.fullName marker.describe expected decl.arity)

/-- The placeholder for an intrinsic. -/
def placeholder : Intrinsic → Pending
  | .inlineAssembly => .inlineAssemblyCall i
  | .romDataLength => .romDataLengthCall i
  | .romDataStride => .romDataStrideCall i
  | .romDataGetter => .romDataGetterCall i

/-- The body of the callee in place of the call. -/
def inlineCall (callee : Member) (decl : MethodDecl) : Except Error Selection :=
  if decl.arity ≠ 0 ∨ !decl.returnType.isVoid then
    .error (.unsupportedSignature callee.fullName "inline"
      "only parameterless void methods can be inlined")
  else do
    let body ← s.inline callee
    pure ⟨.inlineFunction callee (some i) :: body.body, body.lifted⟩

/-- A call of a routine. -/
def plainCall (callee : Member) (decl : MethodDecl) : Except Error Selection :=
  if decl.arity ≠ 0 then
    .error (.unsupportedSignature callee.fullName "call"
      ("calls with " ++ toString decl.arity ++ " parameter(s) are not supported"))
  else if decl.returnType.isVoid then one i (.callVoid (.function callee))
  else one i (.callNonVoid (.function callee) (.typeOf decl.returnType) (.sizeOf decl.returnType))

/-- A call, by the marker of the callee. -/
def call : Except Error Selection :=
  match i.operand with
  | .method callee => do
    let decl ← s.context.program.findMethod callee
    match decl.marker with
    | some .ignoreCall => pure { entries := [] }
    | some (.storeToSymbol symbol) =>
      match decl.parameters with
      | [] => one i (.storeTo (.predefined symbol))
      | [p] => one i (.popToGlobal (.predefined symbol) (.typeOf p.type) (.sizeOf p.type))
      | _ => arityMismatch callee decl (.storeToSymbol symbol) 1
    | some (.loadFromSymbol symbol) =>
      if decl.arity ≠ 0 then arityMismatch callee decl (.loadFromSymbol symbol) 0
      else one i (.pushGlobal (.predefined symbol) (.typeOf decl.returnType)
        (.sizeOf decl.returnType))
    | some (.loadToRegister register) =>
      if decl.arity ≠ 1 then arityMismatch callee decl (.loadToRegister register) 1
      else one i (.popToRegister register)
    | some (.replaceWithEntry intrinsic) => pure { entries := [.pending (placeholder i intrinsic)] }
    | some .alwaysInline => s.inlineCall i callee decl
    | none =>
      if s.context.options.inlineAllCalls then s.inlineCall i callee decl
      else plainCall i callee decl
  | _ => s.fault i "expected a method operand"

/-! ### Instructions -/

/-- The entries for an instruction. -/
def select : Except Error Selection :=
  match i.opcode with
  | .nop | .convU1 | .convU | .convI => .ok { entries := [] }
  | .ldcM1 | .ldc0 | .ldc1 | .ldc2 | .ldc3 | .ldc4 | .ldc5 | .ldc6 | .ldc7 | .ldc8 | .ldcShort
  | .ldc => do
    let value ← s.constant i
    one i (.pushConstant (.byte value) (.type .byte) (.size .byte))
  | .ldstr =>
    match i.operand with
    | .string text => .ok { entries := [.pending (.loadString i text)] }
    | _ => s.fault i "expected a string operand"
  | .ldloc0 | .ldloc1 | .ldloc2 | .ldloc3 | .ldlocShort | .ldloc => do
    let (l, type) ← s.localSlot i
    one i (.pushGlobal l (.typeOf type) (.sizeOf type))
  | .stloc0 | .stloc1 | .stloc2 | .stloc3 | .stlocShort | .stloc => do
    let (l, type) ← s.localSlot i
    one i (.popToGlobal l (.typeOf type) (.sizeOf type))
  | .ldlocaShort | .ldloca => do
    let (l, type) ← s.localSlot i
    pure ⟨[.ofInstruction (.pushAddressOfLocal l (.typeOf type.pointerTo) (.pointerSize .short)) i],
      [l]⟩
  | .ldarg0 | .ldarg1 | .ldarg2 | .ldarg3 | .ldargShort | .ldarg => do
    let (l, type) ← s.argument i
    one i (.pushGlobal l (.typeOf type) (.sizeOf type))
  | .ldsfld => do
    let (f, decl) ← s.staticField i
    if decl.romData.isSome then
      s.fault i ("ROM data field " ++ f.fullName ++ " can only be accessed by address")
    else one i (.pushGlobal (.global f) (.typeOf decl.type) (.sizeOf decl.type))
  | .stsfld => do
    let (f, decl) ← s.staticField i
    if decl.romData.isSome then s.fault i ("ROM data field " ++ f.fullName ++ " is read-only")
    else one i (.popToGlobal (.global f) (.typeOf decl.type) (.sizeOf decl.type))
  | .ldsflda => do
    let (f, decl) ← s.staticField i
    match decl.romData with
    | some data =>
      one i (.pushAddressOfGlobal (.romData f) (.pointerType data.elementType) (.pointerSize .long))
    | none =>
      one i (.pushAddressOfGlobal (.global f) (.typeOf decl.type.pointerTo) (.pointerSize .short))
  | .ldfld => do
    let (offset, type) ← s.instanceField i
    one i (.pushFieldFromStack offset (.typeOf type) (.sizeOf type))
  | .stfld => do
    let (offset, type) ← s.instanceField i
    one i (.popToFieldFromStack offset (.typeOf type) (.sizeOf type))
  | .ldflda => do
    let (offset, type) ← s.instanceField i
    one i (.pushAddressOfField offset (.typeOf type.pointerTo) (.pointerSize .short))
  | .ldindU1 => one i (.pushDereferenceFromStack (.type .byte) (.size .byte))
  | .stindI1 => one i (.popToAddressFromStack (.type .byte) (.size .byte))
  | .ldobj => do
    let type ← s.type i
    one i (.pushDereferenceFromStack (.typeOf type) (.sizeOf type))
  | .initobj => do
    let type ← s.type i
    one i (.initializeObject (.sizeOf type))
  | .add => one i .addFromStack
  | .sub => one i .subFromStack
  | .or => one i .orFromStack
  | .ceq => one i .compareEqualFromStack
  | .dup => one i .duplicate
  | .pop => one i .popStack
  | .br | .brShort => do one i (.branch (← s.target i))
  | .brtrue | .brtrueShort => do one i (.branchTrueFromStack (← s.target i))
  | .brfalse | .brfalseShort => do one i (.branchFalseFromStack (← s.target i))
  | .blt | .bltShort => do one i (.branchLessFromStack (← s.target i))
  | .call => s.call i
  | .ret =>
    if s.decl.returnType.isVoid then one i .returnVoid
    else one i (.returnNonVoid (.returnValue s.method) (.typeOf s.decl.returnType)
      (.sizeOf s.decl.returnType))
  | _ => .error (.unsupportedOpcode i.opcode.mnemonic i.offset s.method.fullName)

end Site

end Cartridge
