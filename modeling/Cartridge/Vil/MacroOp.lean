import Cartridge.Bytecode.Assembly
import Cartridge.Vil.Expression

/-!
# Macros

One constructor per macro of the macro library, with its operands. Name, operand list and stack
effect depend on the macro alone. `pushed?` describes the value that a macro pushes; the stack slots
that it reads are those before the macro.
-/

namespace Cartridge

/-- How many values a macro takes from the operand stack, and how many it then puts there. -/
structure StackEffect where
  pops : Nat
  pushes : Nat
deriving DecidableEq, Repr, Inhabited

namespace StackEffect

/-- The change in depth. -/
def net (e : StackEffect) : Int := e.pushes - e.pops

end StackEffect

/-- A macro with its operands. -/
inductive MacroOp where
  /-- Pushes a literal. -/
  | pushConstant (value : Constant) (type size : Label)
  /-- Pushes the contents of a label. -/
  | pushGlobal (global type size : Label)
  /-- Pushes the address of a label. -/
  | pushAddressOfGlobal (global type size : Label)
  /-- Pushes the address of a local, which then has memory of its own. -/
  | pushAddressOfLocal (slot type size : Label)
  /-- Replaces a pointer by a pointer to one of its fields. -/
  | pushAddressOfField (offset : Constant) (type size : Label)
  /-- Replaces a pointer by the value of one of its fields. -/
  | pushFieldFromStack (offset : Constant) (type size : Label)
  /-- Replaces a pointer by the value that it points to. -/
  | pushDereferenceFromStack (type size : Label)
  /-- Pushes the address of an element in ROM at a fixed index. -/
  | pushAddressOfRomElement (data type size : Label) (index : Constant)
  /-- Replaces an index by the address of that element in ROM. -/
  | pushAddressOfRomElementFromStack (data type size : Label)
  /-- Pops into a label. -/
  | popToGlobal (global type size : Label)
  /-- Pops a value and a pointer, and stores the value into a field. -/
  | popToFieldFromStack (offset : Constant) (type size : Label)
  /-- Pops a value and a pointer, and stores the value there. -/
  | popToAddressFromStack (type size : Label)
  /-- Pops into a register of the processor. -/
  | popToRegister (register : Register)
  /-- Drops the top of the stack. -/
  | popStack
  /-- Strobes a hardware register. -/
  | storeTo (symbol : Label)
  /-- Pops a pointer and clears what it points to. -/
  | initializeObject (size : Label)
  /-- Adds the two topmost values. -/
  | addFromStack
  /-- Subtracts the top value from the one below it. -/
  | subFromStack
  /-- Bitwise or of the two topmost values. -/
  | orFromStack
  /-- Compares the two topmost values. -/
  | compareEqualFromStack
  /-- Pushes the top value again. -/
  | duplicate
  /-- Jumps. -/
  | branch (target : Label)
  /-- Pops and jumps if not zero. -/
  | branchTrueFromStack (target : Label)
  /-- Pops and jumps if zero. -/
  | branchFalseFromStack (target : Label)
  /-- Pops two and jumps if the lower is less than the top. -/
  | branchLessFromStack (target : Label)
  /-- Calls a routine without a result. -/
  | callVoid (function : Label)
  /-- Makes room for a result and calls a routine. -/
  | callNonVoid (function type size : Label)
  /-- Returns without a result. -/
  | returnVoid
  /-- Pops the result and returns. -/
  | returnNonVoid (result type size : Label)
  /-- Sets up the hardware at the start of the program. -/
  | entryPoint
  /-- Acts as `pushConstant`, then `popToGlobal`. -/
  | assignConstantToGlobal (value : Constant) (global size : Label)
  /-- Acts as `pushGlobal`, then `popToGlobal`. -/
  | copyGlobalToGlobal (source sourceSize target targetSize : Label)
  /-- Acts as `pushGlobal` and `pushConstant` in either order, then `addFromStack`. -/
  | addGlobalAndConstant (global globalType globalSize : Label) (value : Constant)
      (constantType constantSize : Label)
  /-- Acts as `addGlobalAndConstant`, then `popToGlobal`. -/
  | addGlobalAndConstantToGlobal (global globalType globalSize : Label) (value : Constant)
      (constantType constantSize target targetType targetSize : Label)
  /-- Adds one to a label in place. -/
  | incrementGlobal (global type size : Label)
deriving DecidableEq, Repr, Inhabited

namespace MacroOp

/-- The name in the macro library. -/
def name : MacroOp → String
  | .pushConstant .. => "pushConstant"
  | .pushGlobal .. => "pushGlobal"
  | .pushAddressOfGlobal .. => "pushAddressOfGlobal"
  | .pushAddressOfLocal .. => "pushAddressOfLocal"
  | .pushAddressOfField .. => "pushAddressOfField"
  | .pushFieldFromStack .. => "pushFieldFromStack"
  | .pushDereferenceFromStack .. => "pushDereferenceFromStack"
  | .pushAddressOfRomElement .. => "pushAddressOfRomDataElementFromConstant"
  | .pushAddressOfRomElementFromStack .. => "pushAddressOfRomDataElementFromStack"
  | .popToGlobal .. => "popToGlobal"
  | .popToFieldFromStack .. => "popToFieldFromStack"
  | .popToAddressFromStack .. => "popToAddressFromStack"
  | .popToRegister .. => "popToRegister"
  | .popStack => "popStack"
  | .storeTo .. => "storeTo"
  | .initializeObject .. => "initializeObject"
  | .addFromStack => "addFromStack"
  | .subFromStack => "subFromStack"
  | .orFromStack => "orFromStack"
  | .compareEqualFromStack => "compareEqualToFromStack"
  | .duplicate => "duplicate"
  | .branch .. => "branch"
  | .branchTrueFromStack .. => "branchTrueFromStack"
  | .branchFalseFromStack .. => "branchFalseFromStack"
  | .branchLessFromStack .. => "branchIfLessThanFromStack"
  | .callVoid .. => "callVoid"
  | .callNonVoid .. => "callNonVoid"
  | .returnVoid => "returnVoid"
  | .returnNonVoid .. => "returnNonVoid"
  | .entryPoint => "entryPoint"
  | .assignConstantToGlobal .. => "assignConstantToGlobal"
  | .copyGlobalToGlobal .. => "copyGlobalToGlobal"
  | .addGlobalAndConstant .. => "addFromGlobalAndConstant"
  | .addGlobalAndConstantToGlobal .. => "addFromGlobalAndConstantToGlobal"
  | .incrementGlobal .. => "incrementGlobal"

/-- The stack effect. -/
def effect : MacroOp → StackEffect
  | .pushConstant .. | .pushGlobal .. | .pushAddressOfGlobal ..
  | .pushAddressOfLocal .. | .pushAddressOfRomElement .. | .duplicate
  | .callNonVoid .. | .addGlobalAndConstant .. => ⟨0, 1⟩
  | .pushAddressOfField .. | .pushFieldFromStack .. | .pushDereferenceFromStack ..
  | .pushAddressOfRomElementFromStack .. => ⟨1, 1⟩
  | .popToGlobal .. | .popToRegister .. | .popStack | .initializeObject ..
  | .branchTrueFromStack .. | .branchFalseFromStack .. | .returnNonVoid .. => ⟨1, 0⟩
  | .popToFieldFromStack .. | .popToAddressFromStack .. | .branchLessFromStack .. => ⟨2, 0⟩
  | .addFromStack | .subFromStack | .orFromStack | .compareEqualFromStack => ⟨2, 1⟩
  | .storeTo .. | .branch .. | .callVoid .. | .returnVoid | .entryPoint
  | .assignConstantToGlobal .. | .copyGlobalToGlobal ..
  | .addGlobalAndConstantToGlobal .. | .incrementGlobal .. => ⟨0, 0⟩

/-- The type of the sum of two values of given types. -/
def sumType (first second : Expression) : Expression := .call "getAddResultType" [first, second]

/-- The size of a built-in type. -/
def builtInSize (type : Expression) : Expression := .call "getSizeFromBuiltInType" [type]

/-- Type and size of the value that the macro pushes, if it pushes one. -/
def pushed? : MacroOp → Option (Expression × Expression)
  | .pushConstant _ type size | .pushGlobal _ type size | .pushAddressOfGlobal _ type size
  | .pushAddressOfLocal _ type size | .pushAddressOfField _ type size
  | .pushFieldFromStack _ type size | .pushDereferenceFromStack type size
  | .pushAddressOfRomElement _ type size _ | .pushAddressOfRomElementFromStack _ type size
  | .callNonVoid _ type size => some (type, size)
  | .addFromStack | .subFromStack =>
    let type := sumType (.stackType 1) (.stackType 0)
    some (type, builtInSize type)
  | .orFromStack =>
    let type := .call "getBitOpResultType" [.stackType 1, .stackType 0]
    some (type, builtInSize type)
  | .compareEqualFromStack => some (Label.type .boolean, Label.size .boolean)
  | .duplicate => some (.stackType 0, .stackSize 0)
  | .addGlobalAndConstant _ globalType _ _ constantType _ =>
    let type := sumType globalType constantType
    some (type, builtInSize type)
  | _ => none

/-- The operands in the program, in order. -/
def parameters : MacroOp → List Expression
  | .pushConstant value type size => [value, type, size]
  | .pushGlobal label type size | .pushAddressOfGlobal label type size
  | .pushAddressOfLocal label type size | .incrementGlobal label type size =>
    [label, type, size]
  | .pushAddressOfField offset type size => [offset, type, size]
  | .pushFieldFromStack offset type size | .popToFieldFromStack offset type size =>
    [offset, type, size, .stackType 0, .stackSize 0]
  | .pushDereferenceFromStack type size | .popToAddressFromStack type size => [type, size]
  | .pushAddressOfRomElement data type size index => [data, type, size, index]
  | .pushAddressOfRomElementFromStack data type size => [data, type, size]
  | .popToGlobal global type size => [global, type, size, .stackType 0, .stackSize 0]
  | .popToRegister register => [Constant.byte register.index, .stackSize 0]
  | .popStack => [.stackSize 0]
  | .storeTo symbol => [symbol]
  | .initializeObject size => [size, .stackSize 0]
  | .addFromStack | .subFromStack | .orFromStack | .compareEqualFromStack =>
    [.stackType 1, .stackSize 1, .stackType 0, .stackSize 0]
  | .duplicate => [.stackType 0, .stackSize 0]
  | .branch target | .branchTrueFromStack target | .branchFalseFromStack target
  | .branchLessFromStack target => [target]
  | .callVoid function => [function]
  | .callNonVoid function type size => [function, type, size]
  | .returnNonVoid result type size => [result, type, size]
  | .returnVoid | .entryPoint => []
  | .assignConstantToGlobal value global size => [value, global, size]
  | .copyGlobalToGlobal source sourceSize target targetSize =>
    [source, sourceSize, target, targetSize]
  | .addGlobalAndConstant global globalType globalSize value constantType constantSize =>
    [global, globalType, globalSize, value, constantType, constantSize]
  | .addGlobalAndConstantToGlobal global globalType globalSize value constantType constantSize
      target targetType targetSize =>
    [global, globalType, globalSize, value, constantType, constantSize, target, targetType,
      targetSize]

/-- The labels that the macro refers to, in order. -/
def labels : MacroOp → List Label
  | .pushConstant _ type size | .pushAddressOfField _ type size | .pushFieldFromStack _ type size
  | .pushDereferenceFromStack type size | .popToFieldFromStack _ type size
  | .popToAddressFromStack type size => [type, size]
  | .pushGlobal label type size | .pushAddressOfGlobal label type size
  | .pushAddressOfLocal label type size | .popToGlobal label type size
  | .incrementGlobal label type size | .pushAddressOfRomElement label type size _
  | .pushAddressOfRomElementFromStack label type size | .callNonVoid label type size
  | .returnNonVoid label type size => [label, type, size]
  | .storeTo label | .initializeObject label | .branch label | .branchTrueFromStack label
  | .branchFalseFromStack label | .branchLessFromStack label | .callVoid label => [label]
  | .assignConstantToGlobal _ global size => [global, size]
  | .copyGlobalToGlobal source sourceSize target targetSize =>
    [source, sourceSize, target, targetSize]
  | .addGlobalAndConstant global globalType globalSize _ constantType constantSize =>
    [global, globalType, globalSize, constantType, constantSize]
  | .addGlobalAndConstantToGlobal global globalType globalSize _ constantType constantSize
      target targetType targetSize =>
    [global, globalType, globalSize, constantType, constantSize, target, targetType, targetSize]
  | .popToRegister _ | .popStack | .addFromStack | .subFromStack | .orFromStack
  | .compareEqualFromStack | .duplicate | .returnVoid | .entryPoint => []

/-- Whether control may leave the stream after the macro. -/
def endsBlock : MacroOp → Bool
  | .branch _ | .branchTrueFromStack _ | .branchFalseFromStack _ | .branchLessFromStack _
  | .returnVoid | .returnNonVoid .. => true
  | _ => false

/-- Whether the macro leaves its routine. -/
def isReturn : MacroOp → Bool
  | .returnVoid | .returnNonVoid .. => true
  | _ => false

/-- Whether the macro always jumps. -/
def isJump : MacroOp → Bool
  | .branch _ => true
  | _ => false

/-- Where the macro may jump to. -/
def branchTarget? : MacroOp → Option Label
  | .branch target | .branchTrueFromStack target | .branchFalseFromStack target
  | .branchLessFromStack target => some target
  | _ => none

end MacroOp

end Cartridge
