import Cartridge.Vil.Label

/-!
# Expressions

Operands of macros and right-hand sides of assignments. The assembler keeps two arrays that describe
the operand stack, `STACK_TYPEOF` and `STACK_SIZEOF`; slot 0 is the top of the stack.
-/

namespace Cartridge

/-- A literal. -/
inductive Constant where
  | byte (value : UInt8)
  | number (value : UInt16)
  /-- Written in hexadecimal. -/
  | address (value : UInt16)
deriving DecidableEq, Repr, Inhabited

namespace Constant

/-- The literal in the program. -/
def text : Constant → String
  | .byte value => toString value.toNat
  | .number value => toString value.toNat
  | .address value =>
    if value.toNat ≤ 0xFF then "$" ++ Text.hexUpper 2 value.toNat
    else "$" ++ Text.hexUpper 4 value.toNat

/-- Whether the literal is the number one. -/
def isOne : Constant → Bool
  | .byte value => value == 1
  | .number value => value == 1
  | .address _ => false

end Constant

/-- One of the two arrays that describe the operand stack. -/
inductive StackArray where
  | typeOf
  | sizeOf
deriving DecidableEq, Repr, Inhabited

namespace StackArray

/-- The name of the array in the program. -/
def text : StackArray → String
  | .typeOf => "STACK_TYPEOF"
  | .sizeOf => "STACK_SIZEOF"

end StackArray

/-- An operand. -/
inductive Expression where
  | label (label : Label)
  | constant (value : Constant)
  /-- An element of an array of the operand stack. -/
  | slot (array : StackArray) (index : Nat)
  /-- A function that the assembler evaluates. -/
  | call (function : String) (args : List Expression)
deriving Repr, Inhabited

namespace Expression

mutual

/-- Equality of expressions can be decided. -/
def decEq : (a b : Expression) → Decidable (a = b)
  | .label a, .label b => decidable_of_iff (a = b) (by simp)
  | .constant a, .constant b => decidable_of_iff (a = b) (by simp)
  | .slot a i, .slot b j => decidable_of_iff (a = b ∧ i = j) (by simp)
  | .call f as, .call g bs =>
    match decEqList as bs with
    | isTrue h => decidable_of_iff (f = g) (by simp [h])
    | isFalse h => isFalse (by simp [h])
  | .label _, .constant _ | .label _, .slot .. | .label _, .call .. => isFalse (by simp)
  | .constant _, .label _ | .constant _, .slot .. | .constant _, .call .. => isFalse (by simp)
  | .slot .., .label _ | .slot .., .constant _ | .slot .., .call .. => isFalse (by simp)
  | .call .., .label _ | .call .., .constant _ | .call .., .slot .. => isFalse (by simp)

/-- Equality of lists of expressions can be decided. -/
def decEqList : (as bs : List Expression) → Decidable (as = bs)
  | [], [] => isTrue rfl
  | a :: as, b :: bs =>
    match decEq a b, decEqList as bs with
    | isTrue h, isTrue hs => isTrue (by simp [h, hs])
    | isFalse h, _ => isFalse (by simp [h])
    | _, isFalse hs => isFalse (by simp [hs])
  | [], _ :: _ => isFalse (by simp)
  | _ :: _, [] => isFalse (by simp)

end

instance : DecidableEq Expression := decEq

/-- The type of a stack slot. -/
def stackType (index : Nat) : Expression := .slot .typeOf index

/-- The size of a stack slot. -/
def stackSize (index : Nat) : Expression := .slot .sizeOf index

mutual

/-- The labels of an expression, from left to right. -/
def labels : Expression → List Label
  | .label l => [l]
  | .call _ args => labelsList args
  | .constant _ | .slot .. => []

/-- The labels of several expressions. -/
def labelsList : List Expression → List Label
  | [] => []
  | e :: es => labels e ++ labelsList es

end

mutual

/-- The expression in the program. -/
def text : Expression → String
  | .label l => l.text
  | .constant c => c.text
  | .slot array index => array.text ++ "[" ++ toString index ++ "]"
  | .call function args => function ++ "(" ++ ", ".intercalate (texts args) ++ ")"

/-- Several expressions in the program. -/
def texts : List Expression → List String
  | [] => []
  | e :: es => text e :: texts es

end

instance : Coe Label Expression := ⟨.label⟩

instance : Coe Constant Expression := ⟨.constant⟩

end Expression

end Cartridge
