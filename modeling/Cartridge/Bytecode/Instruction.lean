import Cartridge.Name
import Cartridge.Bytecode.Opcode
import Cartridge.Text.Hex
import Cartridge.Text.Quoted

/-!
# Instructions

An instruction has an offset in its method body, an opcode and an operand. `Instruction.text` is the
form in listings and messages.
-/

namespace Cartridge

/-- The operand of an instruction. -/
inductive Operand where
  | absent
  /-- An integer literal. -/
  | int (value : Int64)
  /-- A local slot. -/
  | localSlot (index : UInt16)
  /-- A parameter slot. -/
  | argument (index : UInt16)
  /-- The offset that a branch leads to. -/
  | target (offset : UInt32)
  | field (field : Member)
  | method (method : Member)
  | type (type : TypeName)
  | string (text : String)
deriving DecidableEq, Repr, Inhabited

/-- How an offset is written. -/
def offsetText (offset : UInt32) : String := "IL_" ++ Text.hexUpper 4 offset.toNat

namespace Operand

/-- The operand as shown after the mnemonic. -/
def text : Operand → String
  | .absent => ""
  | .int value => toString value.toInt
  | .localSlot index => "V_" ++ toString index.toNat
  | .argument index => "A_" ++ toString index.toNat
  | .target offset => offsetText offset
  | .field f => f.fullName
  | .method m => m.fullName
  | .type t => t.text
  | .string s => Text.quoted s

end Operand

/-- One instruction of a method body. -/
structure Instruction where
  offset : UInt32
  opcode : Opcode
  operand : Operand := .absent
deriving DecidableEq, Repr, Inhabited

namespace Instruction

variable (i : Instruction)

/-- The offset that the instruction may jump to. -/
def branchTarget? : Option UInt32 :=
  match i.opcode.isBranch, i.operand with
  | true, .target offset => some offset
  | _, _ => none

/-- The method in the operand. -/
def callee? : Option Member :=
  match i.operand with
  | .method m => some m
  | _ => none

/-- The instruction as shown in listings. -/
def text : String :=
  let head := offsetText i.offset ++ ": " ++ i.opcode.mnemonic
  if i.operand = .absent then head else head ++ " " ++ i.operand.text

end Instruction

end Cartridge
