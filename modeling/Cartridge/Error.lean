import Cartridge.Text.Hex
import Cartridge.Text.Quoted

/-!
# Errors

Why a compilation fails. The first error ends it. `Error.message` words each cause.
-/

namespace Cartridge

/-- A cause of failure. Methods, fields, types and labels are given as they are shown. -/
inductive Error where
  /-- The target cannot express the opcode. -/
  | unsupportedOpcode (opcode : String) (offset : UInt32) (method : String)
  /-- The operand of an instruction does not fit. -/
  | invalidInstruction (offset : UInt32) (method reason : String)
  | missingMethod (method : String)
  | missingType (type : String)
  | missingField (field : String)
  /-- The user program names no entry point. -/
  | missingEntryPoint (assembly : String)
  /-- A call marker asks for another number of parameters. -/
  | arityMismatch (method marker : String) (expected actual : Nat)
  /-- A method of this signature can not be called or inlined. -/
  | unsupportedSignature (method action reason : String)
  /-- A method is inlined into itself along `chain`. -/
  | recursiveInline (method : String) (chain : List String)
  /-- A type contains itself. -/
  | recursiveLayout (type : String)
  /-- A type does not fit into the address space. -/
  | layoutTooLarge (type : String)
  | invalidAlias (name reason : String)
  /-- The RAM below the hardware stack is used up. -/
  | ramExhausted (label : String) (requested next limit : Nat)
  /-- Placeholders are left that no rule consumed. -/
  | leftoverEntries (method : String) (entries : List String)
  /-- A stack operation on a model without slots, or a model with too many. -/
  | stackDepth
  /-- A document is malformed. -/
  | invalidProgram (reason : String)
  /-- A file could not be written. -/
  | io (path reason : String)
  /-- The assembler could not be run. -/
  | assembler (reason : String)
deriving DecidableEq, Repr, Inhabited

namespace Error

/-- The wording of an error. -/
def message : Error → String
  | .unsupportedOpcode opcode offset method =>
    "Unsupported opcode '" ++ opcode ++ "' at IL_" ++ Text.hexUpper 4 offset.toNat ++ " in " ++
      method
  | .invalidInstruction offset method reason =>
    "Invalid instruction at IL_" ++ Text.hexUpper 4 offset.toNat ++ " in " ++ method ++ ": " ++
      reason
  | .missingMethod method => "Method not found in any known assembly: " ++ method
  | .missingType type => "Type not found in any known assembly: " ++ type
  | .missingField field => "Field not found: " ++ field
  | .missingEntryPoint assembly => "No entry point declared by assembly '" ++ assembly ++ "'"
  | .arityMismatch method marker expected actual =>
    marker ++ " on " ++ method ++ " requires " ++ toString expected ++ " parameter(s), found " ++
      toString actual
  | .unsupportedSignature method action reason =>
    "Cannot " ++ action ++ " " ++ method ++ ": " ++ reason
  | .recursiveInline method chain =>
    "Recursive inline expansion of " ++ method ++ " (chain: " ++ " -> ".intercalate chain ++ ")"
  | .recursiveLayout type => "Type " ++ type ++ " has an infinitely recursive layout"
  | .layoutTooLarge type => "Type " ++ type ++ " is too large to lay out"
  | .invalidAlias name reason => "Invalid alias '" ++ name ++ "': " ++ reason
  | .ramExhausted label requested next limit =>
    "RAM exhausted allocating " ++ label ++ " (" ++ toString requested ++ " byte(s) at $" ++
      Text.hexUpper 2 next ++ ", limit $" ++ Text.hexUpper 2 limit ++ ")"
  | .leftoverEntries method entries =>
    "Internal error: preprocessed entries left after optimization in " ++ method ++ ": " ++
      Text.quotedList entries
  | .stackDepth => "Internal error: stack operation on a zero-depth stack tracker"
  | .invalidProgram reason => "Invalid program: " ++ reason
  | .io path reason => "I/O error on " ++ path ++ ": " ++ reason
  | .assembler reason => "Assembler error: " ++ reason

/-- Whether the error shows a fault of the compiler and not of its input. -/
def isInternal : Error → Bool
  | .leftoverEntries .. | .stackDepth => true
  | _ => false

end Error

end Cartridge
