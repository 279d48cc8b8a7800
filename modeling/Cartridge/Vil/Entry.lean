import Cartridge.Vil.MacroOp

/-!
# Entries and routines

A routine is a stream of entries: macros with the instructions that they come from, label
definitions, assembler directives, comments and marks. A `Pending` entry is a placeholder that the
mandatory peephole rules have to consume.
-/

namespace Cartridge

/-- A macro together with the instructions that it comes from, in order. -/
structure Invocation where
  op : MacroOp
  sources : List Instruction := []
deriving DecidableEq, Repr, Inhabited

/-- A directive of the assembler. -/
inductive Directive where
  | beginBlock
  | endBlock
  | byte (value : UInt8)
  | word (label : Label)
  | cpu (name : String)
  | includeFile (name : String)
  /-- Sets the address of what follows. -/
  | programCounter (address : UInt16)
  /-- Assigns one of the arrays that describe the operand stack. -/
  | arrayLet (array : StackArray) (elements : List Expression)
  | labelAssign (label : Label) (value : Expression)
  | aliasAssign (name : String) (label : Label)
deriving DecidableEq, Repr, Inhabited

namespace Directive

/-- The directive in the program. -/
def text : Directive → String
  | .beginBlock => ".block"
  | .endBlock => ".endblock"
  | .byte value => ".byte $" ++ Text.hexUpper 2 value.toNat
  | .word label => ".word " ++ label.text
  | .cpu name => ".cpu \"" ++ name ++ "\""
  | .includeFile name => ".include \"" ++ name ++ "\""
  | .programCounter address => "* = $" ++ Text.hexUpper 4 address.toNat
  | .arrayLet array elements =>
    ".let " ++ array.text ++ " = [" ++ ", ".intercalate (elements.map (·.text)) ++ "]"
  | .labelAssign label value => label.text ++ " = " ++ value.text
  | .aliasAssign name label => name ++ " = " ++ label.text

end Directive

/-- A placeholder. -/
inductive Pending where
  /-- A text that waits for inline assembly. -/
  | loadString (instruction : Instruction) (text : String)
  | inlineAssemblyCall (instruction : Instruction)
  | romDataLengthCall (instruction : Instruction)
  | romDataStrideCall (instruction : Instruction)
  | romDataGetterCall (instruction : Instruction)
deriving DecidableEq, Repr, Inhabited

namespace Pending

/-- The instruction that the placeholder comes from. -/
def instruction : Pending → Instruction
  | .loadString i _ | .inlineAssemblyCall i | .romDataLengthCall i | .romDataStrideCall i
  | .romDataGetterCall i => i

/-- The kind of placeholder. -/
def kind : Pending → String
  | .loadString .. => "LoadString"
  | .inlineAssemblyCall _ => "InlineAssemblyCall"
  | .romDataLengthCall _ => "RomDataLengthCall"
  | .romDataStrideCall _ => "RomDataStrideCall"
  | .romDataGetterCall _ => "RomDataGetterCall"

/-- The placeholder in messages. -/
def text (p : Pending) : String := p.kind ++ " (" ++ p.instruction.text ++ ")"

end Pending

/-- An entry of a stream. -/
inductive Entry where
  | invoke (call : Invocation)
  /-- Defines a label. -/
  | label (label : Label)
  | directive (directive : Directive)
  | pending (placeholder : Pending)
  | inlineAssembly (lines : List String)
  | comment (text : String)
  | blank
  /-- The start of an inlined body; `callSite` is absent for a static initializer. -/
  | inlineFunction (method : Member) (callSite : Option Instruction)
  /-- The end of a routine or of an inlined body. -/
  | endFunction
deriving DecidableEq, Repr, Inhabited

namespace Entry

/-- A macro that comes from one instruction. -/
def ofInstruction (op : MacroOp) (i : Instruction) : Entry := .invoke ⟨op, [i]⟩

/-- A macro that comes from no instruction. -/
def synthetic (op : MacroOp) : Entry := .invoke ⟨op, []⟩

/-- The macro of an entry. -/
def op? : Entry → Option MacroOp
  | .invoke call => some call.op
  | _ => none

/-- The label that an entry defines. -/
def definedLabel? : Entry → Option Label
  | .label l => some l
  | _ => none

/-- The placeholder of an entry. -/
def pending? : Entry → Option Pending
  | .pending p => some p
  | _ => none

/-- The instructions that an entry comes from. -/
def sources : Entry → List Instruction
  | .invoke call => call.sources
  | .pending p => [p.instruction]
  | _ => []

/-- The labels that an entry refers to; a label that it defines is none of them. -/
def labels : Entry → List Label
  | .invoke call => call.op.labels
  | .directive (.word l) => [l]
  | .directive (.arrayLet _ elements) => elements.flatMap (·.labels)
  | _ => []

/-- The entry in the program. -/
def text : Entry → String
  | .invoke call =>
    let parameters := call.op.parameters.map (·.text)
    if parameters.isEmpty then "." ++ call.op.name
    else "." ++ call.op.name ++ " " ++ ", ".intercalate parameters
  | .label l => l.text
  | .directive d => d.text
  | .pending p => "// PREPROCESSED " ++ p.text
  | .inlineAssembly lines => "\n".intercalate lines
  | .comment text => "// " ++ text
  | .blank | .endFunction => ""
  | .inlineFunction method _ => "// Inline " ++ method.fullName

end Entry

/-- A compiled routine. -/
structure Routine where
  method : Member
  body : List Entry
  /-- The locals whose address is taken, in label order, also those of inlined bodies. -/
  lifted : List Label := []
deriving DecidableEq, Repr, Inhabited

namespace Routine

/-- Every label that the body refers to, in order of first occurrence. -/
def labels (r : Routine) : List Label := (r.body.flatMap (·.labels)).eraseDups

end Routine

end Cartridge
