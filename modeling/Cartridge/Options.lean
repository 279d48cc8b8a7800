import Cartridge.Json.Parser
import Cartridge.Json.Record
import Cartridge.Ram

/-!
# Options of a compilation

Every option has a default. `Options.ofJson?` reads them from a document.
-/

namespace Cartridge

/-- What is shown above each macro of a program. -/
inductive Commentary where
  | none
  /-- The instructions that the macro comes from. -/
  | bytecode
deriving DecidableEq, Repr, Inhabited

namespace Commentary

/-- The name in documents and on the command line. -/
def name : Commentary → String
  | .none => "none"
  | .bytecode => "bytecode"

/-- The commentary of a given name. -/
def ofName? (name : String) : Option Commentary :=
  [Commentary.none, .bytecode].find? fun a => a.name == name

/-- Reads a commentary. -/
def ofJson? (j : Json) : Option Commentary := (j.tag? Json.isNull).bind ofName?

end Commentary

namespace RamBounds

/-- Reads the bounds of RAM. -/
def ofJson? (j : Json) : Option RamBounds := do
  let standard : RamBounds := {}
  let r ← Record.ofJson? ["ram_start", "ram_end", "stack_reserve"] j
  let start ← r.optional "ram_start" standard.start (Json.natBelow? UInt16.size)
  let stop ← r.optional "ram_end" standard.stop (Json.natBelow? UInt16.size)
  let reserve ← r.optional "stack_reserve" standard.reserve (Json.natBelow? UInt16.size)
  return { start, stop, reserve }

end RamBounds

/-- The options of a compilation. -/
structure Options where
  /-- The path of the binary, from which the other paths are derived. -/
  outputPath : Option String := none
  /-- Skip every optional rule. -/
  disableOptimizations : Bool := false
  /-- The names of optional rules to skip. -/
  disabledRules : List String := []
  /-- Inline every call of a method without a marker. -/
  inlineAllCalls : Bool := false
  commentary : Commentary := .none
  memory : RamBounds := {}
  /-- The assembler; without one a build stops at the program text. -/
  assemblerPath : Option String := none
  /-- Opened on the program after a build. -/
  textEditorPath : Option String := none
  /-- Opened on the binary after a successful build. -/
  emulatorPath : Option String := none
  /-- Put the date into the program. -/
  emitTimestamp : Bool := false
deriving DecidableEq, Repr, Inhabited

namespace Options

/-- Reads options. -/
def ofJson? (j : Json) : Option Options := do
  let path := Json.nullable? Json.text?
  let r ← Record.ofJson? ["output_path", "disable_optimizations", "disabled_rules",
    "inline_all_calls", "source_annotations", "memory", "assembler_path", "text_editor_path",
    "emulator_path", "emit_timestamp"] j
  let outputPath ← r.optional "output_path" none path
  let disableOptimizations ← r.optional "disable_optimizations" false Json.bool?
  let disabledRules ← r.optional "disabled_rules" [] (Json.list? Json.text?)
  let inlineAllCalls ← r.optional "inline_all_calls" false Json.bool?
  let commentary ← r.optional "source_annotations" .none Commentary.ofJson?
  let memory ← r.optional "memory" {} RamBounds.ofJson?
  let assemblerPath ← r.optional "assembler_path" none path
  let textEditorPath ← r.optional "text_editor_path" none path
  let emulatorPath ← r.optional "emulator_path" none path
  let emitTimestamp ← r.optional "emit_timestamp" false Json.bool?
  return { outputPath, disableOptimizations, disabledRules, inlineAllCalls, commentary, memory,
           assemblerPath, textEditorPath, emulatorPath, emitTimestamp }

/-- Reads the text of an options document. -/
def parse (text : String) : Except Error Options :=
  match (Json.parse? text).bind ofJson? with
  | some o => .ok o
  | none => .error (.invalidProgram "not an options document")

end Options

end Cartridge
