import Cartridge.Build.Basic
import Cartridge.Bytecode.Framework
import Cartridge.Bytecode.Reader
import Cartridge.CommandLine.Basic

/-!
# Running the command line

What the program does for its arguments, on any host. The result is an exit code with what goes to
the two output channels.
-/

namespace Cartridge

namespace CommandLine

/-- The end of a run. -/
structure Outcome where
  code : UInt8
  output : String := ""
  diagnostics : String := ""
deriving DecidableEq, Repr, Inhabited

/-- Name and version of the program. -/
def versionText : String := "vcsc 0.1.0\n"

/-- How the program is used. -/
def usageText : String :=
  "Usage: vcsc [OPTIONS] <INPUT>\n\nOptions:\n" ++
  String.join (settingNames.map fun s => "  --" ++ s.1 ++ " <VALUE>\n") ++
  String.join (switchNames.map fun s => "  --" ++ s.1 ++ "\n") ++
  "  --version\n  --help\n"

/-- The outcome for arguments that are not read to the end. -/
def Stop.outcome : Stop → Outcome
  | .usage => { code := 2, diagnostics := usageText }
  | .version => { code := 0, output := versionText }
  | .help => { code := 0, output := usageText }

/-- The options of a document, changed by the arguments. -/
def override (c : CommandLine) (o : Options) : Options where
  outputPath := c.value? .output <|> o.outputPath
  disableOptimizations := o.disableOptimizations || c.isOn .disableOptimizations
  disabledRules := o.disabledRules ++ c.values .disableRule
  inlineAllCalls := o.inlineAllCalls || c.isOn .inlineAll
  commentary := ((c.value? .commentary).bind Commentary.ofName?).getD o.commentary
  memory := o.memory
  assemblerPath := c.value? .assembler <|> o.assemblerPath
  textEditorPath := c.value? .editor <|> o.textEditorPath
  emulatorPath := c.value? .emulator <|> o.emulatorPath
  emitTimestamp := o.emitTimestamp || c.isOn .timestamp

section Run

variable {m : Type → Type} [Monad m] (h : Host m)

/-- Reads a document. -/
def load (parse : String → Except Error α) (path : String) : ExceptT Error m α := do
  let text ← Build.report (.io path) (h.readFile path)
  ExceptT.mk (pure (parse text))

/-- The options for the arguments. -/
def options (c : CommandLine) : ExceptT Error m Options :=
  match c.value? .config with
  | some path => return c.override (← load h Options.parse path)
  | none => pure (c.override {})

/-- The assemblies for the arguments: the user program, the references, the framework. -/
def assemblies (c : CommandLine) : ExceptT Error m Universe := do
  let loaded ← (c.input.toList ++ c.values .reference).mapM (load h Assembly.parse)
  pure ⟨loaded ++ [Framework.assembly]⟩

/-- The outcome of a build. -/
def buildOutcome (b : Build) : Outcome :=
  if b.assembly.isNone then { code := 0, output := "Wrote " ++ b.artifacts.assembly ++ "\n" }
  else if b.isSuccessful then
    { code := 0, output := "Compilation succeeded: " ++ b.artifacts.rom ++ "\n"
      diagnostics := b.output }
  else
    { code := 1
      diagnostics := b.output ++ "Error: assembly of " ++ b.artifacts.assembly ++ " failed\n" }

/-- Compiles or builds for the arguments. -/
def compile (c : CommandLine) : ExceptT Error m Outcome := do
  let options ← c.options h
  let program ← c.assemblies h
  if c.isOn .print then
    let p ← ExceptT.mk (pure (Program.compile ⟨program, options⟩ (← h.date)))
    pure { code := 0, output := p.text }
  else
    return buildOutcome (← Build.run h ⟨program, options⟩)

/-- Runs the program on its arguments. -/
def run (arguments : List String) : m Outcome := do
  match parse arguments with
  | .error stop => pure stop.outcome
  | .ok c =>
    if c.isOn .listRules then
      pure { code := 0, output := String.join (Rule.optional.map (·.name ++ "\n")) }
    else
      match ← c.compile h with
      | .ok outcome => pure outcome
      | .error e => pure { code := 1, diagnostics := "Error: " ++ e.message ++ "\n" }

end Run

end CommandLine

end Cartridge
