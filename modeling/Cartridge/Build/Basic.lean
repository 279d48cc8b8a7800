import Cartridge.Build.Artifacts
import Cartridge.Build.Host
import Cartridge.Program

/-!
# Building

A build compiles a program, writes its text and runs the assembler on it, if the options name one.
-/

namespace Cartridge

/-- What a build produced. -/
structure Build where
  program : Program
  artifacts : Artifacts
  /-- What the assembler did; absent without an assembler. -/
  assembly : Option ToolRun
deriving DecidableEq, Repr, Inhabited

namespace Build

variable (b : Build)

/-- Whether there is a binary. -/
def isSuccessful : Bool := b.assembly.any (·.isSuccessful)

/-- A path, if there is a binary. -/
def ifSuccessful (path : String) : Option String := if b.isSuccessful then some path else none

/-- What the assembler printed. -/
def output : String := (b.assembly.map (·.output)).getD ""

/-- Where the binary goes. -/
def romPath (ctx : Context) (temporaryDirectory : String) : String :=
  ctx.options.outputPath.getD
    (Path.join temporaryDirectory (mangle ctx.program.user.name ++ ".bin"))

/-- The arguments of the assembler. -/
def assemblerArguments (a : Artifacts) : List String :=
  [a.assembly, "-o", a.rom, "-L", a.list, "-l", a.symbols, "--format=flat"]

section Run

variable {m : Type → Type} [Monad m] (h : Host m)

/-- Reports a failure as an error. -/
def report (error : String → Error) (act : m (Except String α)) : ExceptT Error m α := do
  match ← act with
  | .ok a => pure a
  | .error reason => throw (error reason)

/-- Writes the text of a program, with the directories around it. -/
def writeProgram (program : Program) (a : Artifacts) : ExceptT Error m Unit := do
  let directory := Path.parent a.assembly
  if directory ≠ "" then report (.io directory) (h.createDirectories directory)
  report (.io a.assembly) (h.writeFile a.assembly program.text)

/-- Runs the assembler. -/
def assemble (assembler : String) (a : Artifacts) : ExceptT Error m ToolRun :=
  report (fun reason => .assembler ("failed to run " ++ assembler ++ ": " ++ reason))
    (h.runTool assembler (assemblerArguments a))

/-- Opens a file with a tool, if there is one. -/
def openWith (tool file : Option String) : ExceptT Error m Unit :=
  match tool, file with
  | some tool, some file => h.launch tool file
  | _, _ => pure ()

/-- Builds a program. -/
def run (ctx : Context) : ExceptT Error m Build := do
  let date ← h.date
  let program ← ExceptT.mk (pure (Program.compile ctx date))
  let artifacts := Artifacts.ofRom (romPath ctx h.temporaryDirectory)
  writeProgram h program artifacts
  let assembly ← ctx.options.assemblerPath.mapM fun path => assemble h path artifacts
  let b : Build := ⟨program, artifacts, assembly⟩
  openWith h ctx.options.textEditorPath (some artifacts.assembly)
  openWith h ctx.options.emulatorPath (b.ifSuccessful artifacts.rom)
  pure b

end Run

end Build

end Cartridge
