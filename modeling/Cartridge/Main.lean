import Cartridge.CommandLine.Run
import Cartridge.Date

/-!
# The command line on a real machine

Files are read from and written to the disk. This front end starts no other program: an assembler
has to be run on the written text by hand.
-/

namespace Cartridge

/-- Turns a failure of the machine into its reason. -/
def attempt (act : IO α) : IO (Except String α) := do
  match ← act.toBaseIO with
  | .ok a => pure (.ok a)
  | .error e => pure (.error (toString e))

/-- The seconds since the start of 1970, read off a file that is made for the purpose. -/
def currentSeconds : IO Nat := do
  let (_, path) ← IO.FS.createTempFile
  let data ← path.metadata
  IO.FS.removeFile path
  pure data.modified.sec.toNat

/-- The machine as the host of a build. -/
def diskHost (temporaryDirectory : String) : Host IO where
  readFile path := attempt (IO.FS.readFile path)
  createDirectories path := attempt (IO.FS.createDirAll path)
  writeFile path text := attempt (IO.FS.writeFile path text)
  runTool _ _ := pure (.error "no program can be started from here")
  launch _ _ := pure ()
  date := return Date.textOfSeconds (← currentSeconds)
  temporaryDirectory := temporaryDirectory

end Cartridge

/-- Runs the command line. -/
def main (arguments : List String) : IO UInt32 := do
  let directory := (← IO.getEnv "TMPDIR").getD "/tmp"
  let outcome ← Cartridge.CommandLine.run (Cartridge.diskHost directory) arguments
  (← IO.getStdout).putStr outcome.output
  (← IO.getStderr).putStr outcome.diagnostics
  pure outcome.code.toUInt32
