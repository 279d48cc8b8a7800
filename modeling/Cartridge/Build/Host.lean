/-!
# Hosts

What a build needs from the machine that it runs on. A failure comes with its reason.
-/

namespace Cartridge

/-- What came of running a tool. -/
structure ToolRun where
  isSuccessful : Bool
  /-- What the tool printed. -/
  output : String
deriving DecidableEq, Repr, Inhabited

/-- The surroundings of a build. -/
structure Host (m : Type → Type) where
  /-- The text of a file. -/
  readFile : String → m (Except String String)
  /-- Creates a directory and those around it, as far as they do not exist. -/
  createDirectories : String → m (Except String Unit)
  /-- Replaces the text of a file. -/
  writeFile : String → String → m (Except String Unit)
  /-- Runs a tool on arguments to its end. -/
  runTool : String → List String → m (Except String ToolRun)
  /-- Starts a tool on a file and does not wait for it. -/
  launch : String → String → m Unit
  /-- The date as shown in a program. -/
  date : m String
  /-- Where files go that nobody named. -/
  temporaryDirectory : String

end Cartridge
