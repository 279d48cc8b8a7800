import Cartridge.Path

/-!
# The files of a build

The program text, the listing and the symbols stand beside the binary and differ from it by their
extensions.
-/

namespace Cartridge

/-- The paths of the files of a build. -/
structure Artifacts where
  assembly : String
  rom : String
  list : String
  symbols : String
deriving DecidableEq, Repr, Inhabited

namespace Artifacts

/-- The files that go with a binary. -/
def ofRom (rom : String) : Artifacts where
  assembly := Path.withExtension rom "asm"
  rom := rom
  list := Path.withExtension rom "lst"
  symbols := Path.withExtension rom "sym"

end Artifacts

end Cartridge
