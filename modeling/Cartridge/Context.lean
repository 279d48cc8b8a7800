import Cartridge.Bytecode.Universe
import Cartridge.Options

/-!
# Contexts

What every stage of a compilation works from.
-/

namespace Cartridge

/-- The universe of a program and the options of its compilation. -/
structure Context where
  program : Universe
  options : Options := {}
deriving DecidableEq, Repr, Inhabited

end Cartridge
