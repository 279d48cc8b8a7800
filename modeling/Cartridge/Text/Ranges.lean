/-!
# Character classes given by ranges

A class of characters is a list of inclusive ranges of code points. `inRanges` decides membership.
-/

namespace Cartridge.Text

/-- Inclusive ranges of code points. -/
abbrev Ranges := List (Nat × Nat)

/-- Whether the code point of `c` lies in one of the ranges. -/
def inRanges (ranges : Ranges) (c : Char) : Bool :=
  ranges.any fun r => r.1 ≤ c.toNat && c.toNat ≤ r.2

end Cartridge.Text
