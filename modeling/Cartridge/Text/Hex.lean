/-!
# Hexadecimal numerals
-/

namespace Cartridge.Text

/-- `digits` with zeros in front, at least `width` long. -/
def padZeros (width : Nat) (digits : List Char) : List Char :=
  List.replicate (width - digits.length) '0' ++ digits

/-- The upper-case hexadecimal numeral of `n`, padded with zeros to `width` digits. -/
def hexUpper (width n : Nat) : String :=
  String.ofList (padZeros width ((Nat.toDigits 16 n).map Char.toUpper))

/-- The lower-case hexadecimal numeral of `n`, padded with zeros to `width` digits. -/
def hexLower (width n : Nat) : String :=
  String.ofList (padZeros width (Nat.toDigits 16 n))

end Cartridge.Text
