import Cartridge.Json.Basic

/-!
# Numbers of a document

`Number.ofChars?` reads the spelling of a number by the JSON grammar: an optional minus sign, digits
without a leading zero, an optional fraction, an optional exponent. `Number.isFinite` tells whether
the number is read as a finite double: from the leading digits, as many as 64 bits hold, times a
power of ten.
-/

namespace Cartridge.Json.Number

/-- The value of a run of decimal digits. -/
def digitsValue (digits : List Char) : Nat :=
  digits.foldl (fun n c => 10 * n + (c.toNat - '0'.toNat)) 0

/-- The digits after an optional sign, and whether the sign is a minus. -/
def splitSign : List Char → Bool × List Char
  | '-' :: cs => (true, cs)
  | '+' :: cs => (false, cs)
  | cs => (false, cs)

/-- A run of digits, not empty and without a leading zero. -/
def isWhole (digits : List Char) : Bool :=
  digits == ['0'] || (!digits.isEmpty && digits.head? != some '0')

/-- An exponent part, or nothing. -/
def isExponent : List Char → Bool
  | [] => true
  | c :: cs =>
    let digits := (splitSign cs).2
    (c == 'e' || c == 'E') && !digits.isEmpty && digits.all Char.isDigit

/-- An optional fraction followed by an optional exponent. -/
def isTail : List Char → Bool
  | '.' :: cs => !(cs.takeWhile Char.isDigit).isEmpty && isExponent (cs.dropWhile Char.isDigit)
  | cs => isExponent cs

/-- Reads the spelling of a number. -/
def ofChars? (cs : List Char) : Option Number :=
  let negative := cs.head? == some '-'
  let body := if negative then cs.tail else cs
  let whole := body.takeWhile Char.isDigit
  let rest := body.dropWhile Char.isDigit
  if !isWhole whole then none
  else if rest.isEmpty && !(negative && whole == ['0']) then
    let value : Int := digitsValue whole
    some (.integer (if negative then -value else value))
  else if isTail rest then some (.decimal (String.ofList cs))
  else none

/-- The nearest number with 53 significant bits. Of two that are equally near, the even one. -/
def roundToDouble (n : Nat) : Nat :=
  let unit := Nat.pow 2 (n.log2 - 52)
  let quotient := n / unit
  let remainder := n % unit
  let up := unit < 2 * remainder || (unit == 2 * remainder && quotient % 2 == 1)
  (if up then quotient + 1 else quotient) * unit

/-- Appends digits to a number as long as it fits into 64 bits, and gives the digits left over. -/
def appendDigits (n : Nat) : List Char → Nat × List Char
  | [] => (n, [])
  | c :: cs =>
    let next := 10 * n + digitsValue [c]
    if next < UInt64.size then appendDigits next cs else (n, c :: cs)

/-- The largest power of ten that is a finite double. -/
def maxPower : Int := 308

/-- Whether `mantissa * 10 ^ exponent` is finite if both factors are rounded to doubles, and then
their product. -/
def scaledIsFinite (mantissa : Nat) (exponent : Int) : Bool :=
  if mantissa == 0 || exponent < 0 then true
  else if exponent > maxPower then false
  else
    let power := roundToDouble (Nat.pow 10 exponent.toNat)
    roundToDouble (roundToDouble mantissa * power) < Nat.pow 2 1024

/-- Whether the number is read as a finite double. Digits beyond 64 bits count as zeros. -/
def isFinite (number : Number) : Bool :=
  let text := match number with
    | .integer value => Nat.toDigits 10 value.natAbs
    | .decimal text => (splitSign text.toList).2
  let isMark : Char → Bool := fun c => c == 'e' || c == 'E'
  let digits := text.takeWhile fun c => !isMark c
  let fraction := (digits.dropWhile (· != '.')).drop 1
  let (whole, dropped) := appendDigits 0 (digits.takeWhile (· != '.'))
  let (mantissa, ignored) := appendDigits whole fraction
  let power := splitSign ((text.dropWhile fun c => !isMark c).drop 1)
  let exponent : Int := digitsValue power.2
  scaledIsFinite mantissa ((if power.1 then -exponent else exponent) + dropped.length -
    (fraction.length - ignored.length))

end Cartridge.Json.Number
