import Cartridge.Json.Number

/-!
# Tokens of a document

`Token.scan?` cuts a text into tokens. Space, tab, line feed and carriage return may stand between
tokens. Strings may not hold raw control characters; their escapes are resolved here, and a string
that names half of a surrogate pair becomes `none`.
-/

namespace Cartridge.Json

/-- A token. -/
inductive Token where
  | openObject
  | closeObject
  | openArray
  | closeArray
  | comma
  | colon
  | null
  | bool (value : Bool)
  | number (value : Number)
  | string (text : Option String)
deriving DecidableEq, Repr

namespace Token

/-- A blank between tokens. -/
def isSpace (c : Char) : Bool := c == ' ' || c == '\t' || c == '\n' || c == '\r'

/-- A character that can occur in the spelling of a number. -/
def isNumberChar (c : Char) : Bool :=
  c.isDigit || c == '-' || c == '+' || c == '.' || c == 'e' || c == 'E'

/-- The value of a hexadecimal digit. -/
def hexValue? (c : Char) : Option Nat :=
  if c.isDigit then some (c.toNat - '0'.toNat)
  else if 'a' ≤ c && c ≤ 'f' then some (c.toNat - 'a'.toNat + 10)
  else if 'A' ≤ c && c ≤ 'F' then some (c.toNat - 'A'.toNat + 10)
  else none

/-- The code unit named by four hexadecimal digits. -/
def codeUnit? (a b c d : Char) : Option Nat := do
  return ((← hexValue? a) * 4096 + (← hexValue? b) * 256 + (← hexValue? c) * 16 + (← hexValue? d))

/-- The character of a one-letter escape. -/
def shortEscape? : Char → Option Char
  | '"' => some '"'
  | '\\' => some '\\'
  | '/' => some '/'
  | 'b' => some '\x08'
  | 'f' => some '\x0c'
  | 'n' => some '\n'
  | 'r' => some '\r'
  | 't' => some '\t'
  | _ => none

/-- The body of a string up to its closing quote as code points and code units, in reverse, and the
text after the quote. -/
def scanString (done : List Nat) : List Char → Option (List Nat × List Char)
  | '"' :: cs => some (done, cs)
  | '\\' :: 'u' :: a :: b :: c :: d :: cs =>
    match codeUnit? a b c d with
    | some unit => scanString (unit :: done) cs
    | none => none
  | '\\' :: c :: cs =>
    match shortEscape? c with
    | some e => scanString (e.toNat :: done) cs
    | none => none
  | c :: cs => if c.toNat < 0x20 || c == '\\' then none else scanString (c.toNat :: done) cs
  | [] => none

theorem length_of_scanString {done : List Nat} {cs : List Char} {units : List Nat}
    {rest : List Char} (h : scanString done cs = some (units, rest)) :
    rest.length < cs.length := by
  fun_induction scanString done cs <;> simp_all <;> omega

/-- Half a surrogate pair that comes first. -/
def isHighSurrogate (n : Nat) : Bool := 0xD800 ≤ n && n < 0xDC00

/-- Half a surrogate pair that comes second. -/
def isLowSurrogate (n : Nat) : Bool := 0xDC00 ≤ n && n < 0xE000

/-- The characters of code points and code units, given in reverse, in front of `text`. Two halves
of a surrogate pair make one character; a half alone makes none. -/
def joinUnits (text : List Char) : List Nat → Option (List Char)
  | [] => some text
  | low :: high :: units =>
    if isLowSurrogate low then
      if isHighSurrogate high then
        joinUnits (Char.ofNat (0x10000 + (high - 0xD800) * 0x400 + (low - 0xDC00)) :: text) units
      else none
    else if isHighSurrogate low then none
    else joinUnits (Char.ofNat low :: text) (high :: units)
  | [unit] =>
    if isLowSurrogate unit || isHighSurrogate unit then none else some (Char.ofNat unit :: text)

/-- What stands first in a text. -/
inductive Step where
  /-- Nothing but blanks. -/
  | finished
  /-- No token. -/
  | failed
  /-- A token and the text after it. -/
  | token (t : Token) (rest : List Char)

/-- The first token of a text. -/
def next (cs : List Char) : Step :=
  match cs.dropWhile isSpace with
  | [] => .finished
  | '\x7b' :: rest => .token .openObject rest
  | '\x7d' :: rest => .token .closeObject rest
  | '[' :: rest => .token .openArray rest
  | ']' :: rest => .token .closeArray rest
  | ',' :: rest => .token .comma rest
  | ':' :: rest => .token .colon rest
  | 'n' :: 'u' :: 'l' :: 'l' :: rest => .token .null rest
  | 't' :: 'r' :: 'u' :: 'e' :: rest => .token (.bool true) rest
  | 'f' :: 'a' :: 'l' :: 's' :: 'e' :: rest => .token (.bool false) rest
  | '"' :: rest =>
    match scanString [] rest with
    | some (units, rest) => .token (.string ((joinUnits [] units).map String.ofList)) rest
    | none => .failed
  | c :: rest =>
    match Number.ofChars? (c :: rest.takeWhile isNumberChar) with
    | some n => .token (.number n) (rest.dropWhile isNumberChar)
    | none => .failed

theorem length_dropWhile_le (p : Char → Bool) (cs : List Char) :
    (cs.dropWhile p).length ≤ cs.length :=
  (List.dropWhile_sublist p).length_le

theorem length_of_next {cs : List Char} {t : Token} {rest : List Char}
    (h : next cs = .token t rest) : rest.length < cs.length := by
  have hd := length_dropWhile_le isSpace cs
  unfold next at h
  split at h <;> rename_i heq <;> try rw [heq] at hd
  all_goals first
    | (cases h; simp at hd; omega)
    | skip
  · cases h
  · split at h
    · cases h
      have := length_of_scanString (by assumption)
      simp at hd; omega
    · cases h
  · split at h
    · cases h
      refine Nat.lt_of_le_of_lt (length_dropWhile_le _ _) ?_
      simp at hd; omega
    · cases h

/-- The tokens of a text after those already `done`, which are given in reverse. -/
def scanFrom? (done : List Token) (cs : List Char) : Option (List Token) :=
  match _h : next cs with
  | .finished => some done.reverse
  | .failed => none
  | .token t rest => scanFrom? (t :: done) rest
termination_by cs.length
decreasing_by exact length_of_next _h

/-- The tokens of a text. -/
def scan? (text : String) : Option (List Token) := scanFrom? [] text.toList

end Token

end Cartridge.Json
