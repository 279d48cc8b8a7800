import Cartridge.Text.Ranges

/-!
# Blank characters, trimming and lines

`isBlank` is the Unicode property White_Space. `trim` drops blanks from both ends, `lines` cuts a
text at line feeds; a carriage return right before a line feed belongs to the line end.
-/

namespace Cartridge.Text

/-- The code points with the property White_Space. -/
def blankRanges : Ranges :=
  [(0x9, 0xD), (0x20, 0x20), (0x85, 0x85), (0xA0, 0xA0), (0x1680, 0x1680), (0x2000, 0x200A),
   (0x2028, 0x2029), (0x202F, 0x202F), (0x205F, 0x205F), (0x3000, 0x3000)]

/-- Whether `c` counts as white space. -/
def isBlank (c : Char) : Bool := inRanges blankRanges c

/-- The text without the blanks at its two ends. -/
def trim (cs : List Char) : List Char :=
  ((cs.dropWhile isBlank).reverse.dropWhile isBlank).reverse

/-- The line read so far, given in reverse, without the carriage return before a line feed. -/
def closeLine : List Char → List Char
  | '\r' :: line => line.reverse
  | line => line.reverse

/-- The lines of a text; `line` is the start of the current line in reverse. A last line without a
line feed is kept as it stands, unless it is empty. -/
def linesFrom (line : List Char) : List Char → List (List Char)
  | [] => if line.isEmpty then [] else [line.reverse]
  | '\n' :: cs => closeLine line :: linesFrom [] cs
  | c :: cs => linesFrom (c :: line) cs

/-- The lines of a text. -/
def lines (cs : List Char) : List (List Char) := linesFrom [] cs

/-- The trimmed lines of a text that are not empty. -/
def filledLines (text : String) : List String :=
  ((lines text.toList).map trim).filterMap fun line =>
    if line.isEmpty then none else some (String.ofList line)

end Cartridge.Text
