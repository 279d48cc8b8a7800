import Cartridge.Text.Printable
import Cartridge.Text.Extending
import Cartridge.Text.Hex

/-!
# Quoted text

`quoted` shows a text between double quotes so that every character can be seen: quotes, backslashes
and the common controls by a short escape, characters that are unprintable or would join their
neighbour by their code point, all others as they are.
-/

namespace Cartridge.Text

/-- An ASCII character that is shown as it is inside quotes. -/
def isPlainAscii (c : Char) : Bool :=
  0x20 ≤ c.toNat && c.toNat < 0x7F && c != '"' && c != '\\'

/-- One character inside quotes. -/
def escaped (c : Char) : String :=
  if isPlainAscii c then c.toString
  else match c with
    | '"' => "\\\""
    | '\\' => "\\\\"
    | '\t' => "\\t"
    | '\r' => "\\r"
    | '\n' => "\\n"
    | '\x00' => "\\0"
    | c => if isExtending c || !isPrintable c
        then "\\u\x7b" ++ hexLower 1 c.toNat ++ "\x7d" else c.toString

/-- The text between double quotes, with every character visible. -/
def quoted (text : String) : String :=
  "\"" ++ String.join (text.toList.map escaped) ++ "\""

/-- A list of quoted texts between brackets. -/
def quotedList (texts : List String) : String :=
  "[" ++ ", ".intercalate (texts.map quoted) ++ "]"

end Cartridge.Text
