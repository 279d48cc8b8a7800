import Cartridge.Json.Basic
import Cartridge.Text.Hex

/-!
# Writing a document

`Json.compress` writes a document without blanks.
-/

namespace Cartridge.Json

/-- One character of a string. -/
def escapeChar (c : Char) : String :=
  match c with
  | '"' => "\\\""
  | '\\' => "\\\\"
  | '\x08' => "\\b"
  | '\x0c' => "\\f"
  | '\n' => "\\n"
  | '\r' => "\\r"
  | '\t' => "\\t"
  | c => if c.toNat < 0x20 then "\\u" ++ Text.hexLower 4 c.toNat else c.toString

/-- A string with its quotes. -/
def printString (text : String) : String :=
  text.foldl (fun out c => out ++ escapeChar c) "\"" ++ "\""

/-- The spelling of a number. -/
def Number.print : Number → String
  | .integer value => toString value
  | .decimal text => text

/-- A member name. -/
def printName : Option String → String
  | some name => printString name
  | none => "\"\\ud800\""

mutual

/-- The document without blanks. -/
def compress : Json → String
  | .null => "null"
  | .bool true => "true"
  | .bool false => "false"
  | .number n => n.print
  | .string text => printString text
  | .brokenString => "\"\\ud800\""
  | .array items => "[" ++ ",".intercalate (compressItems items) ++ "]"
  | .object members => "\x7b" ++ ",".intercalate (compressMembers members) ++ "\x7d"

/-- Each item without blanks. -/
def compressItems : List Json → List String
  | [] => []
  | item :: items => compress item :: compressItems items

/-- Each member without blanks. -/
def compressMembers : List (Option String × Json) → List String
  | [] => []
  | (name, value) :: members => (printName name ++ ":" ++ compress value) :: compressMembers members

end

end Cartridge.Json
