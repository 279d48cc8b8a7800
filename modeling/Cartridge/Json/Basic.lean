/-!
# JSON documents

`Json` is what a strict reader sees of a document. Members of an object keep their order and their
repetitions. A string whose escapes name half of a surrogate pair has no text: it is `brokenString`,
and a member name of that kind is `none`, so that a reader may still skip over it. A number is kept
as an integer where it is written as one; any other number keeps its spelling.
-/

namespace Cartridge

/-- A number of a document. -/
inductive Json.Number where
  /-- Written with digits only, perhaps after a minus sign, and not `-0`. -/
  | integer (value : Int)
  /-- Any other number, by its spelling. -/
  | decimal (text : String)
deriving DecidableEq, Repr

/-- A JSON document. -/
inductive Json where
  | null
  | bool (value : Bool)
  | number (value : Json.Number)
  | string (text : String)
  /-- A string with half a surrogate pair. -/
  | brokenString
  | array (items : List Json)
  /-- The members in order; a name is `none` if it is broken. -/
  | object (members : List (Option String × Json))
deriving Repr, Inhabited

namespace Json

/-- An integer document. -/
def int (n : Int) : Json := .number (.integer n)

/-- A natural number document. -/
def nat (n : Nat) : Json := .int n

/-- An object with the given member names. -/
def record (members : List (String × Json)) : Json :=
  .object (members.map fun m => (some m.1, m.2))

/-- `null` for nothing. -/
def ofOption (write : α → Json) : Option α → Json
  | none => .null
  | some a => write a

/-- An array of written values. -/
def ofList (write : α → Json) (as : List α) : Json := .array (as.map write)

end Json

end Cartridge
