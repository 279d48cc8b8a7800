import Cartridge.Json.Number

/-!
# Reading values and records from documents

A record is written as an object, or as an array with its fields in order. In an object, members
that are no field are ignored, whatever they hold, and a field may stand only once. In an array,
fields at the end may be missing.
-/

namespace Cartridge

namespace Json

/-- The text of a string. -/
def text? : Json → Option String
  | .string text => some text
  | _ => none

/-- A truth value. -/
def bool? : Json → Option Bool
  | .bool value => some value
  | _ => none

/-- An integer. -/
def int? : Json → Option Int
  | .number (.integer value) => some value
  | _ => none

/-- A natural number below `bound`. -/
def natBelow? (bound : Nat) (j : Json) : Option Nat :=
  j.int?.bind fun value =>
    if 0 ≤ value && value < bound then some value.toNat else none

/-- An 8-bit number. -/
def uint8? (j : Json) : Option UInt8 := (j.natBelow? UInt8.size).map UInt8.ofNat

/-- A 16-bit number. -/
def uint16? (j : Json) : Option UInt16 := (j.natBelow? UInt16.size).map UInt16.ofNat

/-- A 32-bit number. -/
def uint32? (j : Json) : Option UInt32 := (j.natBelow? UInt32.size).map UInt32.ofNat

/-- A signed 64-bit number. -/
def int64? (j : Json) : Option Int64 :=
  j.int?.bind fun value =>
    if Int64.minValue.toInt ≤ value && value ≤ Int64.maxValue.toInt then some (Int64.ofInt value)
    else none

/-- An array of values. -/
def list? (read : Json → Option α) : Json → Option (List α)
  | .array items => items.mapM read
  | _ => none

/-- A value, or `null` for none. -/
def nullable? (read : Json → Option α) : Json → Option (Option α)
  | .null => some none
  | j => (read j).map some

/-- A name: a string, or an object whose only member has that name and a value that `isUnit`
accepts. -/
def tag? (isUnit : Json → Bool) : Json → Option String
  | .string name => some name
  | .object [(some name, value)] => if isUnit value then some name else none
  | _ => none

/-- Whether the document is `null`. -/
def isNull : Json → Bool
  | .null => true
  | _ => false

/-- Whether the document is `null` or an object without members. -/
def isNullOrEmpty : Json → Bool
  | .null => true
  | .object [] => true
  | _ => false

mutual

/-- Whether the document nests at most `room` deep, and all its strings have a text and all its
numbers a finite value. -/
def isPlain : Nat → Json → Bool
  | _, .brokenString => false
  | _, .number n => n.isFinite
  | room + 1, .array items => arePlainItems room items
  | room + 1, .object members => arePlainMembers room members
  | 0, .array _ => false
  | 0, .object _ => false
  | _, _ => true

/-- `isPlain` for every item. -/
def arePlainItems : Nat → List Json → Bool
  | _, [] => true
  | room, item :: items => isPlain room item && arePlainItems room items

/-- `isPlain` for every member, names included. -/
def arePlainMembers : Nat → List (Option String × Json) → Bool
  | _, [] => true
  | room, (name, value) :: members =>
    name.isSome && isPlain room value && arePlainMembers room members

end

/-- The deepest nesting of a value that is read. -/
def maxDepth : Nat := 127

/-- The members with their names, if every name has a text. -/
def named? (members : List (Option String × Json)) : Option (List (String × Json)) :=
  members.mapM fun m => m.1.map (·, m.2)

end Json

/-- The fields of a record that are present, by name. -/
abbrev Record := List (String × Json)

namespace Record

/-- The fields named `names` of a document. -/
def ofJson? (names : List String) : Json → Option Record
  | .object members => (Json.named? members).bind fun named =>
    let fields := named.filter fun m => names.contains m.1
    if (fields.map (·.1)).Nodup then some fields else none
  | .array items => if items.length ≤ names.length then some (names.zip items) else none
  | _ => none

variable (r : Record)

/-- A field that has to be present. -/
def required (name : String) (read : Json → Option α) : Option α := (r.lookup name).bind read

/-- A field that has a default. -/
def optional (name : String) (default : α) (read : Json → Option α) : Option α :=
  match r.lookup name with
  | some j => read j
  | none => some default

end Record

end Cartridge
