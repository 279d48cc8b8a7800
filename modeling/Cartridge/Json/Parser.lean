import Cartridge.Json.Token

/-!
# Reading a document

`Json.parse?` reads the tokens of a text from left to right and keeps the arrays and objects that
are still open on a stack. It accepts exactly one document with nothing after it, and any depth of
nesting.
-/

namespace Cartridge.Json

/-- An array or object that is still open. Contents are given in reverse. -/
inductive Frame where
  | array (items : List Json)
  /-- An object that waits for the value of the member `name`. -/
  | object (members : List (Option String × Json)) (name : Option String)

/-- What the reader waits for. -/
inductive Phase where
  /-- A value. -/
  | value
  /-- A value or the end of an array just opened. -/
  | firstItem
  /-- A member name of an object with these members. -/
  | name (members : List (Option String × Json))
  /-- A member name or the end of an object just opened. -/
  | firstName
  /-- The colon after a member name. -/
  | colon (members : List (Option String × Json)) (name : Option String)
  /-- A comma or the end of what is open, after `done`. -/
  | after (done : Json)

/-- The document of a token that is one by itself. -/
def ofScalar? : Token → Option Json
  | .null => some .null
  | .bool b => some (.bool b)
  | .number n => some (.number n)
  | .string (some text) => some (.string text)
  | .string none => some .brokenString
  | _ => none

/-- Reads tokens with the given containers open. -/
def build? : List Frame → Phase → List Token → Option Json
  | [], .after done, [] => some done
  | frames, .value, t :: ts =>
    match t with
    | .openArray => build? frames .firstItem ts
    | .openObject => build? frames .firstName ts
    | t => (ofScalar? t).bind fun v => build? frames (.after v) ts
  | frames, .firstItem, t :: ts =>
    match t with
    | .closeArray => build? frames (.after (.array [])) ts
    | .openArray => build? (.array [] :: frames) .firstItem ts
    | .openObject => build? (.array [] :: frames) .firstName ts
    | t => (ofScalar? t).bind fun v => build? (.array [] :: frames) (.after v) ts
  | frames, .firstName, .closeObject :: ts => build? frames (.after (.object [])) ts
  | frames, .firstName, .string name :: ts => build? frames (.colon [] name) ts
  | frames, .name members, .string name :: ts => build? frames (.colon members name) ts
  | frames, .colon members name, .colon :: ts => build? (.object members name :: frames) .value ts
  | .array items :: frames, .after done, .comma :: ts =>
    build? (.array (done :: items) :: frames) .value ts
  | .array items :: frames, .after done, .closeArray :: ts =>
    build? frames (.after (.array (done :: items).reverse)) ts
  | .object members name :: frames, .after done, .comma :: ts =>
    build? frames (.name ((name, done) :: members)) ts
  | .object members name :: frames, .after done, .closeObject :: ts =>
    build? frames (.after (.object ((name, done) :: members).reverse)) ts
  | _, _, _ => none

/-- Reads a text as one document. -/
def parse? (text : String) : Option Json := (Token.scan? text).bind (build? [] .value)

end Cartridge.Json
