import Cartridge.Bytecode.Universe
import Cartridge.Options
import Cartridge.Vil.Entry

/-!
# The program text

`Listing.entries` puts a whole program in order: header, assignments, routines, ROM data, vectors.
`Listing.render` writes it. A label stands at the start of its line; everything else is indented by
the number of open routines and inlined bodies.
-/

namespace Cartridge

/-- The data of a field in ROM. -/
structure RomBlock where
  field : Member
  bytes : List UInt8
deriving DecidableEq, Repr, Inhabited

namespace Listing

/-! ### Order -/

/-- The data of a field; none if the field has no data. -/
def romBlock (u : Universe) (field : Member) : Except Error RomBlock := do
  let decl ← u.findField field
  pure ⟨field, (decl.romData.map (·.bytes)).getD []⟩

/-- The ROM data that routines refer to, in order of first occurrence. -/
def romBlocks (u : Universe) (routines : List Routine) : Except Error (List RomBlock) :=
  ((routines.flatMap (·.labels)).filterMap (·.romField?)).eraseDups.mapM (romBlock u)

/-- Where ROM starts. -/
def romOrigin : UInt16 := 0xF000

/-- Where the vectors stand. -/
def vectorsOrigin : UInt16 := 0xFFFC

/-- Where the program starts. -/
def start : Label := .predefined "START"

/-- The date at the top. -/
def dateLine (date : Option String) : List Entry :=
  match date with
  | some text => [.comment ("Generated on " ++ text), .blank]
  | none => []

/-- What stands before the assignments. -/
def header : List Entry :=
  [.directive (.cpu "6502"), .directive (.programCounter romOrigin), .blank,
   .directive (.includeFile "vcs.h"), .directive (.includeFile "vil.h"), .blank]

/-- The entries of ROM data. -/
def romEntries (b : RomBlock) : List Entry :=
  .blank :: .label (.romData b.field) :: b.bytes.map fun byte => .directive (.byte byte)

/-- The vectors at the end of ROM. -/
def vectors : List Entry :=
  [.blank, .directive (.programCounter vectorsOrigin), .directive (.word start),
   .directive (.word start)]

/-- A whole program. -/
def entries (entryPoint : Routine) (routines : List Routine) (assignments : List Entry)
    (blocks : List RomBlock) (date : Option String) : List Entry :=
  dateLine date ++ header ++ assignments ++ [.blank, .label start] ++ entryPoint.body ++
    routines.flatMap (fun r => .blank :: r.body) ++ blocks.flatMap romEntries ++ vectors

/-! ### Text -/

/-- An indented line. -/
def line (depth : Nat) (text : String) : String :=
  String.ofList (List.replicate (4 * depth) ' ') ++ text

/-- The lines of an entry. -/
def linesOf (c : Commentary) (depth : Nat) : Entry → List String
  | .endFunction => []
  | .blank => [""]
  | .label l => [l.text]
  | .inlineAssembly texts => texts.map (line depth)
  | .invoke call =>
    (if c = .bytecode then call.sources.map fun i => line depth ("// " ++ i.text) else []) ++
      [line depth (Entry.invoke call).text]
  | e => [line depth e.text]

/-- The number of open bodies after an entry. -/
def depthAfter (depth : Nat) : Entry → Nat
  | .endFunction => depth - 1
  | .label (.function _) => depth + 1
  | .inlineFunction .. => depth + 1
  | _ => depth

/-- The lines of entries inside `depth` open bodies. -/
def lines (c : Commentary) (depth : Nat) : List Entry → List String
  | [] => []
  | e :: es => linesOf c depth e ++ lines c (depthAfter depth e) es

/-- The text of a program. -/
def render (c : Commentary) (es : List Entry) : String :=
  String.join ((lines c 0 es).map (· ++ "\n"))

end Listing

end Cartridge
