import Cartridge.Bytecode.Assembly
import Cartridge.Json.Parser
import Cartridge.Json.Record
import Cartridge.Error

/-!
# Reading assemblies

`ofJson?` of each type reads it from a document and gives nothing if the document does not fit.
`Assembly.parse` reads the text of a document.
-/

namespace Cartridge

namespace TypeName

/-- Reads the name of a type. -/
def ofJson? (j : Json) : Option TypeName := j.text?.map TypeName.mk

end TypeName

namespace Member

/-- Reads `Namespace.Type::Member`. -/
def ofJson? (j : Json) : Option Member := j.text?.bind parse?

end Member

namespace Opcode

/-- Reads a mnemonic. -/
def ofJson? (j : Json) : Option Opcode := j.text?.bind ofMnemonic?

end Opcode

namespace Operand

/-- Reads the value of an operand of a given kind. -/
def ofValue? (kind : String) (value : Option Json) : Option Operand :=
  match kind with
  | "none" => if value.all Json.isNull then some .absent else none
  | "int" => value.bind fun j => j.int64?.map .int
  | "local" => value.bind fun j => j.uint16?.map .localSlot
  | "arg" => value.bind fun j => j.uint16?.map .argument
  | "target" => value.bind fun j => j.uint32?.map .target
  | "field" => value.bind fun j => (Member.ofJson? j).map .field
  | "method" => value.bind fun j => (Member.ofJson? j).map .method
  | "type" => value.bind fun j => (TypeName.ofJson? j).map .type
  | "string" => value.bind fun j => j.text?.map .string
  | _ => none

/-- Reads an operand: an object with a kind and a value, or an array of the two. In an array the
kind is a string. -/
def ofJson? : Json → Option Operand
  | .array [kind, value] => kind.text?.bind fun k => ofValue? k (some value)
  | .array _ => none
  | j => (Record.ofJson? ["kind", "value"] j).bind fun r =>
    (r.required "kind" (Json.tag? Json.isNull)).bind fun k => ofValue? k (r.lookup "value")

end Operand

namespace Instruction

/-- Reads an instruction. -/
def ofJson? (j : Json) : Option Instruction := do
  let r ← Record.ofJson? ["offset", "opcode", "operand"] j
  let offset ← r.required "offset" Json.uint32?
  let opcode ← r.required "opcode" Opcode.ofJson?
  let operand ← r.optional "operand" .absent Operand.ofJson?
  return { offset, opcode, operand }

end Instruction

namespace Register

/-- Reads the name of a register. -/
def ofJson? (j : Json) : Option Register :=
  (j.tag? Json.isNullOrEmpty).bind fun n => all.find? fun r => r.name == n

end Register

namespace Intrinsic

/-- Reads the name of an intrinsic. -/
def ofJson? (j : Json) : Option Intrinsic :=
  (j.tag? Json.isNullOrEmpty).bind fun n => all.find? fun i => i.name == n

end Intrinsic

namespace CallMarker

/-- Reads a marker without fields: an array may hold nothing after the kind. -/
def unit? (marker : CallMarker) : Json → Option CallMarker
  | .array (_ :: _) => none
  | _ => some marker

/-- Reads a marker with one field. -/
def single? (name : String) (read : Json → Option α) (make : α → CallMarker) (fields : Json) :
    Option CallMarker :=
  (Record.ofJson? [name] fields).bind fun r => (r.required name read).map make

/-- Reads the fields of a marker of a given kind. -/
def ofFields? (kind : String) (fields : Json) : Option CallMarker :=
  match kind with
  | "ignore_call" => unit? .ignoreCall fields
  | "store_to_symbol" => single? "symbol" Json.text? .storeToSymbol fields
  | "load_from_symbol" => single? "symbol" Json.text? .loadFromSymbol fields
  | "load_to_register" => single? "register" Register.ofJson? .loadToRegister fields
  | "replace_with_entry" => single? "intrinsic" Intrinsic.ofJson? .replaceWithEntry fields
  | "always_inline" => unit? .alwaysInline fields
  | _ => none

/-- Reads a marker that is nested `level` deep in its document: an object with a kind and the fields
of that kind, or an array of them. Unlike elsewhere, members that are no field have to be readable
too. -/
def ofJson? (level : Nat) : Json → Option CallMarker
  | .object members => do
    let named ← Json.named? members
    let kind ← Record.ofJson? ["kind"] (.object members)
    let fields := members.filter fun m => m.1 != some "kind"
    if named.all fun m => m.1 == "kind" || m.2.isPlain (Json.maxDepth - level) then
      ofFields? (← kind.required "kind" Json.text?) (.object fields)
    else none
  | .array (kind :: fields) =>
    if fields.all (Json.isPlain (Json.maxDepth - level)) then
      kind.text?.bind fun k => ofFields? k (.array fields)
    else none
  | _ => none

end CallMarker

namespace Parameter

/-- Reads a parameter. -/
def ofJson? (j : Json) : Option Parameter := do
  let r ← Record.ofJson? ["name", "type"] j
  return { name := ← r.required "name" Json.text?, type := ← r.required "type" TypeName.ofJson? }

end Parameter

namespace RomData

/-- Reads ROM data. -/
def ofJson? (j : Json) : Option RomData := do
  let r ← Record.ofJson? ["element_type", "bytes"] j
  let elementType ← r.required "element_type" TypeName.ofJson?
  let bytes ← r.required "bytes" (Json.list? Json.uint8?)
  return { elementType, bytes }

end RomData

namespace FieldDecl

/-- Reads a field. -/
def ofJson? (j : Json) : Option FieldDecl := do
  let r ← Record.ofJson? ["name", "type", "is_static", "rom_data", "aliases"] j
  let name ← r.required "name" Json.text?
  let type ← r.required "type" TypeName.ofJson?
  let isStatic ← r.optional "is_static" false Json.bool?
  let romData ← r.optional "rom_data" none (Json.nullable? RomData.ofJson?)
  let aliases ← r.optional "aliases" [] (Json.list? Json.text?)
  return { name, type, isStatic, romData, aliases }

end FieldDecl

namespace MethodDecl

/-- How deep the marker of a method is nested in the document of an assembly. -/
def markerLevel : Nat := 6

/-- Reads a method. -/
def ofJson? (j : Json) : Option MethodDecl := do
  let r ← Record.ofJson? ["name", "parameters", "return_type", "locals", "body", "marker"] j
  let name ← r.required "name" Json.text?
  let parameters ← r.optional "parameters" [] (Json.list? Parameter.ofJson?)
  let returnType ← r.optional "return_type" .void TypeName.ofJson?
  let locals ← r.optional "locals" [] (Json.list? TypeName.ofJson?)
  let body ← r.optional "body" [] (Json.list? Instruction.ofJson?)
  let marker ← r.optional "marker" none (Json.nullable? (CallMarker.ofJson? markerLevel))
  return { name, parameters, returnType, locals, body, marker }

end MethodDecl

namespace TypeDecl

/-- Reads a type. -/
def ofJson? (j : Json) : Option TypeDecl := do
  let r ← Record.ofJson? ["name", "fields", "methods", "primitive_size"] j
  let name ← r.required "name" TypeName.ofJson?
  let fields ← r.optional "fields" [] (Json.list? FieldDecl.ofJson?)
  let methods ← r.optional "methods" [] (Json.list? MethodDecl.ofJson?)
  let primitiveSize ← r.optional "primitive_size" none (Json.nullable? Json.uint16?)
  return { name, fields, methods, primitiveSize }

end TypeDecl

namespace Assembly

/-- Reads an assembly. -/
def ofJson? (j : Json) : Option Assembly := do
  let r ← Record.ofJson? ["name", "types", "entry_point"] j
  let name ← r.required "name" Json.text?
  let types ← r.optional "types" [] (Json.list? TypeDecl.ofJson?)
  let entryPoint ← r.optional "entry_point" none (Json.nullable? Member.ofJson?)
  return { name, types, entryPoint }

/-- Reads the text of an assembly document. -/
def parse (text : String) : Except Error Assembly :=
  match (Json.parse? text).bind ofJson? with
  | some a => .ok a
  | none => .error (.invalidProgram "not an assembly")

end Assembly

end Cartridge
