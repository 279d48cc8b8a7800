import Cartridge.Bytecode.Assembly
import Cartridge.Json.Basic

/-!
# Writing assemblies

`toJson` of each type writes it as a document with every field present.
-/

namespace Cartridge

namespace TypeName

/-- The name as a document. -/
def toJson (t : TypeName) : Json := .string t.text

end TypeName

namespace Member

/-- The written form as a document. -/
def toJson (m : Member) : Json := .string m.fullName

end Member

namespace Operand

/-- The kind and the value of an operand. -/
def toJson : Operand → Json
  | .absent => .record [("kind", .string "none")]
  | .int value => tagged "int" (.int value.toInt)
  | .localSlot index => tagged "local" (.nat index.toNat)
  | .argument index => tagged "arg" (.nat index.toNat)
  | .target offset => tagged "target" (.nat offset.toNat)
  | .field f => tagged "field" f.toJson
  | .method m => tagged "method" m.toJson
  | .type t => tagged "type" t.toJson
  | .string text => tagged "string" (.string text)
where
  /-- An object of a kind and a value. -/
  tagged (kind : String) (value : Json) : Json := .record [("kind", .string kind), ("value", value)]

end Operand

namespace Instruction

/-- The instruction as a document. -/
def toJson (i : Instruction) : Json :=
  .record [("offset", .nat i.offset.toNat), ("opcode", .string i.opcode.mnemonic),
    ("operand", i.operand.toJson)]

end Instruction

namespace CallMarker

/-- The marker as a document. -/
def toJson : CallMarker → Json
  | .ignoreCall => .record [("kind", .string "ignore_call")]
  | .storeToSymbol symbol =>
    .record [("kind", .string "store_to_symbol"), ("symbol", .string symbol)]
  | .loadFromSymbol symbol =>
    .record [("kind", .string "load_from_symbol"), ("symbol", .string symbol)]
  | .loadToRegister register =>
    .record [("kind", .string "load_to_register"), ("register", .string register.name)]
  | .replaceWithEntry intrinsic =>
    .record [("kind", .string "replace_with_entry"), ("intrinsic", .string intrinsic.name)]
  | .alwaysInline => .record [("kind", .string "always_inline")]

end CallMarker

namespace Parameter

/-- The parameter as a document. -/
def toJson (p : Parameter) : Json := .record [("name", .string p.name), ("type", p.type.toJson)]

end Parameter

namespace RomData

/-- The ROM data as a document. -/
def toJson (d : RomData) : Json :=
  .record [("element_type", d.elementType.toJson),
    ("bytes", .ofList (fun b => .nat b.toNat) d.bytes)]

end RomData

namespace FieldDecl

/-- The field as a document. -/
def toJson (f : FieldDecl) : Json :=
  .record [("name", .string f.name), ("type", f.type.toJson), ("is_static", .bool f.isStatic),
    ("rom_data", .ofOption RomData.toJson f.romData), ("aliases", .ofList .string f.aliases)]

end FieldDecl

namespace MethodDecl

/-- The method as a document. -/
def toJson (m : MethodDecl) : Json :=
  .record [("name", .string m.name), ("parameters", .ofList Parameter.toJson m.parameters),
    ("return_type", m.returnType.toJson), ("locals", .ofList TypeName.toJson m.locals),
    ("body", .ofList Instruction.toJson m.body), ("marker", .ofOption CallMarker.toJson m.marker)]

end MethodDecl

namespace TypeDecl

/-- The type as a document. -/
def toJson (t : TypeDecl) : Json :=
  .record [("name", t.name.toJson), ("fields", .ofList FieldDecl.toJson t.fields),
    ("methods", .ofList MethodDecl.toJson t.methods),
    ("primitive_size", .ofOption (fun n => .nat n.toNat) t.primitiveSize)]

end TypeDecl

namespace Assembly

/-- The assembly as a document. -/
def toJson (a : Assembly) : Json :=
  .record [("name", .string a.name), ("types", .ofList TypeDecl.toJson a.types),
    ("entry_point", .ofOption Member.toJson a.entryPoint)]

end Assembly

end Cartridge
