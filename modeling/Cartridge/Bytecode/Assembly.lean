import Cartridge.Bytecode.Instruction

/-!
# Assemblies

An assembly declares types; a type declares fields and methods in order. A call marker on a method
says how calls of it are compiled.
-/

namespace Cartridge

/-- A register of the processor. -/
inductive Register where
  | a
  | x
  | y
deriving DecidableEq, Repr, Inhabited

namespace Register

/-- The number that stands for the register in a listing. -/
def index : Register → UInt8
  | .a => 0
  | .x => 1
  | .y => 2

/-- The name of the register. -/
def name : Register → String
  | .a => "A"
  | .x => "X"
  | .y => "Y"

/-- Every register. -/
def all : List Register := [.a, .x, .y]

end Register

/-- What the compiler itself can put in the place of a call. -/
inductive Intrinsic where
  /-- A text becomes lines of assembly. -/
  | inlineAssembly
  /-- The number of elements of ROM data. -/
  | romDataLength
  /-- The size of an element of ROM data. -/
  | romDataStride
  /-- The address of an element of ROM data. -/
  | romDataGetter
deriving DecidableEq, Repr, Inhabited

namespace Intrinsic

/-- The name in documents. -/
def name : Intrinsic → String
  | .inlineAssembly => "inline_assembly"
  | .romDataLength => "rom_data_length"
  | .romDataStride => "rom_data_stride"
  | .romDataGetter => "rom_data_getter"

/-- Every intrinsic. -/
def all : List Intrinsic := [.inlineAssembly, .romDataLength, .romDataStride, .romDataGetter]

end Intrinsic

/-- How calls of a method are compiled. -/
inductive CallMarker where
  /-- Calls vanish. -/
  | ignoreCall
  /-- A write to a fixed symbol, a strobe if the method has no parameter. -/
  | storeToSymbol (symbol : String)
  /-- A read from a fixed symbol. -/
  | loadFromSymbol (symbol : String)
  /-- The argument goes to a register. -/
  | loadToRegister (register : Register)
  /-- The compiler puts something of its own in place. -/
  | replaceWithEntry (intrinsic : Intrinsic)
  /-- The body is put in place. -/
  | alwaysInline
deriving DecidableEq, Repr, Inhabited

namespace CallMarker

/-- The name of the marker in messages. -/
def describe : CallMarker → String
  | .ignoreCall => "IgnoreCall"
  | .storeToSymbol _ => "StoreToSymbol"
  | .loadFromSymbol _ => "LoadFromSymbol"
  | .loadToRegister _ => "LoadToRegister"
  | .replaceWithEntry _ => "ReplaceWithEntry"
  | .alwaysInline => "AlwaysInline"

end CallMarker

/-- A parameter of a method. -/
structure Parameter where
  name : String
  type : TypeName
deriving DecidableEq, Repr, Inhabited

/-- Data that stays in ROM. -/
structure RomData where
  elementType : TypeName
  bytes : List UInt8
deriving DecidableEq, Repr, Inhabited

/-- A field of a type. -/
structure FieldDecl where
  name : String
  type : TypeName
  isStatic : Bool := false
  /-- Present if the field names data in ROM and takes no RAM. -/
  romData : Option RomData := none
  /-- Names under which inline assembly knows the field. -/
  aliases : List String := []
deriving DecidableEq, Repr, Inhabited

namespace FieldDecl

/-- A static field that takes RAM. -/
def isRamStatic (f : FieldDecl) : Bool := f.isStatic && f.romData.isNone

end FieldDecl

/-- A method of a type. -/
structure MethodDecl where
  name : String
  parameters : List Parameter := []
  returnType : TypeName := .void
  /-- Types of the local slots. -/
  locals : List TypeName := []
  body : List Instruction := []
  marker : Option CallMarker := none
deriving DecidableEq, Repr, Inhabited

namespace MethodDecl

/-- The number of parameters. -/
def arity (m : MethodDecl) : Nat := m.parameters.length

end MethodDecl

/-- A type with its members in order. -/
structure TypeDecl where
  name : TypeName
  fields : List FieldDecl := []
  methods : List MethodDecl := []
  /-- The size of a built-in type. -/
  primitiveSize : Option UInt16 := none
deriving DecidableEq, Repr, Inhabited

namespace TypeDecl

variable (t : TypeDecl)

/-- The first field of a given name. -/
def field? (name : String) : Option FieldDecl := t.fields.find? fun f => f.name == name

/-- The first method of a given name. -/
def method? (name : String) : Option MethodDecl := t.methods.find? fun m => m.name == name

/-- The fields that a value of the type holds. -/
def instanceFields : List FieldDecl := t.fields.filter fun f => !f.isStatic

/-- The member of the type with a given name. -/
def member (name : String) : Member := ⟨t.name, name⟩

end TypeDecl

/-- A module of a program. -/
structure Assembly where
  name : String
  types : List TypeDecl := []
  entryPoint : Option Member := none
deriving DecidableEq, Repr, Inhabited

end Cartridge
