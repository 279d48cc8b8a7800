import Cartridge.Bytecode.Instruction

/-!
# Labels

A label stands for an address or a number that the assembler knows by name. Labels are plain values:
two of the same kind with the same contents are the same label. `Label.text` is the symbol in the
program. Labels are ordered by kind and then by contents (`Label.place`).
-/

namespace Cartridge

/-- The name as a symbol: every character but ASCII letters, digits and `_` becomes `_`. -/
def mangle (name : String) : String :=
  String.ofList (name.toList.map fun c => if c.isAlphanum || c == '_' then c else '_')

/-- The part of a symbol that names a type. -/
def TypeName.symbol (t : TypeName) : String := mangle t.elementType.text

/-- The part of a symbol that names a member. -/
def Member.symbol (m : Member) : String := m.declaringType.symbol ++ "_" ++ mangle m.name

/-- The width of a pointer. -/
inductive PointerWidth where
  /-- Into the zero page. -/
  | short
  /-- Into ROM. -/
  | long
deriving DecidableEq, Hashable, Repr, Inhabited

namespace PointerWidth

/-- The size in bytes. -/
def bytes : PointerWidth → Nat
  | .short => 1
  | .long => 2

end PointerWidth

/-- A symbolic address or number. -/
inductive Label where
  /-- A position that the compiler made up. -/
  | branchTarget (name : String)
  /-- The position of an instruction. -/
  | instruction (offset : UInt32)
  /-- The start of a routine. -/
  | function (method : Member)
  /-- The memory of a parameter. -/
  | argument (method : Member) (index : UInt16)
  /-- The memory of a local. -/
  | localSlot (method : Member) (index : UInt16)
  /-- The memory of a static field. -/
  | global (field : Member)
  /-- A symbol of the hardware. -/
  | predefined (symbol : String)
  /-- Scratch memory of the macro library. -/
  | reserved (index : Nat)
  /-- The memory of a routine's result. -/
  | returnValue (method : Member)
  /-- The start of the data of a field in ROM. -/
  | romData (field : Member)
  /-- The number of a type. -/
  | type (type : TypeName)
  /-- The number of the pointers to a type. -/
  | pointerType (type : TypeName)
  /-- The size of a type. -/
  | size (type : TypeName)
  /-- The size of a pointer. -/
  | pointerSize (width : PointerWidth)
deriving DecidableEq, Hashable, Repr, Inhabited

namespace Label

/-- The label of the number of a type or pointer type. -/
def typeOf (t : TypeName) : Label := if t.isPointer then .pointerType t.elementType else .type t

/-- The label of the size of a type or pointer type. -/
def sizeOf (t : TypeName) : Label := if t.isPointer then .pointerSize .short else .size t

/-- The routine that a parameter, local or result belongs to. -/
def owner? : Label → Option Member
  | .argument m _ | .localSlot m _ | .returnValue m => some m
  | _ => none

/-- The type whose number or size the label is. -/
def describedType? : Label → Option TypeName
  | .type t | .pointerType t | .size t => some t.elementType
  | _ => none

/-- The routine that the label starts. -/
def routine? : Label → Option Member
  | .function m => some m
  | _ => none

/-- The field whose data in ROM the label starts. -/
def romField? : Label → Option Member
  | .romData f => some f
  | _ => none

/-- The symbol in the program. -/
def text : Label → String
  | .branchTarget name => name
  | .instruction offset => offsetText offset
  | .function m => "FUNCTION_" ++ m.symbol
  | .argument m index => "ARG_" ++ m.symbol ++ "_" ++ toString index.toNat
  | .localSlot m index => "LOCAL_" ++ m.symbol ++ "_" ++ toString index.toNat
  | .global f => "GLOBAL_" ++ f.symbol
  | .predefined symbol => symbol
  | .reserved index => "INTERNAL_RESERVED_" ++ toString index
  | .returnValue m => "RETVAL_" ++ m.symbol
  | .romData f => "ROMDATA_" ++ f.symbol
  | .type t => "TYPE_" ++ t.symbol
  | .pointerType t => "TYPE_" ++ t.symbol ++ "_PTR"
  | .size t => "SIZE_" ++ t.symbol
  | .pointerSize .short => "SIZE_SHORT_POINTER"
  | .pointerSize .long => "SIZE_LONG_POINTER"

/-! ### Order -/

/-- Where a label stands in the order: kind, type or text, member name, number. -/
structure Place where
  kind : Nat
  text : String
  name : String
  number : Nat
deriving DecidableEq, Repr

/-- The place of a label. -/
def place : Label → Place
  | .branchTarget name => ⟨0, name, "", 0⟩
  | .instruction offset => ⟨1, "", "", offset.toNat⟩
  | .function m => ⟨2, m.declaringType.text, m.name, 0⟩
  | .argument m index => ⟨3, m.declaringType.text, m.name, index.toNat⟩
  | .localSlot m index => ⟨4, m.declaringType.text, m.name, index.toNat⟩
  | .global f => ⟨5, f.declaringType.text, f.name, 0⟩
  | .predefined symbol => ⟨6, symbol, "", 0⟩
  | .reserved index => ⟨7, "", "", index⟩
  | .returnValue m => ⟨8, m.declaringType.text, m.name, 0⟩
  | .romData f => ⟨9, f.declaringType.text, f.name, 0⟩
  | .type t => ⟨10, t.text, "", 0⟩
  | .pointerType t => ⟨11, t.text, "", 0⟩
  | .size t => ⟨12, t.text, "", 0⟩
  | .pointerSize .short => ⟨13, "", "", 0⟩
  | .pointerSize .long => ⟨13, "", "", 1⟩

/-- Whether one place comes before another. -/
def Place.before (p q : Place) : Bool :=
  p.kind < q.kind || p.kind == q.kind &&
    (p.text < q.text || p.text == q.text &&
      (p.name < q.name || p.name == q.name && p.number < q.number))

/-- Puts a label into an ordered list without repetitions. -/
def insert (l : Label) : List Label → List Label
  | [] => [l]
  | k :: ls =>
    if l = k then k :: ls
    else if l.place.before k.place then l :: k :: ls
    else k :: insert l ls

/-- Puts labels into an ordered list without repetitions. -/
def insertAll (ls into : List Label) : List Label := ls.foldl (fun acc l => insert l acc) into

end Label

end Cartridge
