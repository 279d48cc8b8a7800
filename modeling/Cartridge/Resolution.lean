import Cartridge.Layout
import Cartridge.Ram
import Cartridge.Vil.Entry

/-!
# Resolving labels

Every label that is not a position in the program gets a value. RAM is handed out in a fixed order:
scratch memory, static fields, then parameters, locals and results routine by routine. Types are
numbered in order of first use; the number of a pointer type is the odd number after that of its
element type.
-/

namespace Cartridge

/-- The values of labels. -/
structure Resolution where
  /-- The assignments in order. -/
  assignments : List Entry
  ram : Ram
deriving DecidableEq, Repr, Inhabited

namespace Resolution

/-- The assignment of a label. -/
def assign (l : Label) (value : Constant) : Entry := .directive (.labelAssign l value)

/-- The assignment of a number. -/
def assignNumber (l : Label) (value : Nat) : Entry := assign l (.number (UInt16.ofNat value))

/-- Every label that the routines refer to, lifted locals included, in order of first occurrence. -/
def referenced (routines : List Routine) : List Label :=
  (routines.flatMap fun r => r.labels ++ r.lifted).eraseDups

/-! ### Memory -/

/-- Gives memory to a label. -/
def place (r : Resolution) (l : Label) (size : Nat) : Except Error Resolution := do
  let (address, ram) ← r.ram.allocate l size
  pure ⟨r.assignments ++ [assign l (.address (UInt16.ofNat address))], ram⟩

/-- Gives memory to a label for a value of a type. -/
def placeValue (u : Universe) (r : Resolution) (l : Label) (type : TypeName) :
    Except Error Resolution := do
  r.place l (← sizeOf u type)

/-- Gives memory to labels in turn. -/
def placeAll (u : Universe) (r : Resolution) (slots : List (Label × TypeName)) :
    Except Error Resolution :=
  slots.foldlM (fun r slot => r.placeValue u slot.1 slot.2) r

/-- The scratch memory of the macro library. -/
def scratch : List Label := [.reserved 0, .reserved 1]

/-- Whether a field of a type needs memory of its own. -/
def needsMemory (referenced : List Label) (t : TypeDecl) (f : FieldDecl) : Bool :=
  f.isRamStatic && (!f.aliases.isEmpty || referenced.contains (.global (t.member f.name)))

/-- The static fields of a type that need memory, by name. -/
def statics (referenced : List Label) (t : TypeDecl) : List FieldDecl :=
  (t.fields.filter (needsMemory referenced t)).mergeSort fun a b => decide (a.name ≤ b.name)

/-- The static fields that need memory, type by type. -/
def globals (u : Universe) (referenced : List Label) : List (Label × TypeName) :=
  u.types.flatMap fun t =>
    (statics referenced t).map fun f => (.global (t.member f.name), f.type)

/-- The methods whose slots may need memory: the routines first, then those that are inlined. -/
def owners (routines : List Routine) (referenced : List Label) : List Member :=
  (routines.map (·.method) ++ referenced.filterMap (·.owner?)).eraseDups

/-- The slots of a method: parameters, locals, result. -/
def slots (m : Member) (decl : MethodDecl) : List (Label × TypeName) :=
  (decl.parameters.zipIdx.map fun (p, i) => (.argument m (UInt16.ofNat i), p.type)) ++
  (decl.locals.zipIdx.map fun (t, i) => (.localSlot m (UInt16.ofNat i), t)) ++
  [(.returnValue m, decl.returnType)]

/-- Gives memory to those slots of a method that are referred to. -/
def placeSlots (u : Universe) (referenced : List Label) (r : Resolution) (m : Member) :
    Except Error Resolution := do
  let decl ← u.findMethod m
  r.placeAll u ((slots m decl).filter fun slot => referenced.contains slot.1)

/-! ### Aliases -/

/-- What every alias begins with. -/
def aliasMark : String := "ALIAS_"

/-- Every alias with its field, in order of declaration. -/
def aliases (u : Universe) : List (String × Member × FieldDecl) :=
  u.types.flatMap fun t => t.fields.flatMap fun f =>
    f.aliases.map fun name => (name, t.member f.name, f)

/-- The assignments of aliases, where `taken` holds those before. -/
def assignAliases (taken : List (String × Member)) :
    List (String × Member × FieldDecl) → Except Error (List Entry)
  | [] => .ok []
  | (name, field, decl) :: rest =>
    if !decl.isRamStatic then
      .error (.invalidAlias name (field.fullName ++ " is not a static RAM field"))
    else if !aliasMark.toList.isPrefixOf name.toList then
      .error (.invalidAlias name ("aliases must begin with " ++ aliasMark))
    else match taken.lookup name with
      | some other =>
        .error (.invalidAlias name
          ("already aliases " ++ other.fullName ++ ", can't alias " ++ field.fullName ++ " too"))
      | none => do
        let entries ← assignAliases ((name, field) :: taken) rest
        pure (.directive (.aliasAssign name (.global field)) :: entries)

/-! ### Types -/

/-- The number of the first type. -/
def firstTypeId : Nat := 100

/-- The types to be numbered: the built-in ones first. -/
def numbered (referenced : List Label) : List TypeName :=
  ([TypeName.byte, .boolean, .nothing] ++ referenced.filterMap (·.describedType?)).eraseDups

/-- The assignments of a type with a given position. -/
def assignType (u : Universe) (t : TypeName) (n : Nat) : Except Error (List Entry) := do
  let id := firstTypeId + 2 * n
  let size ← sizeOf u t
  pure [assignNumber (.type t) id, assignNumber (.pointerType t) (id + 1),
    assignNumber (.size t) size]

/-- The assignments of all types and of the sizes of pointers. -/
def assignTypes (u : Universe) (referenced : List Label) : Except Error (List Entry) := do
  let entries ← (numbered referenced).zipIdx.mapM fun (t, n) => assignType u t n
  pure (entries.flatten ++ [PointerWidth.short, .long].map fun w =>
    assignNumber (.pointerSize w) w.bytes)

/-! ### All labels -/

/-- Resolves every label of the routines, the entry point first. -/
def ofRoutines (u : Universe) (bounds : RamBounds) (routines : List Routine) :
    Except Error Resolution := do
  let refs := referenced routines
  let r ← scratch.foldlM (fun r l => r.place l 1) (⟨[], .empty bounds⟩ : Resolution)
  let r ← r.placeAll u (globals u refs)
  let r ← (owners routines refs).foldlM (placeSlots u refs) r
  let aliasEntries ← assignAliases [] (aliases u)
  let typeEntries ← assignTypes u refs
  pure { r with assignments := r.assignments ++ aliasEntries ++ typeEntries }

end Resolution

end Cartridge
