import Cartridge.Bytecode.Universe
import Cartridge.Descent
import Cartridge.Vil.Label

/-!
# Layout of types

A built-in type has a fixed size. Any other type consists of its instance fields one after the
other, without gaps: a field's offset is the sum of the sizes before it, and the size of the type is
the sum of all of them. A pointer in RAM is short. `LayoutTable` remembers the layouts that it has
computed, so that a type that occurs in many places is laid out once; `layoutOf` and `sizeOf` start
with an empty table. `Layout.direct` remembers nothing.
-/

namespace Cartridge

/-- A field at its place in a value. -/
structure FieldLayout where
  name : String
  type : TypeName
  offset : Nat
  size : Nat
deriving DecidableEq, Repr, Inhabited

/-- A type with its instance fields in place. -/
structure TypeLayout where
  type : TypeName
  fields : List FieldLayout
  size : Nat
deriving DecidableEq, Repr, Inhabited

namespace TypeLayout

/-- The first field of a given name. -/
def field? (l : TypeLayout) (name : String) : Option FieldLayout :=
  l.fields.find? fun f => f.name == name

end TypeLayout

namespace Layout

/-- The size of a pointer in RAM. -/
def pointerSize : Nat := PointerWidth.short.bytes

/-- The largest size that a type may have. -/
def maxSize : Nat := 0xFFFF

variable {m : Type → Type} [Monad m] [MonadExceptOf Error m]

/-- Places fields from `offset` on, and gives the end of the last one. -/
def placeFields (owner : TypeName) (sizeOf : TypeName → m Nat) (offset : Nat) :
    List FieldDecl → m (List FieldLayout × Nat)
  | [] => pure ([], offset)
  | f :: fs => do
    let size ← sizeOf f.type
    if offset + size ≤ maxSize then
      let rest ← placeFields owner sizeOf (offset + size) fs
      pure (⟨f.name, f.type, offset, size⟩ :: rest.1, rest.2)
    else throw (.layoutTooLarge owner.text)

/-- The size of a field, given the layout of types that are no pointers. -/
def fieldSize (layoutOf : TypeName → m TypeLayout) (t : TypeName) : m Nat :=
  if t.isPointer then pure pointerSize else do return (← layoutOf t).size

/-- The layout of a type, given those of the types of its fields. -/
def build (u : Universe) (layoutOf : TypeName → m TypeLayout) (t : TypeName) : m TypeLayout :=
  match u.findType t with
  | .error e => throw e
  | .ok decl =>
    match decl.primitiveSize with
    | some size => pure ⟨t, [], size.toNat⟩
    | none => do
      let placed ← placeFields t (fieldSize layoutOf) 0 decl.instanceFields
      pure ⟨t, placed.1, placed.2⟩

/-- The layout of a type while the layouts of the types on the chain are being computed. What is
remembered of the types of its fields comes before the chain. -/
def descent (u : Universe) (remember : TypeName → m TypeLayout → m TypeLayout)
    (chain : List TypeName) (t : TypeName) : m TypeLayout :=
  descend (u.types.map (·.name)) (fun _ t => throw (.recursiveLayout t.text))
    (fun t => throw (.missingType t.text))
    (fun _ layoutOf t => build u (fun s => remember s (layoutOf s)) t) chain t

/-- The layout of a type, computed without remembering any other. -/
def direct (u : Universe) (t : TypeName) : Except Error TypeLayout := descent u (fun _ l => l) [] t

end Layout

/-- Layouts that have been computed. -/
structure LayoutTable where
  known : List (TypeName × TypeLayout) := []
deriving DecidableEq, Repr, Inhabited

namespace LayoutTable

/-- A query that may add to the table, also if it fails. -/
abbrev Query (α : Type) := ExceptT Error (StateM LayoutTable) α

/-- Looks a layout up, or computes it and puts it into the table. -/
def remember (t : TypeName) (compute : Query TypeLayout) : Query TypeLayout := do
  match (← get).known.lookup t with
  | some layout => pure layout
  | none =>
    let layout ← compute
    modify fun table => ⟨(t, layout) :: table.known⟩
    pure layout

/-- The layout of a type. -/
def layoutOf (u : Universe) (t : TypeName) : Query TypeLayout :=
  remember t (Layout.descent u remember [] t)

/-- The size of a value of a type. -/
def sizeOf (u : Universe) (t : TypeName) : Query Nat := Layout.fieldSize (layoutOf u) t

/-- The answer to a single query. -/
def ask (query : Query α) : Except Error α := (query.run.run {}).1

end LayoutTable

/-- The layout of a type. A pointer type has the fields of the type that it points to. -/
def layoutOf (u : Universe) (t : TypeName) : Except Error TypeLayout :=
  LayoutTable.ask (LayoutTable.layoutOf u t)

/-- The size of a value of a type. -/
def sizeOf (u : Universe) (t : TypeName) : Except Error Nat :=
  LayoutTable.ask (LayoutTable.sizeOf u t)

end Cartridge
