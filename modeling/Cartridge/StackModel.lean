import Cartridge.Error
import Cartridge.Vil.Entry

/-!
# The operand stack in the program

The macros need type and size of every slot of the operand stack while the program is assembled.
They find them in two arrays, which the program keeps up to date: after each macro that changes the
stack, `track` adds the assignments of both arrays. Sizes are assigned before types, since a size
may be computed from the types before the macro.

A `StackModel` has a fixed width. In between two macros it holds the placeholders, which stand for
what the arrays hold at that point, so that each macro is annotated on its own (`annotate`).
-/

namespace Cartridge

/-- What is known of a slot of the operand stack. -/
structure Slot where
  type : Expression
  size : Expression
deriving DecidableEq, Repr, Inhabited

namespace Slot

/-- An empty slot. -/
def nothing : Slot := ⟨Label.type .nothing, Label.size .nothing⟩

/-- What the arrays hold at an index. -/
def placeholder (index : Nat) : Slot := ⟨.stackType index, .stackSize index⟩

end Slot

/-- The slots of the operand stack, the top first. -/
structure StackModel where
  slots : List Slot
deriving DecidableEq, Repr, Inhabited

namespace StackModel

/-- The largest width: an index is a byte. -/
def maxWidth : Nat := 255

/-- What the arrays hold. -/
def placeholders (width : Nat) : StackModel := ⟨(List.range width).map Slot.placeholder⟩

/-- A model of a given width that holds the placeholders. -/
def ofWidth (width : Nat) : Except Error StackModel :=
  if width ≤ maxWidth then .ok (placeholders width) else .error .stackDepth

/-- The number of slots. -/
def width (m : StackModel) : Nat := m.slots.length

/-- Puts a slot on top; the bottom one is lost. -/
def push (m : StackModel) (s : Slot) : Except Error StackModel :=
  if m.slots.isEmpty then .error .stackDepth else .ok ⟨s :: m.slots.dropLast⟩

/-- Drops slots from the top; empty ones come in at the bottom. -/
def drop (m : StackModel) : Nat → StackModel
  | 0 => m
  | n + 1 => drop ⟨m.slots.tail ++ [.nothing]⟩ n

/-- Takes slots from the top, of which there must be some. -/
def pop (m : StackModel) (amount : Nat) : Except Error StackModel :=
  if amount ≠ 0 ∧ m.slots.isEmpty then .error .stackDepth else .ok (m.drop amount)

/-- Whether the model differs from what the arrays hold. -/
def isDirty (m : StackModel) : Bool := m ≠ placeholders m.width

/-- The assignments of both arrays. -/
def setters (m : StackModel) : List Entry :=
  [.directive (.arrayLet .sizeOf (m.slots.map (·.size))),
   .directive (.arrayLet .typeOf (m.slots.map (·.type)))]

/-- The assignments that declare an empty stack. -/
def initialization (m : StackModel) : List Entry :=
  if m.slots.isEmpty then [] else setters ⟨m.slots.map fun _ => .nothing⟩

/-- The model after a macro. -/
def apply (m : StackModel) (op : MacroOp) : Except Error StackModel := do
  let popped ← m.pop op.effect.pops
  match op.pushed? with
  | none => pure popped
  | some (type, size) => popped.push ⟨type, size⟩

/-- An entry, and after it the assignments if it changes the stack. -/
def annotate (m : StackModel) (e : Entry) : Except Error (List Entry) :=
  match e.op? with
  | none => .ok [e]
  | some op => do
    let after ← m.apply op
    pure (if after.isDirty then e :: after.setters else [e])

/-- The depth after a macro; an empty stack stays empty. -/
def depthAfter (depth : Nat) (op : MacroOp) : Nat := depth - op.effect.pops + op.effect.pushes

/-- The greatest depth from a given one on. -/
def maxDepthFrom (depth : Nat) : List MacroOp → Nat
  | [] => depth
  | op :: ops => max depth (maxDepthFrom (depthAfter depth op) ops)

/-- The greatest depth that a stream reaches. -/
def maxDepth (es : List Entry) : Nat := maxDepthFrom 0 (es.filterMap (·.op?))

/-- A stream with the assignments of both arrays. -/
def track (es : List Entry) : Except Error (List Entry) := do
  let model ← ofWidth (maxDepth es)
  let annotated ← es.mapM model.annotate
  pure (model.initialization ++ annotated.flatten)

end StackModel

end Cartridge
