import Cartridge.Error
import Cartridge.Vil.Label
import Std.Data.HashMap.Basic

/-!
# Allocation in machine words

`Allocator` hands out RAM in 16-bit words. It keeps a cursor, the list of allocations and an index
from labels to positions in the list. A request reads and writes these one after the other
(`Allocator.allocate`), so that it leaves a state also where it fails. A position without an
allocation or a difference below zero would stop it (`Allocator.Failure`).
-/

namespace Cartridge

/-- The bounds of RAM in machine words. -/
structure WordBounds where
  /-- The first address. -/
  start : UInt16
  /-- One past the last address. -/
  stop : UInt16
  /-- The number of bytes at the top that belong to the stack. -/
  reserve : UInt16
deriving DecidableEq, Repr, Inhabited

/-- A label at its address. -/
structure Allocation where
  label : Label
  address : UInt16
  size : UInt16
deriving DecidableEq, Repr, Inhabited

/-- RAM with its allocations. -/
structure Allocator where
  bounds : WordBounds
  /-- The next address to hand out. -/
  next : UInt16
  /-- In the order of the requests. -/
  allocations : Array Allocation
  /-- The position of every label in the list. -/
  index : Std.HashMap Label Nat

/-- Why a request ends without a result. -/
inductive Allocator.Failure where
  /-- The request cannot be met. -/
  | refused (err : Error)
  /-- There is no allocation at the position. -/
  | outOfRange (position size : Nat)
  /-- A difference of words is below zero. -/
  | underflow
deriving DecidableEq, Repr

/-- A difference of words, or zero where it is below. -/
def saturatingSub (a b : UInt16) : UInt16 := if b ≤ a then a - b else 0

/-- A difference of words. -/
def checkedSub (a b : UInt16) : Except Allocator.Failure UInt16 :=
  if b ≤ a then .ok (a - b) else .error .underflow

namespace WordBounds

/-- The first address that is not handed out. -/
def limit (b : WordBounds) : UInt16 :=
  let top := saturatingSub b.stop b.reserve
  if top ≤ b.start then b.start else top

/-- The number of bytes that can be handed out. -/
def capacity (b : WordBounds) : Except Allocator.Failure UInt16 := checkedSub b.limit b.start

end WordBounds

namespace Allocator

/-- An allocator without allocations. -/
def empty (bounds : WordBounds) : Allocator := ⟨bounds, bounds.start, #[], ∅⟩

/-- A request to an allocator. -/
abbrev Request (α : Type) := ExceptT Failure (StateM Allocator) α

/-- The allocation at a position of the list. -/
def allocationAt (a : Allocator) (position : Nat) : Except Failure Allocation :=
  match a.allocations[position]? with
  | some p => .ok p
  | none => .error (.outOfRange position a.allocations.size)

/-- The address of a label, looked up in the index. -/
def addressOf? (a : Allocator) (l : Label) : Except Failure (Option UInt16) :=
  match a.index[l]? with
  | some position => (a.allocationAt position).map fun p => some p.address
  | none => .ok none

/-- The number of bytes left. -/
def remaining (a : Allocator) : Except Failure UInt16 := checkedSub a.bounds.limit a.next

/-- Places a label at the cursor and gives its address. The end of the allocation is computed in
twice the width, in which it cannot wrap around. -/
def place (l : Label) (size : UInt16) : Request UInt16 := do
  let a ← get
  let stop := a.next.toUInt32 + size.toUInt32
  if a.bounds.limit.toUInt32 < stop then
    throw (.refused (.ramExhausted l.text size.toNat a.next.toNat a.bounds.limit.toNat))
  else
    modify fun a => { a with next := stop.toUInt16 }
    modify fun a => { a with index := a.index.insert l a.allocations.size }
    modify fun a' => { a' with allocations := a'.allocations.push ⟨l, a.next, size⟩ }
    return a.next

/-- The address of a label, which is placed if it is not yet. -/
def allocate (l : Label) (size : UInt16) : Request UInt16 := do
  let a ← get
  match a.index[l]? with
  | some position => return (← a.allocationAt position).address
  | none => place l size

end Allocator

end Cartridge
