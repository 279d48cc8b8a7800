import Cartridge.Error
import Cartridge.Vil.Label

/-!
# Static allocation of RAM

Every label that needs memory gets one fixed address. Addresses are handed out upwards from the
start of RAM; the bytes at the top stay free for the hardware stack.
-/

namespace Cartridge

/-- The bounds of RAM. -/
structure RamBounds where
  /-- The first address. -/
  start : Nat := 0x80
  /-- One past the last address. -/
  stop : Nat := 0x100
  /-- The number of bytes at the top that belong to the stack. -/
  reserve : Nat := 0x10
deriving DecidableEq, Repr, Inhabited

namespace RamBounds

/-- The first address that is not handed out. -/
def limit (b : RamBounds) : Nat := max (b.stop - b.reserve) b.start

/-- The number of bytes that can be handed out. -/
def capacity (b : RamBounds) : Nat := b.limit - b.start

end RamBounds

/-- A label at its address. -/
structure Placement where
  label : Label
  address : Nat
  size : Nat
deriving DecidableEq, Repr, Inhabited

/-- RAM with the labels placed so far. -/
structure Ram where
  bounds : RamBounds
  /-- In the order of allocation. -/
  placements : List Placement
  /-- The next address to hand out. -/
  next : Nat
deriving DecidableEq, Repr, Inhabited

namespace Ram

/-- RAM without placements. -/
def empty (bounds : RamBounds) : Ram := ⟨bounds, [], bounds.start⟩

variable (r : Ram)

/-- The address of a placed label. -/
def addressOf? (l : Label) : Option Nat :=
  (r.placements.find? fun p => p.label == l).map (·.address)

/-- Places a label and gives its address. A label that is placed already keeps its address. -/
def allocate (l : Label) (size : Nat) : Except Error (Nat × Ram) :=
  match r.addressOf? l with
  | some address => .ok (address, r)
  | none =>
    if r.next + size ≤ r.bounds.limit then
      .ok (r.next,
        { r with placements := r.placements ++ [⟨l, r.next, size⟩], next := r.next + size })
    else .error (.ramExhausted l.text size r.next r.bounds.limit)

end Ram

end Cartridge
