import Cartridge.Vil.Entry
import Mathlib.Tactic.Common

/-!
# The machine behind the macros

A machine with one byte per label, an operand stack of bytes, a position in a stream of entries and
a trace of what is read and written. The macros that the peephole rules know have their meaning
here; a composite acts as the macros that it stands for. Every other macro, and inline assembly,
changes the store in some fixed way that is a parameter (`Machine`). Types and sizes are not
interpreted.

`Machine.Run` says that a run from a position ends: at a return, or past the last entry. A macro
that pops from an empty stack, or jumps to a label that is not defined, has no run.
-/

namespace Cartridge

/-- The byte that a literal stands for. -/
def Constant.toByte : Constant → UInt8
  | .byte value => value
  | .number value | .address value => value.toUInt8

theorem Constant.toByte_of_isOne {c : Constant} (h : c.isOne = true) : c.toByte = 1 := by
  cases c with
  | byte value => simpa [isOne, toByte] using h
  | number value =>
    have hv : value = 1 := by simpa [isOne] using h
    subst hv
    rfl
  | address value => cases h

/-- A byte read from a label or written to it. -/
inductive Event where
  | read (label : Label) (value : UInt8)
  | write (label : Label) (value : UInt8)
deriving DecidableEq, Repr

/-- What macros change. -/
structure Store where
  memory : Label → UInt8
  /-- The top comes first. -/
  stack : List UInt8
  /-- The latest event comes last. -/
  trace : List Event

namespace Store

/-- Puts a byte on the stack. -/
def push (s : Store) (v : UInt8) : Store := { s with stack := v :: s.stack }

/-- Takes a byte from the stack. -/
def pop? (s : Store) : Option (UInt8 × Store) :=
  match s.stack with
  | [] => none
  | v :: vs => some (v, { s with stack := vs })

/-- Reads a label. -/
def read (s : Store) (l : Label) : UInt8 × Store :=
  (s.memory l, { s with trace := s.trace ++ [.read l (s.memory l)] })

/-- Writes a label. -/
def write (s : Store) (l : Label) (v : UInt8) : Store :=
  { s with memory := fun k => if k = l then v else s.memory k, trace := s.trace ++ [.write l v] }

/-- Reads a label and puts the byte on the stack. -/
def pushFrom (s : Store) (l : Label) : Store := (s.read l).2.push (s.read l).1

/-- Takes a byte from the stack and writes it to a label. -/
def popTo (s : Store) (l : Label) : Option Store := s.pop?.map fun p => p.2.write l p.1

/-- Replaces the two topmost bytes by their sum. -/
def add (s : Store) : Option Store :=
  s.pop?.bind fun p => p.2.pop?.map fun q => q.2.push (q.1 + p.1)

/-- It does not matter whether a label is read before or after a byte is pushed. -/
theorem add_push_pushFrom (s : Store) (v : UInt8) (l : Label) :
    ((s.push v).pushFrom l).add = ((s.pushFrom l).push v).add := by
  have h : v + s.memory l = s.memory l + v := UInt8.add_comm _ _
  simp only [add, pushFrom, read, push, pop?, Option.bind_some, Option.map_some, h]

end Store

/-- What control does after an entry. -/
inductive Move where
  /-- Goes on with the next entry. -/
  | next (s : Store)
  /-- Goes to the entry that defines a label. -/
  | jump (target : Label) (s : Store)
  /-- Leaves the stream. -/
  | leave (s : Store)

/-- The effect of what is not interpreted; without a value it never comes to an end. -/
structure Machine where
  transform : MacroOp → Store → Option Store
  assembly : List String → Store → Option Store

/-- How a run ends. -/
inductive Ending where
  /-- At a return. -/
  | returned
  /-- Past the last entry. -/
  | ranOff
deriving DecidableEq, Repr

/-- The position of the entry that defines a label. -/
def position? (es : List Entry) (l : Label) : Option Nat :=
  es.findIdx? fun e => e.definedLabel? = some l

namespace Machine

variable (M : Machine)

/-- The effect of a macro. -/
def act : MacroOp → Store → Option Move
  | .pushConstant value _ _, s => some (.next (s.push value.toByte))
  | .pushGlobal l _ _, s => some (.next (s.pushFrom l))
  | .popToGlobal l _ _, s => (s.popTo l).map .next
  | .addFromStack, s => s.add.map .next
  | .assignConstantToGlobal value l _, s => ((s.push value.toByte).popTo l).map .next
  | .copyGlobalToGlobal source _ target _, s => ((s.pushFrom source).popTo target).map .next
  | .addGlobalAndConstant l _ _ value _ _, s => ((s.pushFrom l).push value.toByte).add.map .next
  | .addGlobalAndConstantToGlobal l _ _ value _ _ target _ _, s =>
    (((s.pushFrom l).push value.toByte).add.bind (·.popTo target)).map .next
  | .incrementGlobal l _ _, s => some (.next ((s.read l).2.write l ((s.read l).1 + 1)))
  | .branch target, s => some (.jump target s)
  | .branchTrueFromStack target, s =>
    s.pop?.map fun p => if p.1 ≠ 0 then .jump target p.2 else .next p.2
  | .branchFalseFromStack target, s =>
    s.pop?.map fun p => if p.1 = 0 then .jump target p.2 else .next p.2
  | .branchLessFromStack target, s =>
    s.pop?.bind fun p => p.2.pop?.map fun q => if q.1 < p.1 then .jump target q.2 else .next q.2
  | .returnVoid, s => (M.transform .returnVoid s).map .leave
  | .returnNonVoid result type size, s =>
    (M.transform (.returnNonVoid result type size) s).map .leave
  | op, s => (M.transform op s).map .next

/-- The effect of an entry; labels, directives, comments and marks have none. -/
def perform : Entry → Store → Option Move
  | .invoke call, s => M.act call.op s
  | .inlineAssembly lines, s => (M.assembly lines s).map .next
  | _, s => some (.next s)

/-- A run of a stream from a position and a store ends in a given way with a given store. -/
inductive Run (es : List Entry) : Nat → Store → Ending → Store → Prop where
  | ranOff (s : Store) : Run es es.length s .ranOff s
  | leave {p : Nat} {e : Entry} {s t : Store} (he : es[p]? = some e)
      (hm : M.perform e s = some (.leave t)) : Run es p s .returned t
  | next {p : Nat} {e : Entry} {s s' t : Store} {o : Ending} (he : es[p]? = some e)
      (hm : M.perform e s = some (.next s')) (h : Run es (p + 1) s' o t) : Run es p s o t
  | jump {p q : Nat} {e : Entry} {l : Label} {s s' t : Store} {o : Ending} (he : es[p]? = some e)
      (hm : M.perform e s = some (.jump l s')) (hq : position? es l = some q)
      (h : Run es q s' o t) : Run es p s o t

end Machine

end Cartridge
