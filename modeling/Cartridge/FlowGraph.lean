import Cartridge.Vil.Entry
import Std.Data.HashMap.Basic

/-!
# Flow graphs

A stream is cut into blocks. The positions where blocks start are collected first (`leaders`): the
start of the stream, every label, and what comes after a macro after which control may be elsewhere.
Then each block is linked, in stream order, to the block that its last macro may jump to, and to the
next block unless that macro never goes on. A link is entered at both of its ends (`addEdge`). If a
label is defined more than once, the last definition counts.
-/

namespace Cartridge

/-- A block of a stream. -/
structure Block where
  /-- Its number in stream order. -/
  id : Nat
  /-- The position of its first entry. -/
  start : Nat
  /-- The position after its last entry. -/
  stop : Nat
  /-- The label that it starts with. -/
  label : Option Label
  /-- The blocks that control may go to. -/
  successors : List Nat
  /-- The blocks that control may come from, in stream order. -/
  predecessors : List Nat
deriving DecidableEq, Repr, Inhabited

/-- The blocks of a stream, each known by its position. -/
structure FlowGraph where
  blocks : List Block
  /-- The blocks that end in a return. -/
  exits : List Nat
deriving DecidableEq, Repr, Inhabited

namespace FlowGraph

/-! ### Leaders -/

/-- Whether an entry ends its block. -/
def endsBlock (e : Entry) : Bool := e.op?.any (·.endsBlock)

/-- Puts a position into an ascending list of positions, once. -/
def insertPosition (i : Nat) : List Nat → List Nat
  | [] => [i]
  | j :: js => if i < j then i :: j :: js else if i = j then j :: js else j :: insertPosition i js

/-- The position where a block starts on account of an entry. -/
def leader? (length : Nat) (e : Entry) (i : Nat) : Option Nat :=
  match e with
  | .label _ => some i
  | _ => if endsBlock e && i + 1 < length then some (i + 1) else none

/-- The positions where blocks start, in ascending order. -/
def leaders (es : List Entry) : List Nat :=
  let length := es.length
  let found := es.zipIdx.filterMap fun (e, i) => leader? length e i
  found.foldl (fun positions i => insertPosition i positions) [0]

/-! ### Blocks -/

/-- The blocks that start at the given positions, without links. -/
def blocksAt (es : List Entry) (starts : List Nat) : List Block :=
  starts.zipIdx.map fun (start, id) =>
    { id, start
      stop := starts[id + 1]?.getD es.length
      label := es[start]?.bind (·.definedLabel?)
      successors := []
      predecessors := [] }

/-- The block that each label stands for. -/
def targets (blocks : List Block) : Std.HashMap Label Nat :=
  blocks.foldl (fun found b =>
    match b.label with
    | some l => found.insert l b.id
    | none => found) ∅

/-! ### Links -/

/-- Adds a number at the end of a list, once. -/
def addOnce (is : List Nat) (i : Nat) : List Nat := if is.contains i then is else is ++ [i]

/-- Links two blocks, in the tables of both. -/
def addEdge (g : FlowGraph) (i j : Nat) : FlowGraph :=
  let sources := g.blocks.modify i fun b => { b with successors := addOnce b.successors j }
  { g with
    blocks := sources.modify j fun b => { b with predecessors := addOnce b.predecessors i } }

/-- Links a block to the next one. -/
def fallThrough (g : FlowGraph) (i : Nat) : FlowGraph :=
  if i + 1 < g.blocks.length then g.addEdge i (i + 1) else g

/-- The last macro of a block. -/
def lastOp? (body : List Entry) : Option MacroOp := body.reverse.findSome? (·.op?)

/-- Links a block along its last macro. -/
def link (es : List Entry) (targets : Std.HashMap Label Nat) (g : FlowGraph) (i : Nat) :
    FlowGraph :=
  match g.blocks[i]? with
  | none => g
  | some b =>
    match lastOp? ((es.drop b.start).take (b.stop - b.start)) with
    | none => g.fallThrough i
    | some op =>
      if op.isReturn then { g with exits := g.exits ++ [i] }
      else
        let jumps :=
          match op.branchTarget?.bind (targets[·]?) with
          | some target => g.addEdge i target
          | none => g
        if op.isJump then jumps else jumps.fallThrough i

/-- The flow graph of a stream. -/
def ofEntries (es : List Entry) : FlowGraph :=
  if es.isEmpty then ⟨[], []⟩
  else
    let blocks := blocksAt es (leaders es)
    (List.range blocks.length).foldl (link es (targets blocks)) ⟨blocks, []⟩

/-- The number of blocks of a stream. -/
def blockCount (es : List Entry) : Nat := (ofEntries es).blocks.length

/-! ### Reachability -/

/-- What is left of `remaining` without the blocks that control can reach from `pending`. What was
put there last is visited first. -/
def unreached (next : Nat → List Nat) (remaining : List Nat) : List Nat → List Nat
  | [] => remaining
  | i :: pending =>
    if i ∈ remaining then unreached next (remaining.erase i) ((next i).reverse ++ pending)
    else unreached next remaining pending
termination_by pending => (remaining.length, pending.length)
decreasing_by
  · rename_i h
    have := List.length_erase_of_mem h
    have := List.length_pos_of_mem h
    exact Prod.Lex.left _ _ (by omega)
  · exact Prod.Lex.right _ (by simp)

/-- The blocks without a path from the first one. -/
def unreachable (g : FlowGraph) : List Nat :=
  unreached (fun i => (g.blocks[i]?.map (·.successors)).getD []) (List.range g.blocks.length) [0]

end FlowGraph

end Cartridge
