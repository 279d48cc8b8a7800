import Cartridge.FlowGraph
import Cartridge.Listing
import Cartridge.Resolution
import Cartridge.Routine.Compile

/-!
# Compiling a program

The entry point is compiled first, then every routine that is called from a compiled one, each once,
in the order of discovery (`Program.discover`). Then all labels are resolved and the text is
written.
-/

namespace Cartridge

/-- The routines that a routine calls, in order of first occurrence. -/
def Routine.callees (r : Routine) : List Member := r.labels.filterMap (·.routine?)

/-- A compiled program. -/
structure Program where
  entryPoint : Routine
  /-- The other routines in the order of discovery. -/
  routines : List Routine
  resolution : Resolution
  entries : List Entry
  text : String
deriving DecidableEq, Repr, Inhabited

namespace Program

/-- The routines that can be reached from a queue, without those done before. It ends because every
step does one more of the methods that the program calls anywhere. -/
def discover (ctx : Context) (done : List Member) : List Member → Except Error (List Routine)
  | [] => .ok []
  | m :: queue =>
    if _h : m ∈ ctx.program.callees ∧ m ∉ done then do
      let r ← Routine.compile ctx m
      let rest ← discover ctx (done ++ [m]) (queue ++ r.callees)
      pure (r :: rest)
    else discover ctx done queue
termination_by queue => (unvisited ctx.program.callees done, queue.length)
decreasing_by
  · exact Prod.Lex.left _ _ (unvisited_append_lt _h.1 _h.2)
  · exact Prod.Lex.right _ (by simp)

/-- Puts routines together; `date` is put into the text if the options ask for it. -/
def link (ctx : Context) (date : String) (entryPoint : Routine) (routines : List Routine) :
    Except Error Program := do
  let all := entryPoint :: routines
  let resolution ← Resolution.ofRoutines ctx.program ctx.options.memory all
  let blocks ← Listing.romBlocks ctx.program all
  let entries := Listing.entries entryPoint routines resolution.assignments blocks
    (if ctx.options.emitTimestamp then some date else none)
  pure { entryPoint, routines, resolution, entries
         text := Listing.render ctx.options.commentary entries }

/-- Compiles a program. -/
def compile (ctx : Context) (date : String) : Except Error Program := do
  let entry ← ctx.program.entryPoint
  let entryPoint ← Routine.compileEntryPoint ctx entry
  let routines ← discover ctx [entry] entryPoint.callees
  link ctx date entryPoint routines

/-- Every routine, the entry point first. -/
def all (p : Program) : List Routine := p.entryPoint :: p.routines

/-- The number of blocks of every routine. -/
def blockCounts (p : Program) : List (Member × Nat) :=
  p.all.map fun r => (r.method, FlowGraph.blockCount r.body)

end Program

end Cartridge
