import Cartridge.Descent
import Cartridge.Peephole.Optimize
import Cartridge.Selection
import Cartridge.StackModel

/-!
# Compiling a routine

The entries of all instructions are selected, optimized and annotated with the state of the operand
stack. A body that is put in place of a call is a block of its own: its returns become jumps to the
end of the block, and the stack is left to the caller. The entry point starts with the bodies of all
static initializers.
-/

namespace Cartridge.Routine

open Peephole (optimize)

/-! ### Bodies -/

/-- The offsets that the branches of a body lead to. -/
def targets (body : List Instruction) : List UInt32 := body.filterMap (·.branchTarget?)

/-- The definition of the label of an instruction that a branch leads to. -/
def labelAt (targets : List UInt32) (i : Instruction) : List Entry :=
  if i.offset ∈ targets then [.label (.instruction i.offset)] else []

/-- The entries of an instruction, after its label. -/
def selectAt (s : Site) (targets : List UInt32) (i : Instruction) : Except Error Selection := do
  let selected ← s.select i
  pure { selected with entries := labelAt targets i ++ selected.entries }

/-- The entries of a method body. -/
def selectBody (ctx : Context) (inline : Member → Except Error Routine) (m : Member) :
    Except Error Selection := do
  let decl ← ctx.program.findMethod m
  let parts ← decl.body.mapM (selectAt ⟨ctx, m, decl, inline⟩ (targets decl.body))
  pure ⟨parts.flatMap (·.entries), Label.insertAll (parts.flatMap (·.lifted)) []⟩

/-- A body between two comments. -/
def frame (what : String) (body : List Entry) : List Entry :=
  .comment ("Begin " ++ what) :: body ++ [.comment ("End " ++ what), .endFunction]

/-! ### Inlined bodies -/

/-- The label at the end of an inlined body. -/
def inlineEnd (m : Member) : Label := .branchTarget ("INLINE_RET_" ++ mangle m.fullName)

/-- A return becomes a jump. -/
def jumpInstead (stop : Label) : Entry → Entry
  | .invoke ⟨.returnVoid, sources⟩ => .invoke ⟨.branch stop, sources⟩
  | e => e

/-- A body as a block of its own. -/
def wrapInline (m : Member) (body : List Entry) : List Entry :=
  .directive .beginBlock :: body.map (jumpInstead (inlineEnd m)) ++
    [.label (inlineEnd m), .directive .endBlock]

/-- A body to be put in place of a call, given those of its own callees. -/
def inlineBody (ctx : Context) (inline : Member → Except Error Routine) (m : Member) :
    Except Error Routine := do
  let selected ← selectBody ctx inline m
  let body ← optimize ctx m (wrapInline m selected.entries)
  pure ⟨m, frame ("inline call of " ++ m.fullName) body, selected.lifted⟩

/-- A method that would be inlined into itself. -/
def recursive (chain : List Member) (m : Member) : Except Error Routine :=
  .error (.recursiveInline m.fullName (chain.map (·.fullName)))

/-- A body to be put in place of a call inside the bodies on the chain. -/
def inlined (ctx : Context) (chain : List Member) (m : Member) : Except Error Routine :=
  descend ctx.program.callees recursive (fun m => .error (.missingMethod m.fullName))
    (fun _ inline m => inlineBody ctx inline m) chain m

/-- The same, unless the method is on the chain itself. -/
def inlineInto (ctx : Context) (chain : List Member) (m : Member) : Except Error Routine :=
  if m ∈ chain then recursive chain m else inlined ctx chain m

/-! ### Routines -/

/-- A routine from the entries of its body. -/
def finish (ctx : Context) (m : Member) (body : List Entry) (lifted : List Label) :
    Except Error Routine := do
  let optimized ← optimize ctx m body
  let tracked ← StackModel.track optimized
  pure ⟨m, frame m.fullName (.label (.function m) :: tracked), lifted⟩

/-- A routine that is called. -/
def compile (ctx : Context) (m : Member) : Except Error Routine := do
  let selected ← selectBody ctx (inlineInto ctx [m]) m
  finish ctx m selected.entries selected.lifted

/-- The inlined static initializers, in order. -/
def initializers (ctx : Context) (entry : Member) : Except Error (List Routine) :=
  ctx.program.staticInitializers.mapM (inlined ctx [entry])

/-- What the entry point starts with. -/
def prologue (initializers : List Routine) : List Entry :=
  .synthetic .entryPoint ::
    initializers.flatMap fun r => .inlineFunction r.method none :: r.body

/-- The routine at which the program starts. -/
def compileEntryPoint (ctx : Context) (m : Member) : Except Error Routine := do
  let selected ← selectBody ctx (inlineInto ctx [m]) m
  let inits ← initializers ctx m
  finish ctx m (prologue inits ++ selected.entries)
    (Label.insertAll (inits.flatMap (·.lifted)) selected.lifted)

end Cartridge.Routine
