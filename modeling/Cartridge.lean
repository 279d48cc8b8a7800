import Cartridge.Allocator
import Cartridge.Build.Artifacts
import Cartridge.Build.Basic
import Cartridge.Build.Host
import Cartridge.Build.Workspace
import Cartridge.Bytecode.Assembly
import Cartridge.Bytecode.Framework
import Cartridge.Bytecode.Instruction
import Cartridge.Bytecode.Opcode
import Cartridge.Bytecode.Reader
import Cartridge.Bytecode.Universe
import Cartridge.Bytecode.Writer
import Cartridge.CommandLine.Basic
import Cartridge.CommandLine.Run
import Cartridge.Context
import Cartridge.Date
import Cartridge.Descent
import Cartridge.Error
import Cartridge.FlowGraph
import Cartridge.Json.Basic
import Cartridge.Json.Number
import Cartridge.Json.Parser
import Cartridge.Json.Printer
import Cartridge.Json.Record
import Cartridge.Json.Token
import Cartridge.Layout
import Cartridge.Listing
import Cartridge.Main
import Cartridge.Name
import Cartridge.Options
import Cartridge.Path
import Cartridge.Peephole.EntryList
import Cartridge.Peephole.Optimize
import Cartridge.Peephole.Pass
import Cartridge.Peephole.Place
import Cartridge.Peephole.Rule
import Cartridge.Program
import Cartridge.Proofs.Allocator
import Cartridge.Proofs.Bytecode.MemberNames
import Cartridge.Proofs.Bytecode.RoundTrip
import Cartridge.Proofs.Calls
import Cartridge.Proofs.Checks
import Cartridge.Proofs.Descent
import Cartridge.Proofs.FirstOccurrence
import Cartridge.Proofs.FlowGraph.Blocks
import Cartridge.Proofs.FlowGraph.Linking
import Cartridge.Proofs.FlowGraph.Reachability
import Cartridge.Proofs.Halting
import Cartridge.Proofs.Json.RoundTrip
import Cartridge.Proofs.Layout.Direct
import Cartridge.Proofs.Layout.Sizes
import Cartridge.Proofs.Layout.Table
import Cartridge.Proofs.Machine
import Cartridge.Proofs.MacroTables
import Cartridge.Proofs.Outcome
import Cartridge.Proofs.Peephole.Confluence
import Cartridge.Proofs.Peephole.LinkedNodes
import Cartridge.Proofs.Peephole.Meaning
import Cartridge.Proofs.Peephole.NormalForm
import Cartridge.Proofs.Peephole.Optional
import Cartridge.Proofs.Peephole.Placeholders
import Cartridge.Proofs.Peephole.Rewriting
import Cartridge.Proofs.Peephole.Sources
import Cartridge.Proofs.Peephole.TypedStack
import Cartridge.Proofs.Program.Acceptance
import Cartridge.Proofs.Program.Brackets
import Cartridge.Proofs.Program.Closed
import Cartridge.Proofs.Program.Discovery
import Cartridge.Proofs.Program.Evaluation
import Cartridge.Proofs.Program.Names
import Cartridge.Proofs.Program.Placement
import Cartridge.Proofs.Program.TypedSizes
import Cartridge.Proofs.Ram
import Cartridge.Proofs.Resolution
import Cartridge.Proofs.Resolution.Distinct
import Cartridge.Proofs.Resolution.Memory
import Cartridge.Proofs.Resolution.Numbering
import Cartridge.Proofs.Resolution.Order
import Cartridge.Proofs.Routine.Alike
import Cartridge.Proofs.Routine.Compiled
import Cartridge.Proofs.Routine.Entries
import Cartridge.Proofs.Routine.InlinedRun
import Cartridge.Proofs.Routine.Inlining
import Cartridge.Proofs.Routine.Lifted
import Cartridge.Proofs.Routine.Shape
import Cartridge.Proofs.Routine.Views
import Cartridge.Proofs.Scopes
import Cartridge.Proofs.Selection
import Cartridge.Proofs.Selection.Depth
import Cartridge.Proofs.Selection.Macros
import Cartridge.Proofs.StackArrays
import Cartridge.Proofs.StackReplay
import Cartridge.Proofs.Symbols
import Cartridge.Proofs.Values
import Cartridge.Ram
import Cartridge.Resolution
import Cartridge.Routine.Compile
import Cartridge.Selection
import Cartridge.StackModel
import Cartridge.Text.Blank
import Cartridge.Text.Extending
import Cartridge.Text.Hex
import Cartridge.Text.Printable
import Cartridge.Text.Quoted
import Cartridge.Text.Ranges
import Cartridge.Vil.Entry
import Cartridge.Vil.Expression
import Cartridge.Vil.Label
import Cartridge.Vil.MacroOp
