import ClosureIR.BlockBody
import ClosureIR.Data.Counter
import ClosureIR.Data.Dict
import ClosureIR.Edge.Basic
import ClosureIR.Edge.OrderedSet
import ClosureIR.Edge.View
import ClosureIR.Fault
import ClosureIR.Frame
import ClosureIR.Graph.Basic
import ClosureIR.Graph.Build
import ClosureIR.Graph.Stretch
import ClosureIR.Graph.Text
import ClosureIR.Instr.Basic
import ClosureIR.Instr.Substitution
import ClosureIR.Instr.Text
import ClosureIR.Label
import ClosureIR.Object.Heap
import ClosureIR.Object.Value
import ClosureIR.Operand.Basic
import ClosureIR.Operand.Substitution
import ClosureIR.Program.Basic
import ClosureIR.Program.Clone
import ClosureIR.Program.Creation
import ClosureIR.Program.Flow
import ClosureIR.Program.Lexical
import ClosureIR.Program.Locals
import ClosureIR.Program.Names
import ClosureIR.Proofs.Outcome
import ClosureIR.Renaming.Apply
import ClosureIR.Renaming.Basic
import ClosureIR.Renaming.Mention
import ClosureIR.Renaming.Prepare
import ClosureIR.Scope.Basic
import ClosureIR.Scope.LocalTable
import ClosureIR.Scope.Summary
import ClosureIR.ScopeId
import ClosureIR.Text.Json
import ClosureIR.Variable
import ClosureIR.Proofs.Lexical.Step
import ClosureIR.Proofs.Change
import ClosureIR.Proofs.Request
import ClosureIR.Proofs.Arena
import ClosureIR.Proofs.Nesting
import ClosureIR.Proofs.Clone.Copy
import ClosureIR.Proofs.Clone.Traversal
import ClosureIR.Proofs.Clone.Names
import ClosureIR.Proofs.Clone.Growth
import ClosureIR.Proofs.Clone.Tree
import ClosureIR.Proofs.Clone.Shell
import ClosureIR.Proofs.Clone.Run
import ClosureIR.Proofs.Reachable
import ClosureIR.Proofs.Everywhere
import ClosureIR.Proofs.Clone.Result
import ClosureIR.Proofs.Clone.Depth
import ClosureIR.Proofs.Clone.Fuel
import ClosureIR.Proofs.Clone.Success
import ClosureIR.Proofs.Flow.Layout
import ClosureIR.Proofs.Flow.Lookup
import ClosureIR.Proofs.Flow.Edges
import ClosureIR.Proofs.Flow.Positions
import ClosureIR.Proofs.Flow.Paths
import ClosureIR.Proofs.Flow.Shape
import ClosureIR.Proofs.Flow.Stored
import ClosureIR.Proofs.Lexical.Tables
import ClosureIR.Proofs.Lexical.Walk
import ClosureIR.Proofs.Lexical.Resolve
import ClosureIR.Proofs.Lexical.Slots
import ClosureIR.Proofs.Descriptor
import ClosureIR.Proofs.Numbers
import ClosureIR.Proofs.Spelling
import ClosureIR.Proofs.Ledger.Writes
import ClosureIR.Proofs.Ledger.Supplies
import ClosureIR.Proofs.Ledger.Requests
import ClosureIR.Proofs.Ledger.Answers
import ClosureIR.Proofs.Ledger.Names
import ClosureIR.Proofs.Ledger.Defaults
import ClosureIR.Proofs.Lexical.Ends
import ClosureIR.Proofs.Parents
import ClosureIR.Proofs.Soundness
import ClosureIR.Proofs.Clone.Lookup
import ClosureIR.Proofs.Identity
import ClosureIR.Proofs.Frozen
import ClosureIR.Proofs.Lexical.Block
import ClosureIR.Proofs.Parameters
import ClosureIR.Proofs.Naming
import ClosureIR.Proofs.Clone.Naming
import ClosureIR.Proofs.Session
import ClosureIR.Proofs.Lexical.Chain
import ClosureIR.Proofs.Locality
import ClosureIR.Proofs.Clone.Recorded
import ClosureIR.Proofs.Region.Logic
import ClosureIR.Proofs.Region.Order
import ClosureIR.Proofs.Flow.Faithful
import ClosureIR.Proofs.Flow.Rebuild
import ClosureIR.Proofs.Clone.Rebuild
import ClosureIR.Proofs.Flow.Dangling
import ClosureIR.Proofs.Lexical.Views
import ClosureIR.Proofs.Lexical.Distance
import ClosureIR.Proofs.Lexical.Placeholder
import ClosureIR.Proofs.Clone.Ends
import ClosureIR.Proofs.Binding
import ClosureIR.Proofs.Substitution.Operands
import ClosureIR.Proofs.Substitution.Graphs
import ClosureIR.Proofs.Evaluation.Verdict
import ClosureIR.Proofs.Evaluation.Substitution
import ClosureIR.Proofs.Evaluation.Renaming
import ClosureIR.Proofs.Evaluation.Generations
import ClosureIR.Proofs.Flow.Views
