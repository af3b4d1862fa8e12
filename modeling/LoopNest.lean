import LoopNest.Affine.Basic
import LoopNest.Affine.Lemmas
import LoopNest.Affine.Parser
import LoopNest.Affine.Printer
import LoopNest.Arithmetic
import LoopNest.C.Basic
import LoopNest.C.Benchmark
import LoopNest.C.Kernel
import LoopNest.C.Statement
import LoopNest.C.Unit
import LoopNest.CommandLine.Options
import LoopNest.Cost.Estimate
import LoopNest.Cost.Json
import LoopNest.Dataflow.Check
import LoopNest.Dataflow.Legality
import LoopNest.Decimal.Integer
import LoopNest.Decimal.Layout
import LoopNest.Decimal.Shortest
import LoopNest.Description.Basic
import LoopNest.Description.Catalogue
import LoopNest.Description.Json
import LoopNest.Description.Resolution
import LoopNest.ElementType
import LoopNest.Evaluation.Basic
import LoopNest.Evaluation.KernelCache
import LoopNest.Execution.Inputs
import LoopNest.Execution.Interpreter
import LoopNest.Execution.Reference
import LoopNest.Json.Basic
import LoopNest.Json.Parser
import LoopNest.Json.Printer
import LoopNest.Json.Reader
import LoopNest.Kernel.Basic
import LoopNest.Kernel.Numbering
import LoopNest.Kernel.Walk
import LoopNest.Main
import LoopNest.Nest.Basic
import LoopNest.Nest.Candidates
import LoopNest.Nest.Table
import LoopNest.Outcome
import LoopNest.Program.Basic
import LoopNest.Program.Json
import LoopNest.Program.Printer
import LoopNest.Schedule.Basic
import LoopNest.Schedule.Json
import LoopNest.Schedule.Parser
import LoopNest.Search.Basic
import LoopNest.Search.Method
import LoopNest.Search.Evolution
import LoopNest.Search.Shuffle
import LoopNest.Session
import LoopNest.Settings
import LoopNest.Text.Blank
import LoopNest.Text.LineMark
import LoopNest.Text.Name
import LoopNest.Text.Quoted
import LoopNest.Text.Table
import LoopNest.Transform.Basic
import LoopNest.Transform.Effect
import LoopNest.Transform.Fuse
import LoopNest.Transform.Interchange
import LoopNest.Transform.Split
import LoopNest.Tree.Basic
import LoopNest.Tree.Initial
import LoopNest.Tree.Path
import LoopNest.Tree.Printer
import LoopNest.Word
import LoopNest.Proofs.Kernel.Trace
import LoopNest.Proofs.Dataflow.Flow
import LoopNest.Proofs.Kernel.Meaning
import LoopNest.Proofs.Affine.Scope
import LoopNest.Proofs.Description.WellFormed
import LoopNest.Proofs.Dataflow.Recording
import LoopNest.Proofs.Kernel.Activation
import LoopNest.Proofs.Dataflow.Summary
import LoopNest.Proofs.Dataflow.Conflicts
import LoopNest.Proofs.Dataflow.Check
import LoopNest.Proofs.Dataflow.Agreement
import LoopNest.Proofs.Dataflow.Decision
import LoopNest.Proofs.Dataflow.Legality
import LoopNest.Proofs.Execution.Memory
import LoopNest.Proofs.Execution.Refinement
import LoopNest.Proofs.Kernel.Order
import LoopNest.Proofs.Evaluation.KernelCache
import LoopNest.Proofs.Execution.Concurrency
import LoopNest.Proofs.Text.Name
import LoopNest.Proofs.Tree.Points
import LoopNest.Proofs.Tree.Path
import LoopNest.Proofs.Tree.Lookup
import LoopNest.Proofs.Transform.Split
import LoopNest.Proofs.Transform.Interchange
import LoopNest.Proofs.Transform.Fuse
import LoopNest.Proofs.Kernel.Exact
import LoopNest.Proofs.Kernel.Lowering
import LoopNest.Proofs.Transform.Effect
import LoopNest.Proofs.Dataflow.Refusal
import LoopNest.Proofs.Nest.Derivation
import LoopNest.Proofs.Execution.Indices
import LoopNest.Proofs.Nest.Soundness
import LoopNest.Proofs.Dataflow.Decidable
import LoopNest.Proofs.Kernel.Weight
import LoopNest.Proofs.Kernel.NamedWalk
import LoopNest.Proofs.Kernel.SlotWalk
import LoopNest.Proofs.Transform.Representation
import LoopNest.Proofs.Nest.Neighbors
import LoopNest.Proofs.Search.Asking
import LoopNest.Proofs.Search.Best
import LoopNest.Proofs.Search.Ledger
import LoopNest.Proofs.Search.Methods
import LoopNest.Proofs.Search.Bookkeeping
import LoopNest.Proofs.Search.Coverage
import LoopNest.Proofs.Search.Fuel
import LoopNest.Proofs.Nest.Saved
import LoopNest.Proofs.Nest.Structure
import LoopNest.Proofs.Program.Initial
import LoopNest.Proofs.Dataflow.Initial
import LoopNest.Proofs.C.Assignments
import LoopNest.Proofs.Nest.Derivable
import LoopNest.Proofs.Nest.Faults
import LoopNest.Proofs.Search.Rounds
import LoopNest.Proofs.Search.Termination
import LoopNest.Proofs.Search.Faults
import LoopNest.Proofs.Search.Breadth
import LoopNest.Proofs.Evaluation.SharedCache
import LoopNest.Proofs.Evaluation.Serialization
import LoopNest.Proofs.Session.Calls
import LoopNest.Proofs.Nest.Fusion
import LoopNest.Proofs.Nest.Undo
import LoopNest.Proofs.Nest.StripMining
import LoopNest.Proofs.Affine.Canonical
import LoopNest.Proofs.Affine.Substitution
import LoopNest.Proofs.Nest.Candidates
import LoopNest.Proofs.Search.Costs
import LoopNest.Proofs.Search.Climbing
import LoopNest.Proofs.Affine.Bounds
import LoopNest.Proofs.Cost.Instances
import LoopNest.Proofs.Description.Overflow
import LoopNest.Proofs.Program.Tables
import LoopNest.Proofs.Text.LineMark
import LoopNest.Proofs.Cost.Ranges
import LoopNest.Proofs.Execution.Tensors
import LoopNest.Proofs.Catalogue.Trees
import LoopNest.Proofs.Catalogue.References
import LoopNest.Proofs.Catalogue.Cholesky
import LoopNest.Proofs.C.Timings
