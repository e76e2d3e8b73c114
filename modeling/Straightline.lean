import Straightline.Bundle
import Straightline.DaeVariable
import Straightline.Error
import Straightline.Expression
import Straightline.Generation.Basic
import Straightline.Generation.Flattening
import Straightline.Generation.Schedule
import Straightline.Generation.SlotReuse
import Straightline.Graph.Basic
import Straightline.Graph.Traversal
import Straightline.Graph.Value
import Straightline.Machine.Batch
import Straightline.Machine.Compile
import Straightline.Machine.Program
import Straightline.Machine.Run
import Straightline.Numeral.Basic
import Straightline.Numeral.Decimal
import Straightline.Numeral.Layout
import Straightline.Numeral.Shortest
import Straightline.Operation
import Straightline.Policy
import Straightline.Recording
import Straightline.Render.C
import Straightline.Render.Listing
import Straightline.Scalar
import Straightline.Solver.Inversion
import Straightline.Table
import Straightline.Workspace.Basic
import Straightline.Workspace.Generation
import Straightline.Workspace.Recording
import Straightline.Proofs.Graph.Dependency
import Straightline.Proofs.Graph.Valuation
import Straightline.Proofs.Generation.Issue
import Straightline.Proofs.Generation.References
import Straightline.Proofs.Generation.Visit
import Straightline.Proofs.Generation.Order
import Straightline.Proofs.Graph.WellFormed
import Straightline.Proofs.Generation.Scheduled
import Straightline.Proofs.Generation.SlotPlan
import Straightline.Proofs.Generation.SlotReuse
import Straightline.Proofs.Machine.Code
import Straightline.Proofs.Machine.Expansion
import Straightline.Proofs.Machine.Evaluation
import Straightline.Proofs.Generation.Chains
import Straightline.Proofs.Generation.Flattening
import Straightline.Proofs.Generation.FlattenRun
import Straightline.Proofs.Generation.Shape
import Straightline.Proofs.Generation.Flattened
import Straightline.Proofs.Graph.Evolution
import Straightline.Proofs.Graph.Paths
import Straightline.Proofs.Solver.Building
import Straightline.Proofs.Solver.Counting
import Straightline.Proofs.Solver.Inversion
import Straightline.Proofs.Solver.Answers
import Straightline.Proofs.Solver.Required
import Straightline.Proofs.Solver.Solutions
import Straightline.Proofs.Generation.Correctness
import Straightline.Proofs.Workspace.Session
import Straightline.Proofs.Workspace.Reachable
import Straightline.Proofs.Workspace.Programs
import Straightline.Proofs.Graph.Growth
import Straightline.Proofs.Solver.Elimination
import Straightline.Proofs.Workspace.Growth
import Straightline.Proofs.Workspace.Elimination
import Straightline.Proofs.Generation.Validity
import Straightline.Proofs.Generation.LastUses
import Straightline.Proofs.Workspace.Schedules
import Straightline.Proofs.Generation.Congruence
import Straightline.Proofs.Generation.Renaming
import Straightline.Proofs.Generation.Regeneration
import Straightline.Proofs.Workspace.History
import Straightline.Proofs.Workspace.Failure
import Straightline.Proofs.Recording.Shortcut
import Straightline.Proofs.Workspace.Recording
import Straightline.Proofs.Generation.Partition
import Straightline.Proofs.Generation.Names
import Straightline.Proofs.Workspace.Partition
import Straightline.Proofs.Render.Reading
import Straightline.Proofs.Render.Execution
import Straightline.Proofs.Generation.Storage
import Straightline.Proofs.Render.Tokens
import Straightline.Proofs.Render.Grammar
import Straightline.Proofs.Render.Denotation
import Straightline.Proofs.Render.Parsing
import Straightline.Proofs.Render.Legibility
import Straightline.Proofs.Render.Statements
import Straightline.Proofs.Workspace.Rendering
import Straightline.Proofs.Render.Literals
import Straightline.Proofs.Workspace.Parsing
import Straightline.Proofs.Render.Types
import Straightline.Proofs.Workspace.Division
import Straightline.Proofs.Generation.SlotChoice
import Straightline.Proofs.Generation.SlotCount
import Straightline.Proofs.Generation.ReferenceCount
import Straightline.Proofs.Generation.Recursion
import Straightline.Proofs.Render.Decrement
import Straightline.Proofs.Workspace.Decrement
import Straightline.Proofs.Generation.NormalForm
import Straightline.Proofs.Generation.Frame
import Straightline.Proofs.Workspace.References
import Straightline.Proofs.Workspace.Flattening
import Straightline.Proofs.Machine.Safety
import Straightline.Proofs.Machine.Batch
import Straightline.Proofs.Workspace.Machine
import Straightline.Proofs.Generation.Demands
import Straightline.Proofs.Render.Ternaries
import Straightline.Proofs.Workspace.Ternaries
import Straightline.Proofs.Generation.Succession
import Straightline.Proofs.Workspace.Counterparts
