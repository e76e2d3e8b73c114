import Straightline.Render.Listing
import Straightline.Solver.Inversion
import Straightline.Workspace.Basic

/-!
# Generation and elimination

The operations that work on the graph of a handler as a whole: generating a bundle or text for
requested outputs, solving an equation, and eliminating an independent variable.
-/

namespace Straightline

namespace Session

variable {α : Type}

/-- Run a generation pass for the outputs. The graph is held until the bundle is released. -/
def generate (h : HandlerId) (policy : Policy α) (naming : Naming) (outputs : List (Symbol α)) :
    Session α (Bundle α) := do
  let outputs ← outputs.mapM (ownArg h)
  let handler ← writable h
  let (result, g) := handler.graph.generate handler.settings policy outputs
  match result with
  | .error cause =>
    putGraph h handler g
    throw (.fault cause)
  | .ok outputs =>
    putGraph h { handler with held := true } g
    return { graph := g, outputs := outputs, naming := naming }

/-- Let go of the bundle of a handler. -/
def release (h : HandlerId) : Session α Unit := do
  let handler ← live h
  modify fun w => w.put h { handler with held := false }

/-- Generate the text of the outputs in a target language. -/
def generateText (h : HandlerId) (renderer : Renderer α) (naming : Naming)
    (outputs : List (Symbol α)) : Session α String := do
  let bundle ← generate h renderer.policy naming outputs
  release h
  match renderer.render bundle with
  | .ok text => return text
  | .error e => throw e

/-- Run a solver on the graph of a handler. -/
def runSolver (handler : Handler α) (solver : Solver α) (residual : Arg α) (target : NodeId) :
    Session α (Arg α × Graph α) :=
  match solver.solve handler.graph residual target with
  | .ok solved => return solved
  | .error e => throw e

/-- Solve `residual = 0` for a node. -/
def solve (h : HandlerId) (solver : Solver α) (residual target : Symbol α) :
    Session α (Symbol α) := do
  let target ← ownNode h target
  let residual ← ownArg h residual
  let handler ← writable h
  let (solved, g) ← runSolver handler solver residual target
  putGraph h handler g
  return .ofArg h solved

/-- Eliminate an independent variable by `residual = 0`: it becomes a copy of the solved
expression and leaves the roster. -/
def eliminate (h : HandlerId) (solver : Solver α) (independent residual : Symbol α) :
    Session α Unit := do
  let index ← independentIndex h independent
  let target ← ownNode h independent
  let residual ← ownArg h residual
  let handler ← writable h
  let (solved, g) ← runSolver handler solver residual target
  putGraph h handler (g.eliminate index target solved)

end Session

end Straightline
