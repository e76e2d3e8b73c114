import Straightline.Machine.Run

/-!
# Batches

Evaluation at many points, given one column of values for each independent variable. One after
another, the points share all buffers. In parallel, the points are cut into pieces, every piece
has cells and a stack of its own, every point has its own outputs, and the rows are put together in
the order of the points. Few points are not worth a task. Without independent variables there is
one point.
-/

namespace Straightline

namespace Program

variable {α : Type} [Scalar α]

/-- The number of points of a list of columns. -/
def pointCount (p : Program α) (columns : List (Array α)) : Except Error Nat :=
  if columns.length ≠ p.inputCount then .error (.inputMismatch p.inputCount columns.length)
  else
    let n := (columns.head?.map Array.size).getD 1
    if columns.any fun c => c.size ≠ n then .error .columnLengthMismatch else .ok n

/-- The input values at a point. -/
def row (columns : List (Array α)) (point : Nat) : List α := columns.filterMap (·[point]?)

/-- Run the program at points in order, every run in the buffers that the one before it left. -/
def runRows (p : Program α) : List (List α) → Buffers α → Except Fault (List (List α))
  | [], _ => .ok []
  | inputs :: rest, b => do
    let b ← p.run b inputs
    let outputs ← outputsOf b
    return outputs :: (← runRows p rest b)

/-- Arrange rows of outputs by output, then by point. -/
def byOutput (p : Program α) (rows : List (List α)) : List (List α) :=
  (List.range p.outputCount).map fun o => rows.filterMap (·[o]?)

/-- Evaluate many points one after another. -/
def evaluateBatch (p : Program α) (columns : List (Array α)) : Except Error (List (List α)) := do
  let n ← p.pointCount columns
  let rows ← (p.runRows ((List.range n).map (row columns)) p.fresh).mapError .fault
  return p.byOutput rows

/-- Cut a list into pieces of the given lengths; what is left over is the last piece. -/
def pieces {β : Type} : List Nat → List β → List (List β)
  | [], xs => [xs]
  | n :: lengths, xs => xs.take n :: pieces lengths (xs.drop n)

/-- Run the program at points in order, every run with unwritten outputs, in the cells and on the
stack that the one before it left. -/
def runPiece (p : Program α) : List (List α) → Buffers α → Except Fault (List (List α))
  | [], _ => .ok []
  | inputs :: rest, b => do
    let b ← p.run { b with outputs := p.fresh.outputs } inputs
    let outputs ← outputsOf b
    return outputs :: (← runPiece p rest b)

/-- The least number of points that are evaluated in parallel. -/
def parallelThreshold : Nat := 256

/-- Evaluate many points in pieces of the given lengths, the pieces in parallel. -/
def evaluateParallel (p : Program α) (lengths : List Nat) (columns : List (Array α)) :
    Except Error (List (List α)) := do
  let n ← p.pointCount columns
  if n < parallelThreshold then p.evaluateBatch columns
  else
    let tasks := (pieces lengths ((List.range n).map (row columns))).map fun rows =>
      Task.spawn fun _ => p.runPiece rows p.fresh
    let rows ← (tasks.mapM Task.get : Except Fault (List (List (List α)))).mapError .fault
    return p.byOutput rows.flatten

end Program

end Straightline
