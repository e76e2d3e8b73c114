import Straightline.Error
import Straightline.Graph.Traversal
import Straightline.Recording

/-!
# Solvers

A solver isolates a node: given a residual that is assumed to be zero, it builds an expression
equal to the node. It extends the graph only if it succeeds.

Equations are solved by inversion: if exactly one path leads from the residual to the target and
every operation on it has an inverse, the target is found by undoing these operations one after
another, starting from zero. Nothing is recorded before the whole path is known to be invertible.
-/

namespace Straightline

/-- Solve `residual = 0` for a node of a graph. -/
structure Solver (α : Type) where
  /-- The solved operand and the extended graph. -/
  solve : Graph α → (residual : Arg α) → (target : NodeId) → Except Error (Arg α × Graph α)

namespace Solver

variable {α : Type}

/-- Solve with the flattened counterpart of the residual, where it has one. -/
def onFlattened (solver : Solver α) : Solver α where
  solve g residual target :=
    let flattened := residual.node?.bind g.counterpart?
    solver.solve g ((flattened.map Arg.node).getD residual) target

/-- Always answer with a constant. -/
def constant (v : α) : Solver α where
  solve g _ _ := .ok (.const v, g)

/-- Always fail. -/
def failing (cause : SolveError) : Solver α where
  solve _ _ _ := .error (.solve cause)

end Solver

/-- Kinds of operations that can be undone. -/
def Opcode.isInvertible : Opcode → Bool
  | .copy => true
  | .unary .neg => true
  | .unary (.call .exp) => true
  | .unary (.call .log) => true
  | .unary (.call .sqrt) => true
  | .binary (.arith _) => true
  | .chain _ => true
  | _ => false

namespace Inversion

variable {α : Type}

/-- The dependencies of a node on the way to the target. -/
def dependencies (g : Graph α) (target id : NodeId) : List NodeId :=
  if id = target then [] else g.references id

/-- How many paths lead to the target from some nodes together. -/
def pathsFrom (counts : Table Nat) (ids : List NodeId) : Nat :=
  ids.foldr (fun id n => counts.get id + n) 0

/-- The number of paths from a node to the target, as far as two. -/
def addCount (g : Graph α) (target : NodeId) (counts : Table Nat) (id : NodeId) : Table Nat :=
  if id = target then counts.set id 1
  else counts.set id (min 2 (pathsFrom counts (g.references id)))

/-- The numbers of paths to the target, from nodes in dependency order. -/
def pathCounts (g : Graph α) (target : NodeId) (nodes : List NodeId) : Table Nat :=
  nodes.foldl (addCount g target) ∅

/-- The first operand from which the target can be reached. -/
def onPath? (counts : Table Nat) (op : Operation (Arg α)) : Option (Nat × NodeId) :=
  op.operands.zipIdx.findSome? fun (arg, index) =>
    match arg with
    | .const _ => none
    | .node id => if 0 < counts.get id then some (index, id) else none

/-- The operations on the way to the target, each with the operand position that leads on. -/
def descend (g : Graph α) (counts : Table Nat) (target : NodeId) :
    Nat → NodeId → Except SolveError (List (Operation (Arg α) × Nat))
  | 0, _ => .error .notPresent
  | depth + 1, id =>
    if id = target then .ok []
    else
      match g.operation? id with
      | none => .error .notPresent
      | some op =>
        if !op.opcode.isInvertible then .error (.unsolvable op.opcode)
        else
          match onPath? counts op with
          | none => .error .notPresent
          | some (index, child) => do
            return (op, index) :: (← descend g counts target depth child)

/-- The single path from a root to the target. -/
def path (g : Graph α) (root target : NodeId) :
    Except Error (List (Operation (Arg α) × Nat)) :=
  let nodes := dependencyOrder (dependencies g target) (g.next + 1) [root]
  if nodes.any fun id => !g.contains id then .error (.fault .releasedNode)
  else
    let counts := pathCounts g target nodes
    match counts.get root with
    | 0 => .error (.solve .notPresent)
    | 1 => (descend g counts target (g.next + 1) root).mapError .solve
    | _ => .error (.solve .multipleOccurrences)

variable [Scalar α]

/-- Append a term to an unfinished combination. -/
def addTerm (family : Family) (acc : Option (Arg α)) (term : Sense × Arg α) :
    Build α (Option (Arg α)) :=
  match acc, family, term with
  | some acc, _, (sense, x) => do return some (← Build.binary (.arith ⟨family, sense⟩) acc x)
  | none, _, (.direct, x) => pure (some x)
  | none, .additive, (.inverse, x) => do return some (← Build.unary .neg x)
  | none, .multiplicative, (.inverse, x) => do
    return some (← Build.binary .div (.const Scalar.one) x)

/-- The combination of all terms of a chain but one. -/
def remainder (family : Family) (terms : List (Sense × Arg α)) (skip : Nat) :
    Build α (Arg α) := do
  let acc ← (terms.eraseIdx skip).foldlM (addTerm family) none
  return acc.getD (.const family.neutral)

/-- The value that an operand must have for an operation to have a given value. -/
def undo (op : Operation (Arg α)) (index : Nat) (value : Arg α) : Build α (Arg α) :=
  match op with
  | .binary (.arith ⟨family, .direct⟩) l r =>
    Build.binary (.arith ⟨family, .inverse⟩) value (if index = 0 then r else l)
  | .binary (.arith ⟨family, .inverse⟩) l r =>
    if index = 0 then Build.binary (.arith ⟨family, .direct⟩) value r
    else Build.binary (.arith ⟨family, .inverse⟩) l value
  | .unary .neg _ => Build.unary .neg value
  | .unary (.call .exp) _ => Build.unary (.call .log) value
  | .unary (.call .log) _ => Build.unary (.call .exp) value
  | .unary (.call .sqrt) _ => Build.binary .mul value value
  | .chain family terms => do
    let rest ← remainder family terms index
    match (terms[index]?).map Prod.fst with
    | some .inverse => Build.binary (.arith ⟨family, .inverse⟩) rest value
    | _ => Build.binary (.arith ⟨family, .inverse⟩) value rest
  | _ => pure value

/-- Undo the operations of a path in turn. -/
def undoAll (path : List (Operation (Arg α) × Nat)) (value : Arg α) : Build α (Arg α) :=
  path.foldlM (fun value s => undo s.1 s.2 value) value

end Inversion

/-- The solver that inverts the operations on the single path to the target. -/
def Solver.inversion {α : Type} [Scalar α] : Solver α where
  solve g residual target :=
    match residual with
    | .const _ => .error (.solve .notPresent)
    | .node root => do
      let path ← Inversion.path g root target
      return (Inversion.undoAll path (.const Scalar.zero)).run g

end Straightline
