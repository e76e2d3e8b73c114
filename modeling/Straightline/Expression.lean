import Straightline.Error
import Straightline.Bundle

/-!
# Expressions of a bundle

The tree of operations that one stored node or one output stands for. Its leaves are constants and
nodes with a slot; nodes without a slot are expanded in place, however often they are used.
Renderers and the compiler work on these trees.
-/

namespace Straightline

mutual

/-- A tree of operations over stored nodes and constants. -/
inductive Expression (α : Type) where
  /-- The value of a stored node. -/
  | stored (id : NodeId)
  /-- A constant. -/
  | const (value : α)
  /-- The value of another expression. -/
  | copy (x : Expression α)
  /-- A unary operation. -/
  | unary (op : Unary) (x : Expression α)
  /-- A binary operation. -/
  | binary (op : Binary) (l r : Expression α)
  /-- A choice by comparison. -/
  | select (c : Comparison) (l r t f : Expression α)
  /-- A chain of one arithmetic family. -/
  | chain (family : Family) (terms : Terms α)

/-- The terms of a chain, each with its sense. -/
inductive Terms (α : Type) where
  /-- No term. -/
  | nil
  /-- A term before the others. -/
  | cons (sense : Sense) (x : Expression α) (rest : Terms α)

end

namespace Terms

variable {α : Type}

/-- The terms of a list. -/
def ofList : List (Sense × Expression α) → Terms α
  | [] => nil
  | (sense, x) :: rest => cons sense x (ofList rest)

/-- The senses of the terms. -/
def senses : Terms α → List Sense
  | nil => []
  | cons sense _ rest => sense :: rest.senses

end Terms

namespace Expression

variable {α : Type}

/-- The expression of an operation, from the expressions of its operands. -/
def ofOperation (operand : Arg α → Except Error (Expression α)) :
    Operation (Arg α) → Except Error (Expression α)
  | .independent => .error (.notEvaluated .independent)
  | .copy x => do return .copy (← operand x)
  | .unary op x => do return .unary op (← operand x)
  | .binary op l r => do return .binary op (← operand l) (← operand r)
  | .select c l r t f => do
    return .select c (← operand l) (← operand r) (← operand t) (← operand f)
  | .chain family terms => do
    let terms ← terms.mapM fun (sense, x) => do return (sense, ← operand x)
    return .chain family (.ofList terms)

end Expression

namespace Graph

variable {α : Type}

/-- The expression of an operand, expanded to at most the given depth. -/
def expand (g : Graph α) : Nat → Arg α → Except Error (Expression α)
  | _, .const v => .ok (.const v)
  | 0, .node _ => .error (.fault .expansionDepth)
  | depth + 1, .node id =>
    if g.slot id ≠ 0 then .ok (.stored id)
    else
      match g.operation? id with
      | none => .error .foreignNode
      | some op => Expression.ofOperation (g.expand depth) op

/-- The expression that computes a node itself. -/
def expandNode (g : Graph α) (id : NodeId) : Except Error (Expression α) :=
  match g.operation? id with
  | none => .error .foreignNode
  | some op => Expression.ofOperation (g.expand (g.next + 1)) op

end Graph

namespace Bundle

variable {α : Type}

/-- The stored nodes in evaluation order, with the expressions that compute them. -/
def assignments (b : Bundle α) : Except Error (List (NodeId × Expression α)) :=
  b.graph.order.mapM fun id => do return (id, ← b.graph.expandNode id)

/-- The expressions of the outputs. -/
def results (b : Bundle α) : Except Error (List (Expression α)) :=
  b.outputs.mapM (b.graph.expand (b.graph.next + 1))

end Bundle

end Straightline
