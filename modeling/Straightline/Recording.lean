import Straightline.Graph.Basic
import Straightline.Scalar

/-!
# Recording expressions

Operations on operands of one graph. A binary operation on two constants is folded, and an operation
with a neutral or absorbing constant is replaced by an operand or a constant, so that a node is
recorded only if one of its operands is a node. A product with zero and a quotient of zero are zero
without a look at the other operand, whatever value it may take later. Zero is recognised with
either sign.
-/

namespace Straightline

/-- How a binary operation is resolved without a node. -/
inductive Shortcut (α : Type) where
  /-- The result is a constant. -/
  | value (v : α)
  /-- The result is the left operand. -/
  | left
  /-- The result is the right operand. -/
  | right
  deriving Repr

/-- The shortcut of a binary operation, given the constants among its operands. -/
def Binary.shortcut? {α : Type} [Scalar α] (op : Binary) (l r : Option α) :
    Option (Shortcut α) :=
  match l, r with
  | some a, some b => some (.value (op.apply a b))
  | _, _ =>
    match op with
    | .add =>
      if l.any Scalar.isZero then some .right
      else if r.any Scalar.isZero then some .left
      else none
    | .sub => if r.any Scalar.isZero then some .left else none
    | .mul =>
      if l.any Scalar.isZero || r.any Scalar.isZero then some (.value Scalar.zero)
      else if l.any Scalar.isOne then some .right
      else if r.any Scalar.isOne then some .left
      else none
    | .div =>
      if l.any Scalar.isZero then some (.value Scalar.zero)
      else if r.any Scalar.isOne then some .left
      else none
    | .pow => none

/-- Computations that extend a graph. -/
abbrev Build (α : Type) := StateM (Graph α)

namespace Build

variable {α : Type} [Scalar α]

/-- Record a node and refer to it. -/
def record (op : Operation (Arg α)) : Build α (Arg α) := fun g =>
  let (id, g) := g.record op
  (.node id, g)

/-- A binary operation on two operands. -/
def binary (op : Binary) (l r : Arg α) : Build α (Arg α) :=
  match op.shortcut? l.const? r.const? with
  | some (.value v) => pure (.const v)
  | some .left => pure l
  | some .right => pure r
  | none => record (.binary op l r)

/-- A unary operation on an operand. -/
def unary (op : Unary) : Arg α → Build α (Arg α)
  | .const v => pure (.const (op.apply v))
  | .node id => record (.unary op (.node id))

end Build

end Straightline
