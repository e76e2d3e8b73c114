import Straightline.Expression
import Straightline.Numeral.Basic
import Straightline.Policy

/-!
# Renderers

A renderer turns a bundle into text. It brings the storage policy that its statements need.

The plainest renderer stores every value and lists the evaluation order: one line for each stored
node, with the kind of its operation and its operands. Operands that are not stored have no name and
are written as `_`.
-/

namespace Straightline

/-- A target language. -/
structure Renderer (α : Type) where
  /-- Which values the language stores. -/
  policy : Policy α
  /-- The text of a bundle. -/
  render : Bundle α → Except Error String

/-- Refuse a text of more than the given number of bytes. -/
def Renderer.limited {α : Type} (r : Renderer α) (limit : Nat) : Renderer α :=
  { r with
    render := fun b => do
      let text ← r.render b
      if limit < text.utf8ByteSize then .error .format else .ok text }

namespace Listing

variable {α : Type} [Numeral α]

/-- The text of an operand. -/
def operand (b : Bundle α) : Arg α → String
  | .const v => Numeral.text v
  | .node id => (b.variableName? id).getD "_"

/-- The line of a stored node. -/
def line (b : Bundle α) (id : NodeId) : Except Error String :=
  match b.variableName? id, b.graph.operation? id with
  | some name, some op =>
    .ok (name ++ " = " ++ op.opcode.name ++
      String.join (op.operands.map fun arg => " " ++ operand b arg) ++ "\n")
  | _, _ => .error .unnamedStatement

/-- The listing of a bundle. -/
def render (b : Bundle α) : Except Error String := do
  return String.join (← b.graph.order.mapM (line b))

/-- Listings as a target language that stores every value. -/
def renderer : Renderer α := ⟨.everything, render⟩

end Listing

end Straightline
