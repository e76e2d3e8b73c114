import Straightline.Graph.Basic

/-!
# Storage policies

A policy decides which values of a generated program get a variable of their own instead of being
written into the expression that uses them.
-/

namespace Straightline

/-- Which nodes are stored. -/
structure Policy (α : Type) where
  /-- Whether a node with the given number of uses is stored. -/
  stores : Node α → Nat → Bool
  /-- Whether an operand of an operation kind has to be stored. -/
  demands : Opcode → Nat → Bool

namespace Policy

variable {α : Type}

/-- Store exactly the values that are used more than once. -/
def shared : Policy α where
  stores _ refs := 1 < refs
  demands _ _ := false

/-- Store nothing but the outputs. -/
def inlined : Policy α where
  stores _ _ := false
  demands _ _ := false

/-- Store every value. -/
def everything : Policy α where
  stores _ _ := true
  demands _ _ := true

/-- Store values by use count, by operation kind and by operand position. -/
structure Rule where
  /-- Values with more uses than this are stored. -/
  above : Option Nat := none
  /-- Values of these operation kinds are stored. -/
  kinds : List Opcode := []
  /-- Operands at these positions of these operation kinds are stored. -/
  operands : List (Opcode × Nat) := []

/-- The policy of a rule. -/
def ofRule (rule : Rule) : Policy α where
  stores node refs := rule.above.any (· < refs) || rule.kinds.contains node.operation.opcode
  demands op index := rule.operands.contains (op, index)

end Policy

end Straightline
