import Straightline.Scalar

/-!
# Machine programs

A small stack machine with numbered cells. The code of an expression leaves its value on the
stack; a value is then stored in a cell or written to an output. The operators of chains are kept
in one table that chain instructions point into.
-/

namespace Straightline

/-- One instruction of the machine. -/
inductive Instruction (α : Type) where
  /-- Push a constant. -/
  | loadConst (value : α)
  /-- Push the content of a cell. -/
  | loadSlot (slot : Nat)
  /-- Replace the top of the stack. -/
  | unary (op : Unary)
  /-- Pop the right and the left operand, push the result. -/
  | binary (op : Binary)
  /-- Pop the two choices and the two compared values, push the chosen one. -/
  | select (c : Comparison)
  /-- Pop `len` values and combine them with the tags from `start` on. -/
  | chain (start len : Nat)
  /-- Pop into a cell. -/
  | store (slot : Nat)
  /-- Pop into an output. -/
  | output (index : Nat)
  deriving DecidableEq, Repr

namespace Instruction

variable {α : Type}

/-- How many values an instruction takes from the stack. -/
def pops : Instruction α → Nat
  | loadConst _ | loadSlot _ => 0
  | unary _ | store _ | output _ => 1
  | binary _ => 2
  | select _ => 4
  | chain _ len => len

/-- How many values an instruction leaves on the stack. -/
def pushes : Instruction α → Nat
  | store _ | output _ => 0
  | _ => 1

end Instruction

/-- A compiled program. -/
structure Program (α : Type) where
  /-- The instructions in order. -/
  instructions : Array (Instruction α)
  /-- The operators of all chains. -/
  tags : Array Tag
  /-- The number of input values. -/
  inputCount : Nat
  /-- The number of cells, with the unused cell zero. -/
  slotCount : Nat
  /-- The number of outputs. -/
  outputCount : Nat
  /-- The largest number of values on the stack. -/
  stackSize : Nat
  deriving Repr

end Straightline
