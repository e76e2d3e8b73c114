import Straightline.Expression
import Straightline.Machine.Program

/-!
# Compilation

A bundle becomes a program: every stored node is computed into its slot, in evaluation order, and
then every output is computed. The compiler keeps account of the depth of the stack.
-/

namespace Straightline

/-- Code under construction. -/
structure Assembler (α : Type) where
  /-- The instructions so far. -/
  instructions : Array (Instruction α) := #[]
  /-- The operators of the chains so far. -/
  tags : Array Tag := #[]
  /-- The number of values on the stack after the last instruction. -/
  depth : Nat := 0
  /-- The largest depth so far. -/
  maxDepth : Nat := 0

namespace Assembler

variable {α : Type}

/-- Append an instruction. -/
def emit (a : Assembler α) (i : Instruction α) : Assembler α :=
  let depth := a.depth - i.pops + i.pushes
  { a with
    instructions := a.instructions.push i
    depth := depth
    maxDepth := max a.maxDepth depth }

/-- Append a chain instruction with its operators. -/
def emitChain (a : Assembler α) (tags : List Tag) : Assembler α :=
  { a with tags := a.tags ++ tags }.emit (.chain a.tags.size tags.length)

mutual

/-- Append code that leaves the value of an expression on the stack. -/
def expression (slot : NodeId → Nat) : Expression α → Assembler α → Assembler α
  | .stored id, a => a.emit (.loadSlot (slot id))
  | .const v, a => a.emit (.loadConst v)
  | .copy x, a => expression slot x a
  | .unary op x, a => (expression slot x a).emit (.unary op)
  | .binary op l r, a => (expression slot r (expression slot l a)).emit (.binary op)
  | .select c l r t f, a =>
    (expression slot f
      (expression slot t (expression slot r (expression slot l a)))).emit (.select c)
  | .chain family ts, a =>
    (terms slot ts a).emitChain (ts.senses.map fun sense => ⟨family, sense⟩)

/-- Append code that leaves the values of all terms on the stack. -/
def terms (slot : NodeId → Nat) : Terms α → Assembler α → Assembler α
  | .nil, a => a
  | .cons _ x rest, a => terms slot rest (expression slot x a)

end

/-- Append code that computes a stored node. -/
def assignment (slot : NodeId → Nat) (a : Assembler α) (s : NodeId × Expression α) : Assembler α :=
  (expression slot s.2 a).emit (.store (slot s.1))

/-- Append code that computes an output. -/
def result (slot : NodeId → Nat) (a : Assembler α) (r : Expression α × Nat) : Assembler α :=
  (expression slot r.1 a).emit (.output r.2)

end Assembler

/-- Compile a bundle. -/
def Bundle.compile {α : Type} (b : Bundle α) : Except Error (Program α) := do
  let assignments ← b.assignments
  let results ← b.results
  let slot := b.graph.slot
  let a := assignments.foldl (Assembler.assignment slot) {}
  let a := results.zipIdx.foldl (Assembler.result slot) a
  return {
    instructions := a.instructions
    tags := a.tags
    inputCount := b.graph.roster.length
    slotCount := b.graph.pass.lastId + 1
    outputCount := results.length
    stackSize := a.maxDepth }

end Straightline
