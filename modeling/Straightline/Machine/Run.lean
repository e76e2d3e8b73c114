import Straightline.Error
import Straightline.Machine.Program

/-!
# Execution

Running a program on input values. The buffers of the machine are reused between runs: a run
starts by clearing the cells and the stack, loads the inputs into the cells from one on, and
writes every output. Reading a cell or an output that holds no value is a fault.
-/

namespace Straightline

/-- The working memory of the machine. -/
structure Buffers (α : Type) where
  /-- The cells, none where nothing was stored. -/
  cells : Array (Option α) := #[]
  /-- The stack, its top first. -/
  stack : List α := []
  /-- The outputs, none where nothing was written. -/
  outputs : Array (Option α) := #[]

namespace Program

variable {α : Type} [Scalar α]

/-- The value of a chain with the given operators: the family of the first one gives the value to
start from. -/
def chainValue (tags : List Tag) (values : List α) : α :=
  let start : α := ((tags.head?.map Tag.family).getD .additive).neutral
  foldTags start (tags.zip values)

/-- Execute one instruction. -/
def step (p : Program α) (b : Buffers α) : Instruction α → Except Fault (Buffers α)
  | .loadConst v => .ok { b with stack := v :: b.stack }
  | .loadSlot slot =>
    match b.cells[slot]? with
    | some (some v) => .ok { b with stack := v :: b.stack }
    | _ => .error (.unsetSlot slot)
  | .unary op =>
    match b.stack with
    | x :: stack => .ok { b with stack := op.apply x :: stack }
    | _ => .error .stackUnderflow
  | .binary op =>
    match b.stack with
    | r :: l :: stack => .ok { b with stack := op.apply l r :: stack }
    | _ => .error .stackUnderflow
  | .select c =>
    match b.stack with
    | f :: t :: r :: l :: stack => .ok { b with stack := c.choose l r t f :: stack }
    | _ => .error .stackUnderflow
  | .chain start len =>
    if b.stack.length < len then .error .stackUnderflow
    else if p.tags.size < start + len then .error (.tagRange start len)
    else
      let tags := (p.tags.extract start (start + len)).toList
      let values := (b.stack.take len).reverse
      .ok { b with stack := chainValue tags values :: b.stack.drop len }
  | .store slot =>
    match b.stack with
    | v :: stack =>
      if slot < b.cells.size then
        .ok { b with cells := b.cells.setIfInBounds slot (some v), stack := stack }
      else .error (.unsetSlot slot)
    | _ => .error .stackUnderflow
  | .output index =>
    match b.stack with
    | v :: stack =>
      if index < b.outputs.size then
        .ok { b with outputs := b.outputs.setIfInBounds index (some v), stack := stack }
      else .error (.unsetOutput index)
    | _ => .error .stackUnderflow

/-- Clear the cells and the stack and load the inputs. Outputs stay as they are. -/
def load (p : Program α) (b : Buffers α) (inputs : List α) : Buffers α :=
  { b with
    cells := (#[none] ++ (inputs.map some).toArray ++
      Array.replicate (p.slotCount - (inputs.length + 1)) none)
    stack := [] }

/-- Execute instructions in order. -/
def exec (p : Program α) : List (Instruction α) → Buffers α → Except Fault (Buffers α)
  | [], b => .ok b
  | i :: rest, b => do exec p rest (← p.step b i)

/-- Run the program on input values. -/
def run (p : Program α) (b : Buffers α) (inputs : List α) : Except Fault (Buffers α) :=
  p.exec p.instructions.toList (p.load b inputs)

/-- Buffers in which no output is written. -/
def fresh (p : Program α) : Buffers α := { outputs := Array.replicate p.outputCount none }

/-- Read outputs by position, from a first one. -/
def readOutputs : List (Option α) → Nat → Except Fault (List α)
  | [], _ => .ok []
  | none :: _, index => .error (.unsetOutput index)
  | some v :: rest, index => do return v :: (← readOutputs rest (index + 1))

/-- The outputs of a run. -/
def outputsOf (b : Buffers α) : Except Fault (List α) := readOutputs b.outputs.toList 0

/-- Evaluate the outputs for one value of each independent variable. -/
def evaluate (p : Program α) (inputs : List α) : Except Error (List α) :=
  if inputs.length ≠ p.inputCount then .error (.inputMismatch p.inputCount inputs.length)
  else ((do outputsOf (← p.run p.fresh inputs)) : Except Fault (List α)).mapError .fault

end Program

end Straightline
