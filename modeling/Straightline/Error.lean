import Straightline.Operation

/-!
# Errors

Every way an operation of the library can fail, as a cause with its data; the wording is the
`message` of the cause. A `Fault` is a defect that no sequence of well-behaved calls meets: a
reference to a node that was released, or a machine program that its compiler did not produce.
-/

namespace Straightline

/-- Reasons why an equation cannot be solved for a node. -/
inductive SolveError where
  /-- The target does not occur in the residual. -/
  | notPresent
  /-- More than one path leads from the residual to the target. -/
  | multipleOccurrences
  /-- An operation on the path to the target has no inverse. -/
  | unsolvable (op : Opcode)
  deriving DecidableEq, Repr

/-- The wording of a solver failure. -/
def SolveError.message : SolveError → String
  | .notPresent => "the variable to solve for does not appear in the expression"
  | .multipleOccurrences => "the variable to solve for appears more than once in the expression"
  | .unsolvable op => "unable to invert operation '" ++ op.name ++ "' while solving"

/-- Defects of the data rather than of a request. -/
inductive Fault where
  /-- A node refers to a node that was released. -/
  | releasedNode
  /-- An expression is nested deeper than the graph has nodes. -/
  | expansionDepth
  /-- An instruction needs more values than the stack holds. -/
  | stackUnderflow
  /-- A slot was read before it was written, or lies outside the cells. -/
  | unsetSlot (slot : Nat)
  /-- An instruction names tags outside the tag table. -/
  | tagRange (start len : Nat)
  /-- An output was not written, or lies outside the outputs. -/
  | unsetOutput (index : Nat)
  deriving DecidableEq, Repr

/-- The wording of a fault. -/
def Fault.message : Fault → String
  | .releasedNode => "a node refers to a released node"
  | .expansionDepth => "an expression is nested deeper than its graph"
  | .stackUnderflow => "an instruction found too few values on the stack"
  | .unsetSlot slot => "slot " ++ toString slot ++ " holds no value"
  | .tagRange start len =>
    "tags " ++ toString start ++ " to " ++ toString (start + len) ++ " are not in the table"
  | .unsetOutput index => "output " ++ toString index ++ " holds no value"

/-- Causes of failure. -/
inductive Error where
  /-- Values recorded by different handlers were combined. -/
  | crossGraph
  /-- The handler of a value no longer exists. -/
  | handlerDropped
  /-- The node of a value is not, or no longer, part of its handler. -/
  | foreignNode
  /-- The graph is held by a live bundle. -/
  | graphInUse
  /-- An order comparison met a value that is not a parameter. -/
  | invalidComparison (c : Comparison)
  /-- A value is not in the roster of independent variables. -/
  | notIndependent
  /-- An equation could not be solved. -/
  | solve (cause : SolveError)
  /-- An operation is not available where it was requested. -/
  | unsupported (reason : String)
  /-- The number of input values is not the number of independent variables. -/
  | inputMismatch (expected got : Nat)
  /-- Input columns have different lengths. -/
  | columnLengthMismatch
  /-- The generated text does not fit its destination. -/
  | format
  /-- A defect of the data. -/
  | fault (cause : Fault)
  deriving DecidableEq, Repr

namespace Error

/-- The wording of an error. -/
def message : Error → String
  | crossGraph =>
    "attempting to use several source code generation handlers in the same source code generation"
  | handlerDropped => "the code handler owning this variable has been dropped"
  | foreignNode => "the node does not belong to this handler"
  | graphInUse => "the operation graph is in use by an active code generation"
  | invalidComparison c =>
    "cannot use the '" ++ c.symbol ++ "' comparison operator on non parameter variables"
  | notIndependent => "variable not found in the independent variable vector"
  | solve cause => "elimination failed: " ++ cause.message
  | unsupported reason => "unsupported operation: " ++ reason
  | inputMismatch expected got =>
    "expected " ++ toString expected ++ " independent values, got " ++ toString got
  | columnLengthMismatch => "all input columns must have the same length"
  | format => "failed to write generated source: an error occurred when formatting an argument"
  | fault cause => cause.message

/-- Errors of usage that no retry can mend. -/
def isFatal : Error → Bool
  | crossGraph | handlerDropped | foreignNode => true
  | _ => false

/-- A kind of operation that does not take two operands. -/
def notBinary (op : Opcode) : Error := unsupported (op.name ++ " is not a binary operation")

/-- A kind of operation that does not take one operand. -/
def notUnary (op : Opcode) : Error := unsupported (op.name ++ " is not a unary operation")

/-- A parameter has no node that could carry a name. -/
def parameterName : Error := unsupported "cannot name a parameter"

/-- An operation without a variable among its operands is never recorded. -/
def noVariable : Error := unsupported "no variable operand"

/-- A kind of operation without a numeric value. -/
def notEvaluated (op : Opcode) : Error := unsupported ("'" ++ op.name ++ "' cannot be evaluated")

/-- A scheduled node that no naming covers. -/
def unnamedStatement : Error := unsupported "scheduled operation without a variable"

end Error

end Straightline
