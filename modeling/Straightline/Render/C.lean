import Straightline.Render.Listing

/-!
# C statements

One assignment for each stored node in evaluation order, then one for each output that was not
computed in place, after a declaration of the array of temporaries if there is one. Selects are
always stored, so that a ternary never stands inside another operation, and the operand of a sign
is stored because the sign is written as two comparisons of it.
-/

namespace Straightline

namespace C

/-- The fixed parts of C statements. -/
structure Style where
  /-- The type of the temporaries. -/
  baseType : String := "double"
  /-- What every line starts with. -/
  indentation : String := "   "

/-- Store shared values, selects and the operands of signs. -/
def policy {α : Type} : Policy α where
  stores node refs := 1 < refs || node.operation.opcode.isComparison
  demands op _ := op = .unary .sign

/-- Where an expression stands: on its own after an assignment, as an operand, or as the argument
of a call. -/
inductive Position where
  | statement
  | operand
  | argument
  deriving DecidableEq, Repr

/-- A copy stands for its operand; on its own it is written as an operand. -/
def Position.ofCopy : Position → Position
  | .statement => .operand
  | position => position

/-- Enclose the text of an operation where it is an operand. -/
def Position.enclose (position : Position) (text : String) : String :=
  if position = .operand then "(" ++ text ++ ")" else text

/-- The name of an elementary function. -/
def functionName : Elementary → String
  | .abs => "fabs"
  | f => f.name

/-- The sign of a written value. -/
def signText (x : String) : String :=
  "(" ++ x ++ " > 0 ? 1 : (" ++ x ++ " == 0 ? 0 : -1))"

/-- A term of a chain: the first one has no operator before it. -/
def termText (family : Family) (first : Bool) (sense : Sense) (x : String) : String :=
  match first, family, sense with
  | true, _, .direct => x
  | true, .additive, .inverse => "-" ++ x
  | true, .multiplicative, .inverse => "1 / " ++ x
  | false, _, _ => " " ++ Tag.symbol ⟨family, sense⟩ ++ " " ++ x

variable {α : Type} [Numeral α]

/-- A constant. Negative numbers are enclosed; negative zero is not. -/
def literal (v : α) : String :=
  if Numeral.isNaN v then "NAN"
  else if Numeral.isInfinite v then
    if Numeral.isNegative v then "(-INFINITY)" else "INFINITY"
  else if Numeral.isNegative v && !Scalar.isZero v then "(" ++ Numeral.text v ++ ")"
  else Numeral.text v

mutual

/-- The text of an expression at a position, with the names of the stored nodes. -/
def expressionText (name : NodeId → String) : Position → Expression α → String
  | _, .stored id => name id
  | _, .const v => literal v
  | position, .copy x => expressionText name position.ofCopy x
  | position, .unary .neg x => position.enclose ("-" ++ expressionText name .operand x)
  | _, .unary .sign x => signText (expressionText name .argument x)
  | _, .unary (.call f) x => functionName f ++ "(" ++ expressionText name .argument x ++ ")"
  | position, .binary (.arith tag) l r =>
    position.enclose
      (expressionText name .operand l ++ " " ++ tag.symbol ++ " " ++ expressionText name .operand r)
  | _, .binary .pow l r =>
    "pow(" ++ expressionText name .argument l ++ ", " ++ expressionText name .argument r ++ ")"
  | position, .select c l r t f =>
    position.enclose
      (expressionText name .operand l ++ " " ++ c.symbol ++ " " ++ expressionText name .operand r ++
        " ? " ++ expressionText name .operand t ++ " : " ++ expressionText name .operand f)
  | position, .chain family terms => position.enclose (termsText name family true terms)

/-- The text of the terms of a chain. -/
def termsText (name : NodeId → String) (family : Family) : Bool → Terms α → String
  | _, .nil => ""
  | first, .cons sense x rest =>
    termText family first sense (expressionText name .operand x) ++ termsText name family false rest

end

/-- One assignment. -/
def Style.line (style : Style) (target value : String) : String :=
  style.indentation ++ target ++ " = " ++ value ++ ";\n"

/-- The declaration of the array of temporaries. -/
def declaration (style : Style) (b : Bundle α) : String :=
  match b.naming.array with
  | some array =>
    if 0 < b.temporaryCount then
      style.indentation ++ style.baseType ++ " " ++ array ++ "[" ++ toString b.temporaryCount ++
        "];\n"
    else ""
  | none => ""

/-- The name of a stored node. -/
def nameOf (b : Bundle α) (id : NodeId) : String := (b.variableName? id).getD ""

/-- The assignments of the stored nodes. -/
def storeLines (style : Style) (b : Bundle α) : Except Error (List String) := do
  (← b.assignments).mapM fun (id, x) =>
    match b.variableName? id with
    | some name => .ok (style.line name (expressionText (nameOf b) .statement x))
    | none => .error .unnamedStatement

/-- An output whose node holds the slot reserved for its position. -/
def isInPlace (b : Bundle α) (index : Nat) : Arg α → Bool
  | .const _ => false
  | .node id => b.dependentIndex? id = some index

/-- The assignments of the outputs that are not computed in place. -/
def resultLines (style : Style) (b : Bundle α) : Except Error (List String) := do
  let results ← b.results
  return (b.outputs.zip results).zipIdx.filterMap fun ((output, x), index) =>
    if isInPlace b index output then none
    else some (style.line (b.naming.dependent index) (expressionText (nameOf b) .operand x))

/-- The statements of a bundle. -/
def render (style : Style) (b : Bundle α) : Except Error String := do
  return declaration style b ++ String.join (← storeLines style b) ++
    String.join (← resultLines style b)

/-- C as a target language. -/
def renderer (style : Style) : Renderer α := ⟨policy, render style⟩

end C

end Straightline
