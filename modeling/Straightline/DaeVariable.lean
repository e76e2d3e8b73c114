/-!
# Variables of differential-algebraic systems

What is known of a variable while the index of a system is reduced: its place among derivatives
and whether it depends on the variable of integration.
-/

namespace Straightline

/-- The role of one variable. -/
structure DaeVariable where
  /-- The display name. -/
  name : String := ""
  /-- The variable of which this one is the derivative. -/
  antiDerivative : Option Nat := none
  /-- The derivative of this variable. -/
  derivative : Option Nat := none
  /-- Whether the variable is a function of the variable of integration. -/
  isIntegratedDependent : Bool := true
  /-- Whether this is the variable of integration itself. -/
  isIntegratedVariable : Bool := false
  /-- The position of the variable before index reduction. -/
  originalIndex : Option Nat := none
  deriving DecidableEq, Repr

namespace DaeVariable

/-- The derivative of another variable. -/
def derivativeOf (index : Nat) (name : String) : DaeVariable :=
  { name := name, antiDerivative := some index }

/-- A variable that neither is nor depends on the variable of integration. -/
def isConstant (v : DaeVariable) : Bool := !v.isIntegratedDependent && !v.isIntegratedVariable

/-- Make the variable a constant, which is the derivative of nothing. -/
def makeConstant (v : DaeVariable) : DaeVariable :=
  { v with
    isIntegratedVariable := false, isIntegratedDependent := false, antiDerivative := none }

/-- Make the variable the one of integration. -/
def makeIntegratedVariable (v : DaeVariable) : DaeVariable :=
  { v with
    isIntegratedVariable := true, isIntegratedDependent := false, antiDerivative := none }

/-- The name, followed by what the variable is the derivative of and by its kind. -/
def text (v : DaeVariable) : String :=
  let derivative :=
    match v.antiDerivative with
    | some index => " (d/dt of #" ++ toString index ++ ")"
    | none => ""
  let kind :=
    if v.isIntegratedVariable then " (integrated)"
    else if !v.isIntegratedDependent then " (constant)"
    else ""
  v.name ++ derivative ++ kind

end DaeVariable

end Straightline
