import Straightline.Operation

/-!
# Scalars

The base type of an expression supplies the operations and nothing else: no algebraic law is
assumed, so rounding arithmetic and exact fields are instances alike. Applying an operation kind
to values is defined here once and shared by constant folding and by numeric evaluation.
-/

namespace Straightline

/-- The operations a base type supplies. -/
class Scalar (α : Type) where
  /-- The value of an empty sum. -/
  zero : α
  /-- The value of an empty product. -/
  one : α
  /-- The natural logarithm of ten. -/
  ln10 : α
  /-- Addition. -/
  add : α → α → α
  /-- Subtraction. -/
  sub : α → α → α
  /-- Multiplication. -/
  mul : α → α → α
  /-- Division. -/
  div : α → α → α
  /-- Exponentiation. -/
  pow : α → α → α
  /-- Negation. -/
  neg : α → α
  /-- The elementary functions. -/
  call : Elementary → α → α
  /-- The comparisons; equality need not be reflexive. -/
  compare : Comparison → α → α → Bool

/-- The rational numbers as a base type. The elementary functions and the power are left out of the
arithmetic and keep their first operand. -/
instance : Scalar Rat where
  zero := 0
  one := 1
  ln10 := 1
  add := (· + ·)
  sub := (· - ·)
  mul := (· * ·)
  div := (· / ·)
  pow a _ := a
  neg a := -a
  call _ a := a
  compare
    | .lt, a, b => decide (a < b)
    | .le, a, b => decide (a ≤ b)
    | .eq, a, b => decide (a = b)
    | .ge, a, b => decide (b ≤ a)
    | .gt, a, b => decide (b < a)
    | .ne, a, b => decide (a ≠ b)

variable {α : Type} [Scalar α]

namespace Scalar

/-- The value compares equal to zero. -/
def isZero (x : α) : Bool := compare .eq x zero

/-- The value compares equal to one. -/
def isOne (x : α) : Bool := compare .eq x one

/-- One above zero, zero at zero and minus one otherwise. -/
def sign (x : α) : α :=
  if compare .gt x zero then one
  else if compare .eq x zero then zero
  else neg one

end Scalar

/-- The value that starts the evaluation of a chain. -/
def Family.neutral : Family → α
  | .additive => Scalar.zero
  | .multiplicative => Scalar.one

/-- Apply an arithmetic operator. -/
def Tag.apply : Tag → α → α → α
  | .add => Scalar.add
  | .sub => Scalar.sub
  | .mul => Scalar.mul
  | .div => Scalar.div

/-- Apply a unary operation. -/
def Unary.apply : Unary → α → α
  | .neg => Scalar.neg
  | .sign => Scalar.sign
  | .call f => Scalar.call f

/-- Apply a binary operation. -/
def Binary.apply : Binary → α → α → α
  | .arith t => t.apply
  | .pow => Scalar.pow

/-- Choose between two values by a comparison. -/
def Comparison.choose (c : Comparison) (l r t f : α) : α :=
  if Scalar.compare c l r then t else f

/-- Combine values from left to right, each with its operator. -/
def foldTags (start : α) (terms : List (Tag × α)) : α :=
  terms.foldl (fun acc term => term.1.apply acc term.2) start

/-- The value of a chain: its terms combined from left to right, from the neutral value. -/
def Family.chainValue (family : Family) (terms : List (Sense × α)) : α :=
  foldTags family.neutral (terms.map fun t => (⟨family, t.1⟩, t.2))

/-- The value of an operation on values; an independent variable has none of its own. -/
def Operation.value? : Operation α → Option α
  | .independent => none
  | .copy x => some x
  | .unary op x => some (op.apply x)
  | .binary op l r => some (op.apply l r)
  | .select c l r t f => some (c.choose l r t f)
  | .chain family terms => some (family.chainValue terms)

end Straightline
