import Mathlib.Data.Sign.Basic
import Straightline.Proofs.Generation.Chains
import Straightline.Recording

/-!
# Shortcuts over a field

Over a field in which division by zero gives zero and equality is exact every shortcut of
construction is sound: the constant or operand that it answers with has the value of the operation.
A product with zero and a quotient of zero are zero for all values of the other operand there. Over
an ordered field the comparisons and the sign are exact as well.
-/

namespace Straightline

/-- The base type is a field, where division by zero gives zero, and equality is that of the field.
The elementary functions, exponentiation and the other comparisons are arbitrary. -/
class Scalar.IsExact (K : Type) [Field K] [Scalar K] : Prop extends Scalar.IsField K where
  /-- Negation. -/
  neg_eq : ∀ a : K, Scalar.neg a = -a
  /-- Equality. -/
  compare_eq : ∀ a b : K, Scalar.compare .eq a b = true ↔ a = b

section Field

variable {K : Type} [Field K] [Scalar K]

/-- A binary operation in the arithmetic of the field. -/
def Binary.exact : Binary → K → K → K
  | .add, a, b => a + b
  | .sub, a, b => a - b
  | .mul, a, b => a * b
  | .div, a, b => a / b
  | .pow, a, b => Scalar.pow a b

/-- The value of an operation that is resolved without a node, from the values of its operands. -/
def Shortcut.resolve : Shortcut K → K → K → K
  | value v, _, _ => v
  | left, a, _ => a
  | right, _, b => b

open Scalar.IsField

/-- A binary operation on values of the field. -/
theorem Binary.apply_eq_exact [Scalar.IsField K] (op : Binary) (a b : K) :
    op.apply a b = op.exact a b := by
  match op with
  | .add => exact add_eq a b
  | .sub => exact sub_eq a b
  | .mul => exact mul_eq a b
  | .div => exact div_eq a b
  | .pow => rfl

variable [Scalar.IsExact K]

theorem Scalar.isZero_iff {a : K} : Scalar.isZero a = true ↔ a = 0 := by
  rw [Scalar.isZero, IsExact.compare_eq, zero_eq]

theorem Scalar.isOne_iff {a : K} : Scalar.isOne a = true ↔ a = 1 := by
  rw [Scalar.isOne, IsExact.compare_eq, one_eq]

theorem eq_zero_of_any {l : Option K} {a : K} (hl : ∀ x ∈ l, x = a)
    (hzero : l.any Scalar.isZero = true) : a = 0 := by
  obtain ⟨x, hx, hx'⟩ := (Option.any_eq_true ..).mp hzero
  rw [← hl x hx]
  exact Scalar.isZero_iff.mp hx'

theorem eq_one_of_any {l : Option K} {a : K} (hl : ∀ x ∈ l, x = a)
    (hone : l.any Scalar.isOne = true) : a = 1 := by
  obtain ⟨x, hx, hx'⟩ := (Option.any_eq_true ..).mp hone
  rw [← hl x hx]
  exact Scalar.isOne_iff.mp hx'

/-- A shortcut gives the value of the operation, whatever the operands are that are not known to
be constants. -/
theorem Binary.resolve_shortcut? (op : Binary) {l r : Option K} {s : Shortcut K}
    (hs : op.shortcut? l r = some s) {a b : K} (hl : ∀ x ∈ l, x = a) (hr : ∀ x ∈ r, x = b) :
    s.resolve a b = op.exact a b := by
  unfold shortcut? at hs
  split at hs
  · next x y =>
    cases hs
    rw [← hl x rfl, ← hr y rfl]
    exact op.apply_eq_exact x y
  · match op with
    | .add =>
      dsimp only at hs
      split at hs
      · next hzero =>
        cases hs
        simp [Shortcut.resolve, exact, eq_zero_of_any hl hzero]
      · split at hs
        · next hzero =>
          cases hs
          simp [Shortcut.resolve, exact, eq_zero_of_any hr hzero]
        · cases hs
    | .sub =>
      dsimp only at hs
      split at hs
      · next hzero =>
        cases hs
        simp [Shortcut.resolve, exact, eq_zero_of_any hr hzero]
      · cases hs
    | .mul =>
      dsimp only at hs
      split at hs
      · next hzero =>
        cases hs
        rcases (Bool.or_eq_true _ _).mp hzero with hzero | hzero
        · simp [Shortcut.resolve, exact, eq_zero_of_any hl hzero, zero_eq]
        · simp [Shortcut.resolve, exact, eq_zero_of_any hr hzero, zero_eq]
      · split at hs
        · next hone =>
          cases hs
          simp [Shortcut.resolve, exact, eq_one_of_any hl hone]
        · split at hs
          · next hone =>
            cases hs
            simp [Shortcut.resolve, exact, eq_one_of_any hr hone]
          · cases hs
    | .div =>
      dsimp only at hs
      split at hs
      · next hzero =>
        cases hs
        simp [Shortcut.resolve, exact, eq_zero_of_any hl hzero, zero_eq]
      · split at hs
        · next hone =>
          cases hs
          simp [Shortcut.resolve, exact, eq_one_of_any hr hone]
        · cases hs
    | .pow => cases hs

end Field

section Exact

variable {K : Type} [Field K] [LinearOrder K]

/-- What a comparison says in an ordered type. -/
def Comparison.Holds : Comparison → K → K → Prop
  | .lt, a, b => a < b
  | .le, a, b => a ≤ b
  | .eq, a, b => a = b
  | .ge, a, b => b ≤ a
  | .gt, a, b => b < a
  | .ne, a, b => a ≠ b

instance (c : Comparison) (a b : K) : Decidable (c.Holds a b) :=
  match c with
  | .lt => inferInstanceAs (Decidable (a < b))
  | .le => inferInstanceAs (Decidable (a ≤ b))
  | .eq => inferInstanceAs (Decidable (a = b))
  | .ge => inferInstanceAs (Decidable (b ≤ a))
  | .gt => inferInstanceAs (Decidable (b < a))
  | .ne => inferInstanceAs (Decidable (a ≠ b))

/-- The base type is an ordered field, where division by zero gives zero. The elementary functions
and exponentiation are arbitrary. -/
class Scalar.IsOrderedField (K : Type) [Field K] [LinearOrder K] [Scalar K] : Prop
    extends Scalar.IsField K where
  /-- Negation. -/
  neg_eq : ∀ a : K, Scalar.neg a = -a
  /-- The comparisons. -/
  compare_eq_true : ∀ (c : Comparison) (a b : K), Scalar.compare c a b = true ↔ c.Holds a b

instance : Scalar.IsOrderedField ℚ where
  neg_eq _ := rfl
  compare_eq_true c _ _ := by cases c <;> simp [Scalar.compare, Comparison.Holds]

variable [Scalar K]

/-- A unary operation in the arithmetic of the field. -/
def Unary.exact : Unary → K → K
  | .neg, a => -a
  | .sign, a => SignType.sign a
  | .call f, a => Scalar.call f a

variable [Scalar.IsOrderedField K]

open Scalar.IsField Scalar.IsOrderedField

instance Scalar.isExact_of_isOrderedField : Scalar.IsExact K where
  neg_eq := neg_eq
  compare_eq := compare_eq_true .eq

theorem Scalar.sign_eq (a : K) : Scalar.sign a = SignType.sign a := by
  have hgt : Scalar.compare .gt a Scalar.zero = true ↔ 0 < a := by
    rw [compare_eq_true, zero_eq]
    rfl
  have heq : Scalar.compare .eq a Scalar.zero = true ↔ a = 0 := isZero_iff
  rw [Scalar.sign, neg_eq, one_eq, zero_eq]
  rw [zero_eq] at hgt heq
  simp only [hgt, heq]
  rcases lt_trichotomy a 0 with hneg | rfl | hpos
  · rw [if_neg hneg.asymm, if_neg hneg.ne, sign_neg hneg, SignType.coe_neg, SignType.coe_one]
  · rw [if_neg (lt_irrefl _), if_pos rfl, sign_zero, SignType.coe_zero]
  · rw [if_pos hpos, sign_pos hpos, SignType.coe_one]

/-- A unary operation on values of the field. -/
theorem Unary.apply_eq_exact (op : Unary) (a : K) : op.apply a = op.exact a := by
  cases op with
  | neg => exact neg_eq a
  | sign => exact Scalar.sign_eq a
  | call f => rfl

/-- A choice on values of the field. -/
theorem Comparison.choose_eq_ite (c : Comparison) (l r t f : K) :
    c.choose l r t f = if c.Holds l r then t else f := by
  simp only [choose, compare_eq_true]

end Exact

end Straightline
