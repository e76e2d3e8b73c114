import Mathlib.Algebra.Field.Basic
import Mathlib.Algebra.Field.Rat
import Mathlib.Algebra.Order.Ring.Unbundled.Rat
import Mathlib.Data.List.Induction
import Straightline.Generation.Flattening
import Straightline.Scalar

/-!
# Values of chains

Combining two chains of a family into one keeps the value if the operations of the family
associate and the inverse operation undoes the direct one, as they do in a field where division by
zero gives zero. Chains of a single term have the value of the term.
-/

namespace Straightline

/-- The sense of a term that enters a chain through an operand. -/
def Sense.after : Sense → Sense → Sense
  | .direct, sense => sense
  | .inverse, sense => sense.flip

theorem Sense.through_eq_map {β : Type} (sense : Sense) (terms : List (Sense × β)) :
    sense.through terms = terms.map fun t => (sense.after t.1, t.2) := by
  cases sense with
  | direct => exact (List.map_id terms).symm
  | inverse => rfl

/-- Turning a chain around does not look at its operands. -/
theorem Sense.map_through {β γ : Type} (sense : Sense) (h : β → γ) (terms : List (Sense × β)) :
    (sense.through terms).map (fun t => (t.1, h t.2)) =
      sense.through (terms.map fun t => (t.1, h t.2)) := by
  simp [through_eq_map]

/-- A single term enters a chain with the sense of its operand. -/
theorem Sense.through_single {β : Type} (sense : Sense) (x : β) :
    sense.through [(.direct, x)] = [(sense, x)] := by
  cases sense <;> rfl

/-- Replacing the operands of an operation replaces those of its terms. -/
theorem Operation.terms?_map {β γ : Type} (h : β → γ) (family : Family) (op : Operation β) :
    (op.map h).terms? family =
      (op.terms? family).map fun terms => terms.map fun t => (t.1, h t.2) := by
  cases op with
  | binary op l r =>
    cases op with
    | arith tag =>
      simp only [map, terms?]
      split <;> rfl
    | pow => rfl
  | chain own terms =>
    simp only [map, terms?]
    split <;> rfl
  | _ => rfl

section Fold

variable {α : Type} [Scalar α]

/-- Combining a value with the terms of a chain, from left to right. -/
def Family.extend (family : Family) (start : α) (terms : List (Sense × α)) : α :=
  foldTags start (terms.map fun t => (⟨family, t.1⟩, t.2))

theorem Family.chainValue_eq_extend (family : Family) (terms : List (Sense × α)) :
    family.chainValue terms = family.extend family.neutral terms := rfl

@[simp] theorem Family.extend_nil (family : Family) (start : α) : family.extend start [] = start :=
  rfl

theorem Family.extend_append (family : Family) (start : α) (front back : List (Sense × α)) :
    family.extend start (front ++ back) = family.extend (family.extend start front) back := by
  simp [extend, foldTags]

@[simp] theorem Family.extend_singleton (family : Family) (start : α) (sense : Sense) (v : α) :
    family.extend start [(sense, v)] = (⟨family, sense⟩ : Tag).apply start v := rfl

end Fold

/-- The laws under which a value is a chain of one term. -/
structure UnitLaws (α : Type) [Scalar α] : Prop where
  /-- Zero can be dropped in front of a sum. -/
  zero_add : ∀ v : α, Scalar.add Scalar.zero v = v
  /-- One can be dropped in front of a product. -/
  one_mul : ∀ v : α, Scalar.mul Scalar.one v = v

theorem UnitLaws.single {α : Type} [Scalar α] (laws : UnitLaws α) (family : Family) (v : α) :
    family.chainValue [(.direct, v)] = v := by
  cases family with
  | additive => exact laws.zero_add v
  | multiplicative => exact laws.one_mul v

/-- Without further laws a chain can be continued by one term. -/
theorem UnitLaws.append_single {α : Type} [Scalar α] (laws : UnitLaws α) (tag : Tag)
    (left : List (Sense × α)) (v : α) :
    tag.family.chainValue (left ++ tag.sense.through [(.direct, v)]) =
      tag.apply (tag.family.chainValue left) (tag.family.chainValue [(.direct, v)]) := by
  rw [laws.single, Sense.through_single, Family.chainValue_eq_extend, Family.extend_append,
    Family.extend_singleton]
  rfl

/-- The laws under which chains can be combined. -/
structure ChainLaws (α : Type) [Scalar α] : Prop where
  /-- A chain of one direct term has its value. -/
  single : ∀ (family : Family) (v : α), family.chainValue [(.direct, v)] = v
  /-- A chain can be entered through an operand of either sense. -/
  append : ∀ (family : Family) (sense : Sense) (left right : List (Sense × α)),
    family.chainValue (left ++ sense.through right) =
      (⟨family, sense⟩ : Tag).apply (family.chainValue left) (family.chainValue right)

theorem ChainLaws.unit {α : Type} [Scalar α] (laws : ChainLaws α) : UnitLaws α :=
  ⟨laws.single .additive, laws.single .multiplicative⟩

/-- The arithmetic of the base type is that of a field, where division by zero gives zero.
Negation, the elementary functions, exponentiation and the comparisons are arbitrary. -/
class Scalar.IsField (K : Type) [Field K] [Scalar K] : Prop where
  /-- The value of an empty sum. -/
  zero_eq : (Scalar.zero : K) = 0
  /-- The value of an empty product. -/
  one_eq : (Scalar.one : K) = 1
  /-- Addition. -/
  add_eq : ∀ a b : K, Scalar.add a b = a + b
  /-- Subtraction. -/
  sub_eq : ∀ a b : K, Scalar.sub a b = a - b
  /-- Multiplication. -/
  mul_eq : ∀ a b : K, Scalar.mul a b = a * b
  /-- Division. -/
  div_eq : ∀ a b : K, Scalar.div a b = a / b

instance : Scalar.IsField ℚ where
  zero_eq := rfl
  one_eq := rfl
  add_eq _ _ := rfl
  sub_eq _ _ := rfl
  mul_eq _ _ := rfl
  div_eq _ _ := rfl

/-- The natural numbers as a base type, with differences cut off at zero and quotients rounded down.
Negation and the elementary functions are left out of the arithmetic and keep their operand. -/
instance : Scalar ℕ where
  zero := 0
  one := 1
  ln10 := 2
  add := (· + ·)
  sub := (· - ·)
  mul := (· * ·)
  div := (· / ·)
  pow := (· ^ ·)
  neg a := a
  call _ a := a
  compare
    | .lt, a, b => decide (a < b)
    | .le, a, b => decide (a ≤ b)
    | .eq, a, b => decide (a = b)
    | .ge, a, b => decide (b ≤ a)
    | .gt, a, b => decide (b < a)
    | .ne, a, b => decide (a ≠ b)

theorem unitLaws_nat : UnitLaws ℕ := ⟨Nat.zero_add, Nat.one_mul⟩

/-- Over the natural numbers chains cannot be combined: `1 - (2 - 2)` is not `1 - 2 + 2`. -/
theorem not_chainLaws_nat : ¬ ChainLaws ℕ := by
  intro laws
  have h := laws.append .additive .inverse [(.direct, 1)] [(.direct, 2), (.inverse, 2)]
  exact absurd h (by decide)

section Field

variable {K : Type} [Field K] [Scalar K] [Scalar.IsField K]

open Scalar.IsField

/-- The neutral value can be dropped on the left. -/
theorem Tag.apply_neutral_left (family : Family) (v : K) :
    (⟨family, .direct⟩ : Tag).apply family.neutral v = v := by
  cases family with
  | additive => simp only [Tag.apply, Family.neutral, add_eq, zero_eq, zero_add]
  | multiplicative => simp only [Tag.apply, Family.neutral, mul_eq, one_eq, one_mul]

/-- The neutral value can be dropped on the right. -/
theorem Tag.apply_neutral_right (family : Family) (sense : Sense) (v : K) :
    (⟨family, sense⟩ : Tag).apply v family.neutral = v := by
  cases family with
  | additive => cases sense <;> simp [Tag.apply, Family.neutral, add_eq, sub_eq, zero_eq]
  | multiplicative => cases sense <;> simp [Tag.apply, Family.neutral, mul_eq, div_eq, one_eq]

/-- Operators of a family in a row act as one on the combination of their operands. -/
theorem Tag.apply_apply (family : Family) (sense sense' : Sense) (a b v : K) :
    (⟨family, sense⟩ : Tag).apply a ((⟨family, sense'⟩ : Tag).apply b v) =
      (⟨family, sense.after sense'⟩ : Tag).apply ((⟨family, sense⟩ : Tag).apply a b) v := by
  cases family with
  | additive =>
    cases sense <;> cases sense' <;>
      simp only [Tag.apply, Sense.after, Sense.flip, add_eq, sub_eq]
    · exact (add_assoc a b v).symm
    · exact (add_sub_assoc a b v).symm
    · exact sub_add_eq_sub_sub a b v
    · exact (sub_add a b v).symm
  | multiplicative =>
    cases sense <;> cases sense' <;>
      simp only [Tag.apply, Sense.after, Sense.flip, mul_eq, div_eq]
    · exact (mul_assoc a b v).symm
    · exact (mul_div_assoc a b v).symm
    · exact div_mul_eq_div_div a b v
    · exact (div_mul a b v).symm

/-- The terms of a chain that enter through an operand act as the value of the chain. -/
theorem Family.extend_through (family : Family) (sense : Sense) (start : K)
    (terms : List (Sense × K)) :
    family.extend start (sense.through terms) =
      (⟨family, sense⟩ : Tag).apply start (family.chainValue terms) := by
  rw [Sense.through_eq_map, chainValue_eq_extend]
  induction terms using List.reverseRecOn with
  | nil => exact (Tag.apply_neutral_right family sense start).symm
  | append_singleton terms t ih =>
    rw [List.map_append, extend_append, ih, extend_append, List.map_singleton, extend_singleton]
    exact (Tag.apply_apply family sense t.1 start _ t.2).symm

/-- Chains over a field can be combined. -/
theorem chainLaws_of_isField : ChainLaws K where
  single family v := Tag.apply_neutral_left family v
  append family sense left right := by
    rw [Family.chainValue_eq_extend, Family.extend_append, Family.extend_through]
    rfl

end Field

end Straightline
