import Mathlib.Tactic.Ring
import Straightline.Proofs.Recording.Shortcut
import Straightline.Solver.Inversion

/-!
# Required values

The value that one operand must have for an operation to have a given value, from the values of the
other operands. Arithmetic is read as a chain of terms, so a sum, a difference, a product, a
quotient and a chain of any length obey one rule: the terms beside the operand are combined, and the
combination is taken from the given value, or the given value from it. If the operation can be
inverted at the values, the operand has the required value exactly if the operation has the given
one.
-/

namespace Straightline

/-- Arithmetic as a chain of terms. -/
def Operation.chain? {β : Type} : Operation β → Option (Family × List (Sense × β))
  | .binary (.arith tag) l r => some (tag.family, [(.direct, l), (tag.sense, r)])
  | .chain family terms => some (family, terms)
  | _ => none

section Field

variable {K : Type} [Field K] [Scalar K]

/-- The value that a term of a chain must have for the chain to have a value. -/
def Family.required (family : Family) (terms : List (Sense × K)) (index : Nat) (w : K) : K :=
  let rest := family.chainValue (terms.eraseIdx index)
  match terms[index]? with
  | some (.inverse, _) => (⟨family, .inverse⟩ : Tag).apply rest w
  | _ => (⟨family, .inverse⟩ : Tag).apply w rest

/-- The value that an operand must have for an operation to have a value. -/
def Operation.required (op : Operation K) (index : Nat) (w : K) : K :=
  match op.chain?, op with
  | some (family, terms), _ => family.required terms index w
  | none, .unary .neg _ => Scalar.neg w
  | none, .unary (.call .exp) _ => Scalar.call .log w
  | none, .unary (.call .log) _ => Scalar.call .exp w
  | none, .unary (.call .sqrt) _ => Scalar.mul w w
  | none, _ => w

/-- A chain can be inverted: in a product the other factors are not zero, and if the operand is a
divisor, neither is it nor the required value. -/
def Family.Inverts : Family → List (Sense × K) → Nat → K → Prop
  | .additive, _, _, _ => True
  | .multiplicative, terms, index, w =>
    (∀ term ∈ terms.eraseIdx index, term.2 ≠ 0) ∧
      ∀ x, terms[index]? = some (.inverse, x) → x ≠ 0 ∧ w ≠ 0

/-- An operation can be inverted at the values of its operands for a required value: arithmetic as
above, and an elementary function and its inverse undo each other there. -/
def Operation.Inverts (op : Operation K) (index : Nat) (w : K) : Prop :=
  match op.chain?, op with
  | some (family, terms), _ => family.Inverts terms index w
  | none, .unary (.call .exp) x =>
    Scalar.call .log (Scalar.call .exp x) = x ∧ Scalar.call .exp (Scalar.call .log w) = w
  | none, .unary (.call .log) x =>
    Scalar.call .exp (Scalar.call .log x) = x ∧ Scalar.call .log (Scalar.call .exp w) = w
  | none, .unary (.call .sqrt) x =>
    Scalar.mul (Scalar.call .sqrt x) (Scalar.call .sqrt x) = x ∧
      Scalar.call .sqrt (Scalar.mul w w) = w
  | none, _ => True

variable [Scalar.IsField K]

open Scalar.IsField

/-- Terms can be appended in any order. -/
theorem Tag.apply_right_comm (family : Family) (sense sense' : Sense) (a b c : K) :
    (⟨family, sense⟩ : Tag).apply ((⟨family, sense'⟩ : Tag).apply a b) c =
      (⟨family, sense'⟩ : Tag).apply ((⟨family, sense⟩ : Tag).apply a c) b := by
  cases family with
  | additive => cases sense <;> cases sense' <;> simp only [Tag.apply, add_eq, sub_eq] <;> ring
  | multiplicative =>
    cases sense <;> cases sense' <;> simp only [Tag.apply, mul_eq, div_eq] <;> ring

theorem Family.extend_apply (family : Family) (sense : Sense) (start x : K)
    (terms : List (Sense × K)) :
    family.extend ((⟨family, sense⟩ : Tag).apply start x) terms =
      (⟨family, sense⟩ : Tag).apply (family.extend start terms) x := by
  induction terms generalizing start with
  | nil => rfl
  | cons t rest ih =>
    change family.extend ((⟨family, t.1⟩ : Tag).apply _ t.2) rest = _
    rw [Tag.apply_right_comm, ih]
    rfl

/-- A term of a chain can be taken last. -/
theorem Family.chainValue_eraseIdx (family : Family) {terms : List (Sense × K)} {index : Nat}
    {sense : Sense} {x : K} (h : terms[index]? = some (sense, x)) :
    family.chainValue terms =
      (⟨family, sense⟩ : Tag).apply (family.chainValue (terms.eraseIdx index)) x := by
  rw [chainValue_eq_extend, chainValue_eq_extend]
  generalize (family.neutral : K) = start
  induction terms generalizing start index with
  | nil => simp at h
  | cons t rest ih =>
    cases index with
    | zero =>
      obtain rfl : t = (sense, x) := by simpa using h
      exact family.extend_apply sense start x rest
    | succ index => exact ih (by simpa using h) ((⟨family, t.1⟩ : Tag).apply start t.2)

/-- The left operand of an operator is found by the opposite operator. -/
theorem Family.required_left (family : Family) (sense : Sense) (l r w : K) :
    family.required [(.direct, l), (sense, r)] 0 w = (Tag.flip ⟨family, sense⟩).apply w r := by
  change (⟨family, .inverse⟩ : Tag).apply w ((⟨family, sense⟩ : Tag).apply family.neutral r) = _
  rw [Tag.apply_apply, Tag.apply_neutral_right]
  rfl

/-- The right operand of an operator. -/
theorem Family.required_right (family : Family) (sense : Sense) (l r w : K) :
    family.required [(.direct, l), (sense, r)] 1 w =
      match sense with
      | .direct => (⟨family, .inverse⟩ : Tag).apply w l
      | .inverse => (⟨family, .inverse⟩ : Tag).apply l w := by
  have hsingle : family.chainValue [(.direct, l)] = l := Tag.apply_neutral_left family l
  cases sense with
  | direct => exact congrArg ((⟨family, .inverse⟩ : Tag).apply w) hsingle
  | inverse => exact congrArg (fun rest => (⟨family, .inverse⟩ : Tag).apply rest w) hsingle

/-- A product of factors and divisors that are not zero. -/
theorem chainValue_ne_zero {terms : List (Sense × K)} (h : ∀ term ∈ terms, term.2 ≠ 0) :
    Family.multiplicative.chainValue terms ≠ 0 := by
  rw [Family.chainValue_eq_extend]
  have hstart : (Family.multiplicative.neutral : K) ≠ 0 := by
    rw [Family.neutral, one_eq]
    exact one_ne_zero
  generalize (Family.multiplicative.neutral : K) = start at hstart
  induction terms generalizing start with
  | nil => exact hstart
  | cons t rest ih =>
    have ht := h t List.mem_cons_self
    refine ih (fun term hterm => h term (List.mem_cons_of_mem _ hterm))
      ((⟨.multiplicative, t.1⟩ : Tag).apply start t.2) ?_
    obtain ⟨sense, v⟩ := t
    cases sense with
    | direct =>
      rw [Tag.apply, mul_eq]
      exact mul_ne_zero hstart ht
    | inverse =>
      rw [Tag.apply, div_eq]
      exact div_ne_zero hstart ht

/-- A chain that can be inverted has a value exactly if the term has the required one. -/
theorem Family.chainValue_eq_iff (family : Family) {terms : List (Sense × K)} {index : Nat}
    {sense : Sense} {x w : K} (h : terms[index]? = some (sense, x))
    (hinverts : family.Inverts terms index w) :
    family.chainValue terms = w ↔ x = family.required terms index w := by
  rw [family.chainValue_eraseIdx h, required, h]
  cases family with
  | additive =>
    cases sense with
    | direct =>
      simp only [Tag.apply, add_eq, sub_eq]
      exact ⟨fun heq => eq_sub_of_add_eq' heq, fun heq => by rw [heq, add_sub_cancel]⟩
    | inverse =>
      simp only [Tag.apply, sub_eq]
      exact ⟨fun heq => by rw [← heq, sub_sub_cancel], fun heq => by rw [heq, sub_sub_cancel]⟩
  | multiplicative =>
    obtain ⟨hfactors, hdivisor⟩ := hinverts
    have hrest := chainValue_ne_zero hfactors
    cases sense with
    | direct =>
      simp only [Tag.apply, mul_eq, div_eq]
      rw [eq_div_iff hrest, mul_comm]
    | inverse =>
      obtain ⟨hx, hw⟩ := hdivisor x h
      simp only [Tag.apply, div_eq]
      rw [div_eq_iff hx, eq_div_iff hw, mul_comm w, eq_comm]

/-- Arithmetic has the value and the operands of its chain. -/
theorem Operation.value?_of_chain? {op : Operation K} {family : Family}
    {terms : List (Sense × K)} (h : op.chain? = some (family, terms)) :
    op.value? = some (family.chainValue terms) ∧ op.operands = terms.map Prod.snd := by
  cases op with
  | binary op l r =>
    cases op with
    | pow => cases h
    | arith tag =>
      obtain ⟨rfl, rfl⟩ := Prod.mk.inj (Option.some.inj h)
      refine ⟨?_, rfl⟩
      change some (tag.apply l r) =
        some (tag.apply ((⟨tag.family, .direct⟩ : Tag).apply tag.family.neutral l) r)
      rw [Tag.apply_neutral_left]
  | chain own terms' =>
    cases h
    exact ⟨rfl, rfl⟩
  | _ => cases h

end Field

/-- An operation that can be inverted has a value exactly if the operand has the required one. -/
theorem Operation.value_eq_iff {K : Type} [Field K] [Scalar K] [Scalar.IsExact K]
    {op : Operation K} {index : Nat} {x v w : K} (hop : op.opcode.isInvertible = true)
    (hx : op.operands[index]? = some x) (hv : op.value? = some v) (hinverts : op.Inverts index w) :
    v = w ↔ x = op.required index w := by
  cases hchain : op.chain? with
  | some c =>
    obtain ⟨family, terms⟩ := c
    obtain ⟨hvalue, hoperands⟩ := Operation.value?_of_chain? hchain
    obtain rfl := Option.some.inj (hvalue.symm.trans hv)
    rw [hoperands, List.getElem?_map] at hx
    obtain ⟨⟨sense, y⟩, hterm, rfl⟩ := Option.map_eq_some_iff.mp hx
    simp only [Inverts, hchain] at hinverts
    simp only [required, hchain]
    exact family.chainValue_eq_iff hterm hinverts
  | none =>
    cases op with
    | independent => cases hop
    | select c l r t f => cases hop
    | chain family terms => cases hchain
    | binary op l r => cases op with
      | pow => cases hop
      | arith tag => cases hchain
    | copy y =>
      obtain rfl := Option.some.inj hv
      obtain rfl : x = y := List.mem_singleton.mp (List.mem_of_getElem? hx)
      rfl
    | unary op y =>
      obtain rfl := Option.some.inj hv
      obtain rfl : x = y := List.mem_singleton.mp (List.mem_of_getElem? hx)
      match op with
      | .sign => cases hop
      | .neg =>
        change Scalar.neg x = w ↔ x = Scalar.neg w
        rw [Scalar.IsExact.neg_eq, Scalar.IsExact.neg_eq, neg_eq_iff_eq_neg]
      -- one direction undoes the function at the operand, the other at the required value
      | .call .exp | .call .log =>
        obtain ⟨hleft, hright⟩ := hinverts
        exact ⟨fun h => hleft.symm.trans (congrArg _ h), fun h => (congrArg _ h).trans hright⟩
      | .call .sqrt =>
        obtain ⟨hleft, hright⟩ := hinverts
        exact ⟨fun h => hleft.symm.trans (congrArg (fun u => Scalar.mul u u) h),
          fun h => (congrArg _ h).trans hright⟩
      | .call .abs | .call .acos | .call .asin | .call .atan | .call .cosh | .call .cos
      | .call .sinh | .call .sin | .call .tanh | .call .tan => cases hop

end Straightline
