import Straightline.Proofs.Render.Grammar
import Straightline.Proofs.Render.Reading

/-!
# Trees of expressions

The syntax tree that the text of an expression should have, and the values of syntax trees. The
tree of an expression has the value that the expression reads as, wherever literals have the values
that they were written for.
-/

namespace Straightline

variable {α : Type}

mutual

/-- Every constant of an expression has a property. -/
def Expression.Constants (P : α → Prop) : Expression α → Prop
  | .stored _ => True
  | .const v => P v
  | .copy x => x.Constants P
  | .unary _ x => x.Constants P
  | .binary _ l r => l.Constants P ∧ r.Constants P
  | .select _ l r t f => l.Constants P ∧ r.Constants P ∧ t.Constants P ∧ f.Constants P
  | .chain _ ts => ts.Constants P

/-- Every constant of a term has a property. -/
def Terms.Constants (P : α → Prop) : Terms α → Prop
  | .nil => True
  | .cons _ x rest => x.Constants P ∧ rest.Constants P

end

mutual

instance Expression.decidableConstants (P : α → Prop) [DecidablePred P] :
    (e : Expression α) → Decidable (e.Constants P)
  | .stored _ => .isTrue trivial
  | .const v => inferInstanceAs (Decidable (P v))
  | .copy x => Expression.decidableConstants P x
  | .unary _ x => Expression.decidableConstants P x
  | .binary _ l r =>
    have := Expression.decidableConstants P l
    have := Expression.decidableConstants P r
    inferInstanceAs (Decidable (l.Constants P ∧ r.Constants P))
  | .select _ l r t f =>
    have := Expression.decidableConstants P l
    have := Expression.decidableConstants P r
    have := Expression.decidableConstants P t
    have := Expression.decidableConstants P f
    inferInstanceAs (Decidable (l.Constants P ∧ r.Constants P ∧ t.Constants P ∧ f.Constants P))
  | .chain _ ts => Terms.decidableConstants P ts

instance Terms.decidableConstants (P : α → Prop) [DecidablePred P] :
    (ts : Terms α) → Decidable (ts.Constants P)
  | .nil => .isTrue trivial
  | .cons _ x rest =>
    have := Expression.decidableConstants P x
    have := Terms.decidableConstants P rest
    inferInstanceAs (Decidable (x.Constants P ∧ rest.Constants P))

end

namespace C

/-- The tree of a number that may begin with a minus sign. -/
def signedTree (s : String) : Tree :=
  match s.toList with
  | '-' :: cs => .neg (.number (String.ofList cs))
  | _ => .number s

/-- The tree of a constant. -/
def literalTree [Numeral α] (v : α) : Tree :=
  if Numeral.isNaN v then .name "NAN"
  else if Numeral.isInfinite v then
    if Numeral.isNegative v then .neg (.name "INFINITY") else .name "INFINITY"
  else signedTree (Numeral.text v)

/-- The tree of the sign of a value. -/
def signTree (x : Tree) : Tree :=
  .choice (.binary (.compare .gt) x (.number "0")) (.number "1")
    (.choice (.binary (.compare .eq) x (.number "0")) (.number "0") (.neg (.number "1")))

mutual

/-- The tree of an expression, with the trees of the stored nodes. Only chains that begin with a
direct term are written. -/
def treeOf [Numeral α] (place : NodeId → Tree) : Expression α → Tree
  | .stored id => place id
  | .const v => literalTree v
  | .copy x => treeOf place x
  | .unary .neg x => .neg (treeOf place x)
  | .unary .sign x => signTree (treeOf place x)
  | .unary (.call f) x => .call (functionName f) (.cons (treeOf place x) .nil)
  | .binary (.arith tag) l r => .binary (.arith tag) (treeOf place l) (treeOf place r)
  | .binary .pow l r => .call "pow" (.cons (treeOf place l) (.cons (treeOf place r) .nil))
  | .select c l r t f =>
    .choice (.binary (.compare c) (treeOf place l) (treeOf place r)) (treeOf place t)
      (treeOf place f)
  | .chain family (.cons .direct x rest) => termsTree place family (treeOf place x) rest
  | .chain _ _ => .name ""

/-- The terms of a chain applied from left to right to the tree before them. -/
def termsTree [Numeral α] (place : NodeId → Tree) (family : Family) : Tree → Terms α → Tree
  | l, .nil => l
  | l, .cons sense x rest =>
    termsTree place family (.binary (.arith ⟨family, sense⟩) l (treeOf place x)) rest

end

/-- Apply a function of the mathematical library. -/
def applyFunction [Scalar α] (f : String) : List α → Option α
  | [x] => (Elementary.all.find? (functionName · == f)).map (Scalar.call · x)
  | [x, y] => if f = "pow" then some (Scalar.pow x y) else none
  | _ => none

theorem applyFunction_functionName [Scalar α] (f : Elementary) (x : α) :
    applyFunction (functionName f) [x] = some (Scalar.call f x) := by
  cases f <;> rfl

mutual

/-- The value of a tree, from the values of numbers and variables. A comparison has no value, and
chooses between two. -/
def Tree.value [Scalar α] (number : String → Option α) (load : Tree → Option α) :
    Tree → Option α
  | .number s => number s
  | .name s => load (.name s)
  | .element array index => load (.element array index)
  | .call f args => do applyFunction f (← args.values number load)
  | .neg x => do return Scalar.neg (← x.value number load)
  | .binary (.arith tag) l r => do return tag.apply (← l.value number load) (← r.value number load)
  | .binary (.compare _) _ _ => none
  | .choice (.binary (.compare c) l r) t f => do
    return c.choose (← l.value number load) (← r.value number load) (← t.value number load)
      (← f.value number load)
  | .choice _ _ _ => none

/-- The values of arguments. -/
def Trees.values [Scalar α] (number : String → Option α) (load : Tree → Option α) :
    Trees → Option (List α)
  | .nil => some []
  | .cons x rest => do return (← x.value number load) :: (← rest.values number load)

end

section Value

variable [Numeral α] {number : String → Option α} {load : Tree → Option α} {place : NodeId → Tree}

theorem value_signTree (hzero : number "0" = some Scalar.zero) (hone : number "1" = some Scalar.one)
    (x : Tree) : (signTree x).value number load =
      (x.value number load).map Scalar.sign := by
  simp only [signTree, Tree.value, hzero, hone]
  cases x.value number load <;> rfl

mutual

/-- The value of the tree of an expression. -/
theorem value_treeOf (hzero : number "0" = some Scalar.zero)
    (hone : number "1" = some Scalar.one) : ∀ e : Expression α, e.Led →
      e.Constants (fun v => (literalTree v).value number load = some v) →
      (treeOf place e).value number load = e.read fun id => (place id).value number load
  | .stored id, _, _ => rfl
  | .const v, _, h => h
  | .copy x, hled, h => value_treeOf hzero hone x hled h
  | .unary .neg x, hled, h => by
    rw [treeOf, Tree.value, value_treeOf hzero hone x hled h]
    rfl
  | .unary .sign x, hled, h => by
    rw [treeOf, value_signTree hzero hone, value_treeOf hzero hone x hled h, Expression.read]
    cases x.read fun id => (place id).value number load <;> rfl
  | .unary (.call f) x, hled, h => by
    rw [treeOf, Tree.value, Trees.values, Trees.values, value_treeOf hzero hone x hled h,
      Expression.read]
    cases x.read fun id => (place id).value number load with
    | none => rfl
    | some v => exact applyFunction_functionName f v
  | .binary (.arith tag) l r, hled, h => by
    rw [treeOf, Tree.value, value_treeOf hzero hone l hled.1 h.1,
      value_treeOf hzero hone r hled.2 h.2]
    rfl
  | .binary .pow l r, hled, h => by
    rw [treeOf, Tree.value, Trees.values, Trees.values, Trees.values,
      value_treeOf hzero hone l hled.1 h.1, value_treeOf hzero hone r hled.2 h.2, Expression.read]
    cases l.read fun id => (place id).value number load with
    | none => rfl
    | some v => cases r.read fun id => (place id).value number load <;> rfl
  | .select c l r t f, hled, h => by
    rw [treeOf, Tree.value, value_treeOf hzero hone l hled.1 h.1,
      value_treeOf hzero hone r hled.2.1 h.2.1, value_treeOf hzero hone t hled.2.2.1 h.2.2.1,
      value_treeOf hzero hone f hled.2.2.2 h.2.2.2]
    rfl
  | .chain family .nil, hled, _ => by cases hled.1
  | .chain family (.cons .inverse x rest), hled, _ => by cases hled.1
  | .chain family (.cons .direct x rest), hled, h => by
    rw [treeOf, value_termsTree hzero hone family rest hled.2.2 h.2,
      value_treeOf hzero hone x hled.2.1 h.1, Expression.read, Terms.read]
    cases x.read fun id => (place id).value number load with
    | none => rfl
    | some v => cases rest.read fun id => (place id).value number load <;> rfl

/-- The terms of a chain, from left to right. -/
theorem value_termsTree (hzero : number "0" = some Scalar.zero)
    (hone : number "1" = some Scalar.one) (family : Family) : ∀ (ts : Terms α), ts.Led →
      ts.Constants (fun v => (literalTree v).value number load = some v) → ∀ l : Tree,
      (termsTree place family l ts).value number load = (l.value number load).bind fun v =>
        (ts.read fun id => (place id).value number load).map (family.extend v)
  | .nil, _, _, l => by
    rw [termsTree, Terms.read]
    cases l.value number load <;> rfl
  | .cons sense x rest, hled, h, l => by
    rw [termsTree, value_termsTree hzero hone family rest hled.2 h.2, Tree.value,
      value_treeOf hzero hone x hled.1 h.1, Terms.read]
    cases l.value number load with
    | none => rfl
    | some u =>
      cases x.read fun id => (place id).value number load with
      | none => rfl
      | some v => cases rest.read fun id => (place id).value number load <;> rfl

end

end Value

end C

end Straightline
