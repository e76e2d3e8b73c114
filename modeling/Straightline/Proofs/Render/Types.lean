import Straightline.Proofs.Render.Literals

/-!
# Types of C expressions

An arithmetic expression of C is an integer or a floating point number, and a division of integers
is truncated. Names, calls and constants are floating, and only the numbers of a written sign are
integers. So a written expression divides integers exactly where both sides of a division are built
from signs alone.
-/

namespace Straightline

namespace C

/-- A number with a point or an exponent. -/
def isFloatingNumber (s : String) : Bool := s.toList.any (['.', 'e', 'E'].contains ·)

/-- An operation is floating if one of its operands is, and comparisons are integers. -/
def Tree.isFloating : Tree → Bool
  | .number s => isFloatingNumber s
  | .name _ => true
  | .element _ _ => true
  | .call _ _ => true
  | .neg x => x.isFloating
  | .binary (.arith _) l r => l.isFloating || r.isFloating
  | .binary (.compare _) _ _ => false
  | .choice _ t f => t.isFloating || f.isFloating

mutual

/-- The operands of every division in a tree. A subscript is part of a name. -/
def Tree.divisions : Tree → List (Tree × Tree)
  | .number _ => []
  | .name _ => []
  | .element _ _ => []
  | .call _ args => args.divisions
  | .neg x => x.divisions
  | .binary op l r =>
    (if op = .arith .div then [(l, r)] else []) ++ (l.divisions ++ r.divisions)
  | .choice c t f => c.divisions ++ (t.divisions ++ f.divisions)

/-- The operands of every division in the arguments of a call. -/
def Trees.divisions : Trees → List (Tree × Tree)
  | .nil => []
  | .cons x rest => x.divisions ++ rest.divisions

end

/-- A division of two integers. -/
def isTruncated (d : Tree × Tree) : Bool := !d.1.isFloating && !d.2.isFloating

/-- Some division in a tree is truncated. -/
def Tree.truncates (x : Tree) : Bool := x.divisions.any isTruncated

theorem truncates_iff {x : Tree} : x.truncates = true ↔
    ∃ d ∈ x.divisions, d.1.isFloating = false ∧ d.2.isFloating = false := by
  simp [Tree.truncates, isTruncated]

theorem truncates_eq_false_iff {x : Tree} : x.truncates = false ↔
    ∀ d ∈ x.divisions, d.1.isFloating = true ∨ d.2.isFloating = true := by
  simp [Tree.truncates, isTruncated, or_iff_not_imp_left]

section Truncates

variable (x y z : Tree)

@[simp] theorem truncates_number (s : String) : (Tree.number s).truncates = false := rfl

@[simp] theorem truncates_name (s : String) : (Tree.name s).truncates = false := rfl

@[simp] theorem truncates_element (array : String) : (Tree.element array x).truncates = false := rfl

@[simp] theorem truncates_neg : (Tree.neg x).truncates = x.truncates := rfl

@[simp] theorem truncates_call (f : String) :
    (Tree.call f (.cons x .nil)).truncates = x.truncates := by
  simp [Tree.truncates, Tree.divisions, Trees.divisions]

@[simp] theorem truncates_call₂ (f : String) :
    (Tree.call f (.cons x (.cons y .nil))).truncates = (x.truncates || y.truncates) := by
  simp [Tree.truncates, Tree.divisions, Trees.divisions]

@[simp] theorem truncates_compare (c : Comparison) :
    (Tree.binary (.compare c) x y).truncates = (x.truncates || y.truncates) := by
  simp [Tree.truncates, Tree.divisions]

@[simp] theorem truncates_arith (tag : Tag) : (Tree.binary (.arith tag) x y).truncates =
    (tag = .div && isTruncated (x, y) || (x.truncates || y.truncates)) := by
  by_cases htag : tag = .div <;> simp [Tree.truncates, Tree.divisions, htag]

@[simp] theorem truncates_choice : (Tree.choice x y z).truncates =
    (x.truncates || (y.truncates || z.truncates)) := by
  simp [Tree.truncates, Tree.divisions]

end Truncates

variable {s : String} {t : Tree}

theorem IsPlace.isFloating (h : IsPlace s t) : t.isFloating = true := by
  cases h <;> rfl

theorem IsPlace.truncates (h : IsPlace s t) : t.truncates = false := by
  cases h <;> rfl

/-- The type of a sign is that of its numbers. -/
theorem isFloating_signTree (x : Tree) : (signTree x).isFloating = false := rfl

theorem truncates_signTree (x : Tree) : (signTree x).truncates = x.truncates := by
  simp [signTree]

end C

variable {α : Type}

mutual

/-- Whether an expression is built from signs alone. -/
def Expression.isIntegral : Expression α → Bool
  | .stored _ => false
  | .const _ => false
  | .copy x => x.isIntegral
  | .unary .neg x => x.isIntegral
  | .unary .sign _ => true
  | .unary (.call _) _ => false
  | .binary (.arith _) l r => l.isIntegral && r.isIntegral
  | .binary .pow _ _ => false
  | .select _ _ _ t f => t.isIntegral && f.isIntegral
  | .chain _ ts => ts.isIntegral

/-- Whether all terms are built from signs alone. -/
def Terms.isIntegral : Terms α → Bool
  | .nil => true
  | .cons _ x rest => x.isIntegral && rest.isIntegral

end

mutual

/-- Whether something built from signs alone is divided by something built from signs alone. -/
def Expression.dividesSigns : Expression α → Bool
  | .stored _ => false
  | .const _ => false
  | .copy x => x.dividesSigns
  | .unary _ x => x.dividesSigns
  | .binary op l r =>
    op = .div && (l.isIntegral && r.isIntegral) || (l.dividesSigns || r.dividesSigns)
  | .select _ l r t f =>
    l.dividesSigns || r.dividesSigns || (t.dividesSigns || f.dividesSigns)
  | .chain family ts => ts.divideSigns family true

/-- The same for the terms of a chain, after terms that were built from signs alone or not. A term
is divided by the next one, so that flattening can bring signs together: `a / (b * x)` becomes
`a / b / x`. -/
def Terms.divideSigns (family : Family) : Bool → Terms α → Bool
  | _, .nil => false
  | integral, .cons sense x rest =>
    (⟨family, sense⟩ : Tag) = .div && (integral && x.isIntegral) ||
      (x.dividesSigns || rest.divideSigns family (integral && x.isIntegral))

end

section Unsigned

variable {R : Arg α → Expression α → Prop} {op : Operation (Arg α)} {e : Expression α}

/-- An operation other than a sign. -/
def Operation.Unsigned (op : Operation (Arg α)) : Prop := op.Led ∧ op.opcode ≠ .unary .sign

theorem Operation.lasting_unsigned : Operation.Lasting (α := α) Operation.Unsigned where
  led _ h := h.1
  chain family x rest := ⟨led_chain family x rest, by rintro ⟨⟩⟩
  arith _ _ _ := ⟨led_of_not_isChain rfl, by rintro ⟨⟩⟩
  copy _ := ⟨led_of_not_isChain rfl, by rintro ⟨⟩⟩
  map op f h := ⟨h.1.map f, by rw [opcode_map]; exact h.2⟩

/-- An expression that is not built from signs alone and does not divide such expressions. -/
def Expression.Floating (e : Expression α) : Prop := e.isIntegral = false ∧ e.dividesSigns = false

theorem Terms.divideSigns_ofList {ts : List (Sense × Expression α)} (h : ∀ t ∈ ts, t.2.Floating)
    (family : Family) (integral : Bool) : (ofList ts).divideSigns family integral = false := by
  induction ts generalizing integral with
  | nil => rfl
  | cons t ts ih =>
    obtain ⟨hintegral, hdivides⟩ := h t List.mem_cons_self
    rw [ofList, divideSigns, hintegral, hdivides,
      ih (fun u hu => h u (List.mem_cons_of_mem _ hu))]
    simp

/-- Without signs nothing is built from signs. -/
theorem Expression.Unfolds.floating (h : Unfolds (fun _ ex => ex.Floating) op e)
    (hop : op.Unsigned) : e.Floating := by
  cases h with
  | copy hx => exact hx
  | @unary u x ex hx =>
    cases u with
    | neg => exact hx
    | sign => exact absurd rfl hop.2
    | call f => exact ⟨rfl, hx.2⟩
  | @binary b l r el er hl hr =>
    cases b with
    | arith tag => simp [Floating, isIntegral, dividesSigns, hl.1, hl.2, hr.2]
    | pow => simp [Floating, isIntegral, dividesSigns, hl.2, hr.2]
  | select hl hr ht hf =>
    simp [Floating, isIntegral, dividesSigns, hl.2, hr.2, ht.1, ht.2, hf.2]
  | @chain family ts us hall =>
    have hus : ∀ u ∈ us, u.2.Floating := by
      intro u hu
      obtain ⟨t, _, _, ht⟩ := exists_mem_of_forall₂ hall hu
      exact ht
    obtain ⟨x, rest, rfl⟩ := hop.1 family ts (by simp [Operation.terms?])
    refine ⟨?_, Terms.divideSigns_ofList hus family true⟩
    cases hall with
    | @cons _ u _ us _ _ =>
      rw [isIntegral, Terms.ofList, Terms.isIntegral, (hus u List.mem_cons_self).1, Bool.false_and]

namespace Graph

variable {g : Graph α}

/-- A graph without signs expands without signs. -/
theorem Each.floating_expand (h : g.Each Operation.Unsigned) {depth : Nat} {x : Arg α}
    (he : g.expand depth x = .ok e) : e.Floating :=
  expand_induction (R := fun _ ex => ex.Floating) (fun _ => ⟨rfl, rfl⟩) (fun _ _ => ⟨rfl, rfl⟩)
    (fun id op _ hop _ hunfolds => hunfolds.floating (h id op hop)) he

/-- So do its stored nodes. -/
theorem Each.floating_expandNode (h : g.Each Operation.Unsigned) {id : NodeId}
    (he : g.expandNode id = .ok e) : e.Floating := by
  obtain ⟨op, hop, hunfolds⟩ :=
    exists_unfolds (R := fun _ ex => ex.Floating) (fun _ _ _ => h.floating_expand) he
  exact hunfolds.floating (h id op hop)

end Graph

end Unsigned

namespace C

/-- Finite numbers are written in scientific form. -/
class Scientific (α : Type) [Numeral α] : Prop extends Written α where
  /-- There is an exponent. -/
  exponent : ∀ v : α, Numeral.isNaN v = false → Numeral.isInfinite v = false →
    'e' ∈ (Numeral.text v).toList

theorem mem_scientific (d : Decimal) : 'e' ∈ d.scientific.toList := by
  unfold Decimal.scientific
  split
  dsimp only
  split
  · next hnil => exact absurd hnil Nat.toDigits_ne_nil
  · simp

theorem mem_text (L : Layout) {bits : Nat} (h : bits % L.signBit < L.infinity) :
    'e' ∈ (L.text bits).toList := by
  obtain ⟨d, _, htext⟩ := exists_text_eq_scientific L h
  rw [htext]
  exact mem_scientific d

instance : Scientific Float where
  exponent v hnan hinf :=
    mem_text .binary64 (mod_lt_infinity .binary64 (b := v.toBits.toBitVec) hnan hinf)

instance : Scientific Float32 where
  exponent v hnan hinf :=
    mem_text .binary32 (mod_lt_infinity .binary32 (b := v.toBits.toBitVec) hnan hinf)

section Tree

variable [Numeral α] {name : NodeId → String} {place : NodeId → Tree}

theorem isFloating_signedTree {s : String} (h : 'e' ∈ s.toList) :
    (signedTree s).isFloating = true := by
  rw [signedTree]
  split
  · next cs hs =>
    have hcs : 'e' ∈ cs := by simpa [hs] using h
    simpa [Tree.isFloating, isFloatingNumber] using ⟨'e', hcs, by decide⟩
  · simpa [Tree.isFloating, isFloatingNumber] using ⟨'e', h, by decide⟩

/-- Constants are floating. -/
theorem isFloating_literalTree [Scientific α] (v : α) : (literalTree v).isFloating = true := by
  rw [literalTree]
  split
  · rfl
  · next hnan =>
    split
    · split <;> rfl
    · next hinf =>
      exact isFloating_signedTree
        (Scientific.exponent v (by simpa using hnan) (by simpa using hinf))

theorem truncates_literalTree (v : α) : (literalTree v).truncates = false := by
  simp only [literalTree, signedTree]
  split
  · rfl
  · split
    · split <;> rfl
    · split <;> rfl

mutual

/-- An expression is written as an integer exactly if it is built from signs alone. -/
theorem isFloating_treeOf [Scientific α] : ∀ e : Expression α, e.Led →
    e.Loads (fun id => IsPlace (name id) (place id)) →
    (treeOf place e).isFloating = !e.isIntegral
  | .stored id, _, hloads => IsPlace.isFloating hloads
  | .const v, _, _ => isFloating_literalTree v
  | .copy x, hled, hloads => isFloating_treeOf x hled hloads
  | .unary .neg x, hled, hloads => isFloating_treeOf x hled hloads
  | .unary .sign x, _, _ => isFloating_signTree _
  | .unary (.call f) x, _, _ => rfl
  | .binary (.arith tag) l r, hled, hloads => by
    rw [treeOf, Tree.isFloating, isFloating_treeOf l hled.1 hloads.1,
      isFloating_treeOf r hled.2 hloads.2, Expression.isIntegral, Bool.not_and]
  | .binary .pow l r, _, _ => rfl
  | .select c l r t f, hled, hloads => by
    rw [treeOf, Tree.isFloating, isFloating_treeOf t hled.2.2.1 hloads.2.2.1,
      isFloating_treeOf f hled.2.2.2 hloads.2.2.2, Expression.isIntegral, Bool.not_and]
  | .chain _ .nil, hled, _ => by cases hled.1
  | .chain _ (.cons .inverse _ _), hled, _ => by cases hled.1
  | .chain family (.cons .direct x rest), hled, hloads => by
    rw [treeOf, isFloating_termsTree rest family _ hled.2.2 hloads.2,
      isFloating_treeOf x hled.2.1 hloads.1, Expression.isIntegral, Terms.isIntegral, Bool.not_and]

/-- Terms keep the type of what they are applied to if they are built from signs alone. -/
theorem isFloating_termsTree [Scientific α] : ∀ (ts : Terms α) (family : Family) (l : Tree),
    ts.Led → ts.Loads (fun id => IsPlace (name id) (place id)) →
    (termsTree place family l ts).isFloating = (l.isFloating || !ts.isIntegral)
  | .nil, _, l, _, _ => by simp [termsTree, Terms.isIntegral]
  | .cons sense x rest, family, l, hled, hloads => by
    rw [termsTree, isFloating_termsTree rest family _ hled.2 hloads.2, Tree.isFloating,
      isFloating_treeOf x hled.1 hloads.1, Terms.isIntegral, Bool.not_and, Bool.or_assoc]

end

mutual

/-- The text of an expression has a division of integers exactly where the expression divides what
is built from signs alone. -/
theorem truncates_treeOf [Scientific α] : ∀ e : Expression α, e.Led →
    e.Loads (fun id => IsPlace (name id) (place id)) →
    (treeOf place e).truncates = e.dividesSigns
  | .stored id, _, hloads => IsPlace.truncates hloads
  | .const v, _, _ => truncates_literalTree v
  | .copy x, hled, hloads => truncates_treeOf x hled hloads
  | .unary .neg x, hled, hloads => truncates_treeOf x hled hloads
  | .unary .sign x, hled, hloads => by
    rw [treeOf, truncates_signTree, truncates_treeOf x hled hloads, Expression.dividesSigns]
  | .unary (.call f) x, hled, hloads => by
    rw [treeOf, truncates_call, truncates_treeOf x hled hloads, Expression.dividesSigns]
  | .binary (.arith tag) l r, hled, hloads => by
    rw [treeOf, truncates_arith, truncates_treeOf l hled.1 hloads.1,
      truncates_treeOf r hled.2 hloads.2, isTruncated, isFloating_treeOf l hled.1 hloads.1,
      isFloating_treeOf r hled.2 hloads.2, Expression.dividesSigns]
    simp
  | .binary .pow l r, hled, hloads => by
    rw [treeOf, truncates_call₂, truncates_treeOf l hled.1 hloads.1,
      truncates_treeOf r hled.2 hloads.2, Expression.dividesSigns]
    rfl
  | .select c l r t f, hled, hloads => by
    rw [treeOf, truncates_choice, truncates_compare, truncates_treeOf l hled.1 hloads.1,
      truncates_treeOf r hled.2.1 hloads.2.1, truncates_treeOf t hled.2.2.1 hloads.2.2.1,
      truncates_treeOf f hled.2.2.2 hloads.2.2.2, Expression.dividesSigns]
  | .chain _ .nil, hled, _ => by cases hled.1
  | .chain _ (.cons .inverse _ _), hled, _ => by cases hled.1
  | .chain family (.cons .direct x rest), hled, hloads => by
    rw [treeOf, truncates_termsTree rest family _ hled.2.2 hloads.2,
      isFloating_treeOf x hled.2.1 hloads.1, truncates_treeOf x hled.2.1 hloads.1,
      Expression.dividesSigns, Terms.divideSigns]
    simp

/-- The same for the terms that are applied to a tree. -/
theorem truncates_termsTree [Scientific α] : ∀ (ts : Terms α) (family : Family) (l : Tree),
    ts.Led → ts.Loads (fun id => IsPlace (name id) (place id)) →
    (termsTree place family l ts).truncates =
      (l.truncates || ts.divideSigns family (!l.isFloating))
  | .nil, _, l, _, _ => (Bool.or_false _).symm
  | .cons sense x rest, family, l, hled, hloads => by
    rw [termsTree, truncates_termsTree rest family _ hled.2 hloads.2, truncates_arith,
      Tree.isFloating, isTruncated, isFloating_treeOf x hled.1 hloads.1,
      truncates_treeOf x hled.1 hloads.1, Terms.divideSigns, Bool.not_or, Bool.not_not]
    ac_rfl

end

end Tree

end C

end Straightline
