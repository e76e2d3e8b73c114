import Straightline.Proofs.Graph.Paths
import Straightline.Solver.Inversion

/-!
# Building solutions

Undoing the operations of a path records one node after another. What holds of the graph and of the
answer after all of them is derived here from what holds after one: a frame is a relation between
graphs and a property of operands, such that an operation on operands with the property can be
recorded within the relation and has the property itself.
-/

namespace Straightline

namespace Build

variable {α β γ : Type} {g : Graph α}

/-- A computation that changes the graph within a relation, and answers with a property. -/
def Yields (R : Graph α → Graph α → Prop) (Q : Graph α → β → Prop) (g : Graph α)
    (m : Build α β) : Prop :=
  R g (m g).2 ∧ Q (m g).2 (m g).1

/-- Recording operations stays within a relation, from graphs with an invariant, as long as the
operands have a property. -/
structure Frame (I : Graph α → Prop) (R : Graph α → Graph α → Prop)
    (Q : Graph α → Arg α → Prop) : Prop where
  refl : ∀ {g}, I g → R g g
  trans : ∀ {g g' g''}, R g g' → R g' g'' → R g g''
  /-- The invariant holds afterwards. -/
  inv : ∀ {g g'}, R g g' → I g'
  /-- Constants have the property. -/
  const : ∀ g v, Q g (.const v)
  /-- Operands keep the property. -/
  keep : ∀ {g g' x}, R g g' → Q g x → Q g' x
  /-- An operation that depends on a node can be recorded. -/
  record : ∀ {g op}, I g → op.opcode.isChain = false → op.opcode ≠ .independent →
    op.references ≠ [] → (∀ x ∈ op.operands, Q g x) →
    R g (g.record op).2 ∧ Q (g.record op).2 (.node g.next)

/-- An answer that may be missing. -/
def Optionally (Q : Graph α → Arg α → Prop) (g : Graph α) (acc : Option (Arg α)) : Prop :=
  ∀ x, acc = some x → Q g x

/-- Two constants are folded. -/
theorem references_ne_nil [Scalar α] {op : Binary} {l r : Arg α}
    (h : op.shortcut? l.const? r.const? = none) : (Operation.binary op l r).references ≠ [] := by
  cases l with
  | node k => simp [Operation.references, Operation.operands, Arg.node?]
  | const a =>
    cases r with
    | node k => simp [Operation.references, Operation.operands, Arg.node?]
    | const b => simp [Arg.const?, Binary.shortcut?] at h

namespace Frame

variable {I : Graph α → Prop} {R : Graph α → Graph α → Prop} {Q : Graph α → Arg α → Prop}

theorem pure (h : Frame I R Q) (hg : I g) {P : Graph α → β → Prop} {x : β} (hx : P g x) :
    Yields R P g (Pure.pure x) :=
  ⟨h.refl hg, hx⟩

theorem bind (h : Frame I R Q) {P : Graph α → β → Prop} {P' : Graph α → γ → Prop} {m : Build α β}
    {f : β → Build α γ} (hm : Yields R P g m)
    (hf : ∀ g' x, R g g' → P g' x → Yields R P' g' (f x)) : Yields R P' g (m >>= f) := by
  obtain ⟨hrel, hanswer⟩ := hm
  obtain ⟨hrel', hanswer'⟩ := hf (m g).2 (m g).1 hrel hanswer
  exact ⟨h.trans hrel hrel', hanswer'⟩

variable [Scalar α]

theorem binary (h : Frame I R Q) (hg : I g) (op : Binary) {l r : Arg α} (hl : Q g l)
    (hr : Q g r) : Yields R Q g (Build.binary op l r) := by
  unfold Build.binary
  split
  · exact h.pure hg (h.const _ _)
  · exact h.pure hg hl
  · exact h.pure hg hr
  · next hnone =>
    refine h.record hg rfl (by simp [Operation.opcode]) (references_ne_nil hnone) ?_
    intro x hx
    obtain rfl | rfl : x = l ∨ x = r := by simpa [Operation.operands] using hx
    · exact hl
    · exact hr

theorem unary (h : Frame I R Q) (hg : I g) (op : Unary) {x : Arg α} (hx : Q g x) :
    Yields R Q g (Build.unary op x) := by
  cases x with
  | const v => exact h.pure hg (h.const _ _)
  | node k =>
    refine h.record hg rfl (by simp [Operation.opcode])
      (by simp [Operation.references, Operation.operands, Arg.node?]) ?_
    intro y hy
    obtain rfl : y = .node k := by simpa [Operation.operands] using hy
    exact hx

/-- A term is appended to a combination. -/
theorem addTerm (h : Frame I R Q) (hg : I g) (family : Family) {acc : Option (Arg α)}
    (hacc : Optionally Q g acc) {term : Sense × Arg α} (hterm : Q g term.2) :
    Yields R (Optionally Q) g (Inversion.addTerm family acc term) := by
  have hsome : ∀ g' (x : Arg α), R g g' → Q g' x →
      Yields R (Optionally Q) g' (Pure.pure (some x)) := by
    intro g' x hrel hx
    refine h.pure (h.inv hrel) ?_
    rintro _ ⟨⟩
    exact hx
  match acc, family, term with
  | some x, family, (sense, y) => exact h.bind (h.binary hg _ (hacc x rfl) hterm) hsome
  | none, family, (.direct, y) => exact hsome g y (h.refl hg) hterm
  | none, .additive, (.inverse, y) => exact h.bind (h.unary hg _ hterm) hsome
  | none, .multiplicative, (.inverse, y) =>
    exact h.bind (h.binary hg _ (h.const _ _) hterm) hsome

/-- The terms of a chain are combined in turn. -/
theorem foldlM_addTerm (h : Frame I R Q) (hg : I g) (family : Family)
    {terms : List (Sense × Arg α)} (hterms : ∀ term ∈ terms, Q g term.2) {acc : Option (Arg α)}
    (hacc : Optionally Q g acc) :
    Yields R (Optionally Q) g (terms.foldlM (Inversion.addTerm family) acc) := by
  induction terms generalizing g acc with
  | nil => exact h.pure hg hacc
  | cons term rest ih =>
    refine h.bind (h.addTerm hg family hacc (hterms term List.mem_cons_self)) fun g' acc' hrel => ?_
    exact ih (h.inv hrel) fun t ht => h.keep hrel (hterms t (List.mem_cons_of_mem _ ht))

theorem remainder (h : Frame I R Q) (hg : I g) (family : Family) {terms : List (Sense × Arg α)}
    {skip : Nat} (hterms : ∀ term ∈ terms.eraseIdx skip, Q g term.2) :
    Yields R Q g (Inversion.remainder family terms skip) := by
  have hnone : Optionally Q g (none : Option (Arg α)) := by
    intro x hx
    cases hx
  refine h.bind (h.foldlM_addTerm hg family hterms hnone) fun g' acc hrel hacc => ?_
  refine h.pure (h.inv hrel) ?_
  cases acc with
  | none => exact h.const _ _
  | some x => exact hacc x rfl

/-- Undoing an operation uses the operands beside the given position. -/
theorem undo (h : Frame I R Q) (hg : I g) {op : Operation (Arg α)} {index : Nat}
    (hop : ∀ i x, op.operands[i]? = some x → i ≠ index → Q g x) {value : Arg α}
    (hvalue : Q g value) : Yields R Q g (Inversion.undo op index value) := by
  unfold Inversion.undo
  split
  · next family l r =>
    refine h.binary hg _ hvalue ?_
    split
    · next heq => exact hop 1 r rfl (by simp [heq])
    · next hne => exact hop 0 l rfl (Ne.symm hne)
  · next family l r =>
    split
    · next heq => exact h.binary hg _ hvalue (hop 1 r rfl (by simp [heq]))
    · next hne => exact h.binary hg _ (hop 0 l rfl (Ne.symm hne)) hvalue
  · exact h.unary hg _ hvalue
  · exact h.unary hg _ hvalue
  · exact h.unary hg _ hvalue
  · exact h.binary hg _ hvalue hvalue
  · next family terms =>
    have hterms : ∀ term ∈ terms.eraseIdx index, Q g term.2 := by
      intro term hterm
      obtain ⟨i, hne, hi⟩ := List.mem_eraseIdx_iff_getElem?.mp hterm
      exact hop i term.2 (by simp [Operation.operands, hi]) hne
    refine h.bind (h.remainder hg family hterms) fun g' rest hrel hrest => ?_
    split
    · exact h.binary (h.inv hrel) _ hrest (h.keep hrel hvalue)
    · exact h.binary (h.inv hrel) _ (h.keep hrel hvalue) hrest
  · exact h.pure hg hvalue

/-- Undoing the operations of a path in turn. -/
theorem undoAll (h : Frame I R Q) (hg : I g) {steps : List (Operation (Arg α) × Nat)}
    (hsteps : ∀ step ∈ steps, ∀ i x, step.1.operands[i]? = some x → i ≠ step.2 → Q g x)
    {value : Arg α} (hvalue : Q g value) : Yields R Q g (Inversion.undoAll steps value) := by
  induction steps generalizing g value with
  | nil => exact h.pure hg hvalue
  | cons step rest ih =>
    have hfirst := h.undo hg (hsteps step List.mem_cons_self) hvalue
    refine h.bind hfirst fun g' x hrel hx => ih (h.inv hrel) (fun other hother i y hi hne => ?_) hx
    exact h.keep hrel (hsteps other (List.mem_cons_of_mem _ hother) i y hi hne)

end Frame

end Build

end Straightline
