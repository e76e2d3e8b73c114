import Straightline.Machine.Compile
import Straightline.Machine.Run

/-!
# Code of expressions

The code that the compiler appends for an expression pushes the value of the expression, whatever
stands on the stack and whatever code follows. It needs the cells of the stored nodes that the
expression loads, and its chain instructions need the tags that were appended with them; later tags
do no harm.
-/

namespace Straightline

variable {α : Type}

mutual

/-- Every stored node that an expression loads has a property. -/
def Expression.Loads (P : NodeId → Prop) : Expression α → Prop
  | .stored id => P id
  | .const _ => True
  | .copy x => x.Loads P
  | .unary _ x => x.Loads P
  | .binary _ l r => l.Loads P ∧ r.Loads P
  | .select _ l r t f => l.Loads P ∧ r.Loads P ∧ t.Loads P ∧ f.Loads P
  | .chain _ ts => ts.Loads P

/-- Every stored node that the terms of a chain load has a property. -/
def Terms.Loads (P : NodeId → Prop) : Terms α → Prop
  | .nil => True
  | .cons _ x rest => x.Loads P ∧ rest.Loads P

end

mutual

/-- What an expression loads keeps a weaker property. -/
theorem Expression.loads_mono {P Q : NodeId → Prop} (h : ∀ id, P id → Q id) :
    ∀ e : Expression α, e.Loads P → e.Loads Q
  | .stored id, he => h id he
  | .const _, _ => trivial
  | .copy x, he => x.loads_mono h he
  | .unary _ x, he => x.loads_mono h he
  | .binary _ l r, he => ⟨l.loads_mono h he.1, r.loads_mono h he.2⟩
  | .select _ l r t f, he =>
    ⟨l.loads_mono h he.1, r.loads_mono h he.2.1, t.loads_mono h he.2.2.1,
      f.loads_mono h he.2.2.2⟩
  | .chain _ ts, he => ts.loads_mono h he

/-- What the terms of a chain load keeps a weaker property. -/
theorem Terms.loads_mono {P Q : NodeId → Prop} (h : ∀ id, P id → Q id) :
    ∀ ts : Terms α, ts.Loads P → ts.Loads Q
  | .nil, _ => trivial
  | .cons _ x rest, hts => ⟨x.loads_mono h hts.1, rest.loads_mono h hts.2⟩

end

variable [Scalar α]

mutual

/-- The value of an expression, from the values of the stored nodes. -/
def Expression.eval (val : NodeId → α) : Expression α → α
  | .stored id => val id
  | .const v => v
  | .copy x => x.eval val
  | .unary op x => op.apply (x.eval val)
  | .binary op l r => op.apply (l.eval val) (r.eval val)
  | .select c l r t f => c.choose (l.eval val) (r.eval val) (t.eval val) (f.eval val)
  | .chain family ts =>
    Program.chainValue (ts.senses.map fun sense => ⟨family, sense⟩) (ts.eval val)

/-- The values of the terms of a chain. -/
def Terms.eval (val : NodeId → α) : Terms α → List α
  | .nil => []
  | .cons _ x rest => x.eval val :: rest.eval val

end

/-- A chain has as many values as senses. -/
theorem Terms.length_eval (val : NodeId → α) : ∀ ts : Terms α,
    (ts.eval val).length = ts.senses.length
  | .nil => rfl
  | .cons _ _ rest => congrArg (· + 1) (length_eval val rest)

/-- Code runs after code. -/
theorem Program.exec_append (p : Program α) (front back : List (Instruction α)) (b : Buffers α) :
    p.exec (front ++ back) b = (p.exec front b).bind (p.exec back) := by
  induction front generalizing b with
  | nil => rfl
  | cons i front ih =>
    simp only [List.cons_append, exec, bind, Except.bind]
    cases p.step b i with
    | error e => rfl
    | ok b' => exact ih b'

namespace Assembler

/-- The code appended between two states of the assembler takes buffers to buffers, in every
program that has the tags of the later state. -/
def Runs (a a' : Assembler α) (b b' : Buffers α) : Prop :=
  ∃ code tags, a'.instructions.toList = a.instructions.toList ++ code ∧
    a'.tags.toList = a.tags.toList ++ tags ∧
    ∀ p : Program α, a'.tags.toList <+: p.tags.toList → p.exec code b = .ok b'

variable {a a' a'' : Assembler α} {b b' b'' : Buffers α}

theorem Runs.refl (a : Assembler α) (b : Buffers α) : Runs a a b b :=
  ⟨[], [], (List.append_nil _).symm, (List.append_nil _).symm, fun _ _ => rfl⟩

/-- Pieces of code run one after the other. -/
theorem Runs.trans (h : Runs a a' b b') (h' : Runs a' a'' b' b'') : Runs a a'' b b'' := by
  obtain ⟨code, tags, hcode, htags, hexec⟩ := h
  obtain ⟨code', tags', hcode', htags', hexec'⟩ := h'
  refine ⟨code ++ code', tags ++ tags', ?_, ?_, ?_⟩
  · rw [hcode', hcode, List.append_assoc]
  · rw [htags', htags, List.append_assoc]
  · intro p hp
    have hprefix : a'.tags.toList <+: p.tags.toList := by
      rw [htags'] at hp
      exact (List.prefix_append _ _).trans hp
    rw [Program.exec_append, hexec p hprefix]
    exact hexec' p hp

/-- One instruction. -/
theorem runs_emit {i : Instruction α} (h : ∀ p : Program α, p.step b i = .ok b') :
    Runs a (a.emit i) b b' := by
  refine ⟨[i], [], ?_, ?_, ?_⟩
  · simp [emit]
  · simp [emit]
  · intro p _
    simp [Program.exec, h p, bind, Except.bind]

/-- A chain instruction combines the values on the stack with the tags appended for it. -/
theorem runs_emitChain {tags : List Tag} {values stack : List α}
    (hlength : values.length = tags.length) :
    Runs a (a.emitChain tags) { b with stack := values.reverse ++ stack }
      { b with stack := Program.chainValue tags values :: stack } := by
  refine ⟨[.chain a.tags.size tags.length], tags, ?_, ?_, ?_⟩
  · simp [emitChain, emit]
  · simp [emitChain, emit]
  · intro p hp
    obtain ⟨rest, hrest⟩ := hp
    have htags : p.tags.toList = a.tags.toList ++ (tags ++ rest) := by
      rw [← hrest]
      simp [emitChain, emit]
    have hsize : p.tags.size = a.tags.size + (tags.length + rest.length) := by
      rw [← Array.length_toList, htags, List.length_append, List.length_append,
        Array.length_toList]
    have hextract : (p.tags.extract a.tags.size (a.tags.size + tags.length)).toList = tags := by
      rw [Array.toList_extract, htags, List.extract_eq_take_drop, Nat.add_sub_cancel_left,
        ← Array.length_toList, List.drop_left, List.take_left]
    have hshort : ¬ (values.reverse ++ stack).length < tags.length := by
      rw [List.length_append, List.length_reverse]
      omega
    have hrange : ¬ p.tags.size < a.tags.size + tags.length := by omega
    have htake : (values.reverse ++ stack).take tags.length = values.reverse := by
      rw [← hlength, ← List.length_reverse, List.take_left]
    have hdrop : (values.reverse ++ stack).drop tags.length = stack := by
      rw [← hlength, ← List.length_reverse, List.drop_left]
    simp only [Program.exec, Program.step, if_neg hshort, if_neg hrange, hextract, htake, hdrop,
      List.reverse_reverse, bind, Except.bind]

section Expression

variable (slot : NodeId → Nat) (val : NodeId → α)

/-- The cell of a stored node holds its value. -/
def Loaded (b : Buffers α) (id : NodeId) : Prop := b.cells[slot id]? = some (some (val id))

mutual

/-- The code of an expression pushes its value. -/
theorem runs_expression : ∀ (e : Expression α) (a : Assembler α) (b : Buffers α),
    e.Loads (Loaded slot val b) →
    Runs a (expression slot e a) b { b with stack := e.eval val :: b.stack }
  | .stored id, a, b, h => by
    refine runs_emit fun p => ?_
    have hcell : b.cells[slot id]? = some (some (val id)) := h
    simp only [Program.step, hcell, Expression.eval]
  | .const v, a, b, _ => runs_emit fun _ => rfl
  | .copy x, a, b, h => runs_expression x a b h
  | .unary op x, a, b, h => (runs_expression x a b h).trans (runs_emit fun _ => rfl)
  | .binary op l r, a, b, h =>
    ((runs_expression l a b h.1).trans (runs_expression r _ _ h.2)).trans
      (runs_emit fun _ => rfl)
  | .select c l r t f, a, b, h =>
    ((((runs_expression l a b h.1).trans (runs_expression r _ _ h.2.1)).trans
      (runs_expression t _ _ h.2.2.1)).trans (runs_expression f _ _ h.2.2.2)).trans
      (runs_emit fun _ => rfl)
  | .chain family ts, a, b, h => by
    refine (runs_terms ts a b h).trans (runs_emitChain ?_)
    rw [List.length_map, ts.length_eval]

/-- The code of the terms of a chain pushes their values, the first one lowest. -/
theorem runs_terms : ∀ (ts : Terms α) (a : Assembler α) (b : Buffers α),
    ts.Loads (Loaded slot val b) →
    Runs a (terms slot ts a) b { b with stack := (ts.eval val).reverse ++ b.stack }
  | .nil, a, b, _ => Runs.refl a b
  | .cons sense x rest, a, b, h => by
    have hboth := (runs_expression x a b h.1).trans (runs_terms rest _ _ h.2)
    simpa [terms, Terms.eval] using hboth

end

end Expression

end Assembler

end Straightline
