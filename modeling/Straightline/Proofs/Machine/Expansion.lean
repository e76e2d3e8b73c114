import Mathlib.Data.List.Forall2
import Straightline.Proofs.Generation.Scheduled
import Straightline.Proofs.Machine.Code

/-!
# Expansion of operands

Expanding an operand of a prepared graph succeeds, since the graph is not nested deeper than it has
nodes. The expression loads the stored nodes that the operand leads to through nodes without a
slot, and it has the value of the operand under every valuation.
-/

namespace Straightline

variable {α : Type}

/-- Applying a function that succeeds on every entry of a list. -/
theorem exists_mapM_ok {ε β γ : Type} {f : β → Except ε γ} {R : β → γ → Prop} {l : List β}
    (h : ∀ x ∈ l, ∃ y, f x = .ok y ∧ R x y) : ∃ ys, l.mapM f = .ok ys ∧ List.Forall₂ R l ys := by
  induction l with
  | nil => exact ⟨[], rfl, .nil⟩
  | cons x l ih =>
    obtain ⟨y, hy, hR⟩ := h x List.mem_cons_self
    obtain ⟨ys, hys, hall⟩ := ih fun z hz => h z (List.mem_cons_of_mem _ hz)
    refine ⟨y :: ys, ?_, .cons hR hall⟩
    rw [List.mapM_cons, hy]
    simp only [bind, Except.bind, hys]
    rfl

/-- Applying a function that has a known answer on every entry of a list. -/
theorem mapM_eq_ok_map {ε β γ : Type} {f : β → Except ε γ} {answer : β → γ} {l : List β}
    (h : ∀ x ∈ l, f x = .ok (answer x)) : l.mapM f = .ok (l.map answer) := by
  have hanswers : ∀ x ∈ l, ∃ y, f x = .ok y ∧ answer x = y := fun x hx => ⟨_, h x hx, rfl⟩
  obtain ⟨ys, hys, hall⟩ := exists_mapM_ok hanswers
  have hmap : l.map answer = ys := by
    rw [← List.forall₂_eq_eq_eq, List.forall₂_map_left_iff]
    exact hall
  rw [hys, hmap]

/-- An entry on the right of related lists has its partner on the left. -/
theorem exists_mem_of_forall₂ {β γ : Type} {R : β → γ → Prop} {l : List β} {l' : List γ}
    (h : List.Forall₂ R l l') {y : γ} (hy : y ∈ l') : ∃ x ∈ l, R x y := by
  induction h with
  | nil => simp at hy
  | @cons x z l l' hxz _ ih =>
    rcases List.mem_cons.mp hy with rfl | hy
    · exact ⟨x, List.mem_cons_self, hxz⟩
    · obtain ⟨w, hw, hwy⟩ := ih hy
      exact ⟨w, List.mem_cons_of_mem _ hw, hwy⟩

/-- The stored nodes that an operand leads to. -/
def Graph.Leaf (g : Graph α) (x : Arg α) (k : NodeId) : Prop :=
  ∃ id, x = .node id ∧ (g.slot id ≠ 0 ∧ k = id ∨ g.slot id = 0 ∧ Reads g.references g.slot id k)

/-- What an operand of a node leads to is read by the node. -/
theorem Graph.Leaf.reads {g : Graph α} {id : NodeId} {op : Operation (Arg α)} {x : Arg α}
    {k : NodeId} (hop : g.operation? id = some op) (hx : x ∈ op.operands) (h : g.Leaf x k) :
    Reads g.references g.slot id k := by
  obtain ⟨m, rfl, hleaf⟩ := h
  have hm := mem_references_of_operand hop hx
  rcases hleaf with ⟨hslot, rfl⟩ | ⟨hslot, hread⟩
  · exact .direct hm hslot
  · exact .through hm hslot hread

namespace Terms

/-- The senses of terms from a list. -/
theorem senses_ofList (ts : List (Sense × Expression α)) :
    (ofList ts).senses = ts.map Prod.fst := by
  induction ts with
  | nil => rfl
  | cons t ts ih => simp [ofList, senses, ih]

theorem loads_ofList {P : NodeId → Prop} {ts : List (Sense × Expression α)}
    (h : ∀ t ∈ ts, t.2.Loads P) : (ofList ts).Loads P := by
  induction ts with
  | nil => trivial
  | cons t ts ih =>
    exact ⟨h t List.mem_cons_self, ih fun u hu => h u (List.mem_cons_of_mem _ hu)⟩

variable [Scalar α]

theorem eval_ofList (val : NodeId → α) (ts : List (Sense × Expression α)) :
    (ofList ts).eval val = ts.map fun t => t.2.eval val := by
  induction ts with
  | nil => rfl
  | cons t ts ih => simp [ofList, eval, ih]

end Terms

variable [Scalar α]

/-- The machine starts a chain that has a term from the neutral value of its family. -/
theorem Program.chainValue_eq (family : Family) {terms : List (Sense × α)} (h : terms ≠ []) :
    Program.chainValue (terms.map fun t => ⟨family, t.1⟩) (terms.map Prod.snd) =
      family.chainValue terms := by
  obtain ⟨t, rest, rfl⟩ := List.exists_cons_of_ne_nil h
  rw [Program.chainValue, Family.chainValue, List.zip_map']
  rfl

namespace Expression

variable {operand : Arg α → Except Error (Expression α)} {P : NodeId → Prop}
  {V : (NodeId → α) → Prop}

/-- An expression stands for an operand: it loads nodes with a property only and has the value of
the operand under the valuations considered. -/
structure Denotes (P : NodeId → Prop) (V : (NodeId → α) → Prop) (x : Arg α) (e : Expression α) :
    Prop where
  /-- What the expression loads. -/
  loads : e.Loads P
  /-- The value of the expression. -/
  eval : ∀ val, V val → e.eval val = x.eval val

/-- An operation is expanded if its operands are, and keeps its value. -/
theorem exists_ofOperation {op : Operation (Arg α)} (hne : op ≠ .independent)
    (hchain : ∀ family terms, op = .chain family terms → terms ≠ [])
    (h : ∀ x ∈ op.operands, ∃ e, operand x = .ok e ∧ Denotes P V x e) :
    ∃ e, ofOperation operand op = .ok e ∧ e.Loads P ∧
      ∀ val, V val → (op.map (Arg.eval val)).value? = some (e.eval val) := by
  cases op with
  | independent => exact absurd rfl hne
  | copy x =>
    obtain ⟨e, he, hx⟩ := h x (by simp [Operation.operands])
    refine ⟨.copy e, by simp [ofOperation, he, bind, Except.bind, pure, Except.pure], hx.loads, ?_⟩
    intro val hval
    simp [Operation.map, Operation.value?, eval, hx.eval val hval]
  | unary op x =>
    obtain ⟨e, he, hx⟩ := h x (by simp [Operation.operands])
    refine ⟨.unary op e, by simp [ofOperation, he, bind, Except.bind, pure, Except.pure],
      hx.loads, ?_⟩
    intro val hval
    simp [Operation.map, Operation.value?, eval, hx.eval val hval]
  | binary op l r =>
    obtain ⟨el, hel, hl⟩ := h l (by simp [Operation.operands])
    obtain ⟨er, her, hr⟩ := h r (by simp [Operation.operands])
    refine ⟨.binary op el er, by simp [ofOperation, hel, her, bind, Except.bind, pure, Except.pure],
      ⟨hl.loads, hr.loads⟩, ?_⟩
    intro val hval
    simp [Operation.map, Operation.value?, eval, hl.eval val hval, hr.eval val hval]
  | select c l r t f =>
    obtain ⟨el, hel, hl⟩ := h l (by simp [Operation.operands])
    obtain ⟨er, her, hr⟩ := h r (by simp [Operation.operands])
    obtain ⟨et, het, ht⟩ := h t (by simp [Operation.operands])
    obtain ⟨ef, hef, hf⟩ := h f (by simp [Operation.operands])
    refine ⟨.select c el er et ef,
      by simp [ofOperation, hel, her, het, hef, bind, Except.bind, pure, Except.pure],
      ⟨hl.loads, hr.loads, ht.loads, hf.loads⟩, ?_⟩
    intro val hval
    simp [Operation.map, Operation.value?, eval, hl.eval val hval, hr.eval val hval,
      ht.eval val hval, hf.eval val hval]
  | chain family terms =>
    have hterms : ∀ t ∈ terms, ∃ u, (do return (t.1, ← operand t.2) : Except Error _) = .ok u ∧
        (t.1 = u.1 ∧ Denotes P V t.2 u.2) := by
      intro t ht
      obtain ⟨e, he, hx⟩ := h t.2 (by simpa [Operation.operands] using ⟨t.1, ht⟩)
      exact ⟨(t.1, e), by simp [he, bind, Except.bind, pure, Except.pure], rfl, hx⟩
    obtain ⟨us, hus, hall⟩ := exists_mapM_ok hterms
    refine ⟨.chain family (.ofList us), ?_, Terms.loads_ofList ?_, ?_⟩
    · simp only [ofOperation, bind, Except.bind, pure, Except.pure] at hus ⊢
      rw [hus]
    · intro u hu
      obtain ⟨t, _, _, hx⟩ := exists_mem_of_forall₂ hall hu
      exact hx.loads
    · intro val hval
      have hmap : terms.map (fun t => (t.1, t.2.eval val)) =
          us.map fun u => (u.1, u.2.eval val) := by
        rw [← List.forall₂_eq_eq_eq, List.forall₂_map_left_iff, List.forall₂_map_right_iff]
        exact hall.imp fun t u htu => by rw [htu.1, htu.2.eval val hval]
      have hne' : us.map (fun u => (u.1, u.2.eval val)) ≠ [] := by
        rw [← hmap]
        simpa using hchain family terms rfl
      rw [eval, Terms.senses_ofList, Terms.eval_ofList, Operation.map, Operation.value?, hmap,
        ← Program.chainValue_eq family hne']
      simp [List.map_map, Function.comp_def]

end Expression

namespace Graph

variable {g : Graph α} {rank : NodeId → Nat}

/-- Some inputs have this valuation. -/
def Valuates (g : Graph α) (val : NodeId → α) : Prop := ∃ inputs, g.IsValuation inputs val

/-- The operation of a node is expanded if its operands are. -/
theorem Prepared.exists_ofOperation (h : g.Prepared) {operand : Arg α → Except Error (Expression α)}
    {id : NodeId} {op : Operation (Arg α)} (hop : g.operation? id = some op)
    (hne : op ≠ .independent)
    (hoperand : ∀ x ∈ op.operands, ∃ e, operand x = .ok e ∧
      Expression.Denotes (g.Leaf x) g.Valuates x e) :
    ∃ e, Expression.ofOperation operand op = .ok e ∧
      e.Loads (Reads g.references g.slot id) ∧ ∀ val, g.Valuates val → e.eval val = val id := by
  have hreads : ∀ x ∈ op.operands, ∃ e, operand x = .ok e ∧
      Expression.Denotes (Reads g.references g.slot id) g.Valuates x e := by
    intro x hx
    obtain ⟨e, he, hdenotes⟩ := hoperand x hx
    exact ⟨e, he, e.loads_mono (fun k hk => hk.reads hop hx) hdenotes.loads, hdenotes.eval⟩
  have hchain : ∀ family terms, op = .chain family terms → terms ≠ [] :=
    fun family terms heq => h.chains id family terms (heq ▸ hop)
  obtain ⟨e, he, hloads, hvalue⟩ := Expression.exists_ofOperation hne hchain hreads
  refine ⟨e, he, hloads, ?_⟩
  rintro val ⟨inputs, hval⟩
  have hrequired := hval id op hop
  rw [required?_of_ne inputs val id hne, hvalue val ⟨inputs, hval⟩] at hrequired
  exact Option.some.inj hrequired

/-- An operand is expanded within a depth above its rank. -/
theorem Prepared.exists_expand (h : g.Prepared) (hrank : Ranked g.references rank) {depth : Nat}
    {x : Arg α} (hx : ∀ id, x = .node id → g.contains id = true ∧ rank id < depth) :
    ∃ e, g.expand depth x = .ok e ∧ Expression.Denotes (g.Leaf x) g.Valuates x e := by
  induction depth generalizing x with
  | zero =>
    cases x with
    | const v => exact ⟨.const v, rfl, trivial, fun _ _ => rfl⟩
    | node id => exact absurd (hx id rfl).2 (Nat.not_lt_zero _)
  | succ depth ih =>
    cases x with
    | const v => exact ⟨.const v, rfl, trivial, fun _ _ => rfl⟩
    | node id =>
      obtain ⟨hlive, hdepth⟩ := hx id rfl
      by_cases hslot : g.slot id = 0
      · obtain ⟨op, hop⟩ := contains_iff.mp hlive
        have hoperand : ∀ y ∈ op.operands, ∃ e, g.expand depth y = .ok e ∧
            Expression.Denotes (g.Leaf y) g.Valuates y e := by
          intro y hy
          refine ih fun k hk => ?_
          have hmem := mem_references_of_operand hop (hk ▸ hy)
          have hlt := hrank id k hmem
          exact ⟨h.closed id k hmem, by omega⟩
        obtain ⟨e, he, hloads, hvalue⟩ :=
          h.exists_ofOperation hop (h.ne_independent hop hslot) hoperand
        refine ⟨e, ?_, e.loads_mono (fun k hk => ⟨id, rfl, .inr ⟨hslot, hk⟩⟩) hloads, hvalue⟩
        simp only [expand, hslot, ne_eq, not_true_eq_false, if_false, hop, he]
      · refine ⟨.stored id, ?_, ⟨id, rfl, .inl ⟨hslot, rfl⟩⟩, fun _ _ => rfl⟩
        simp only [expand, hslot, ne_eq, not_false_eq_true, if_true]

/-- A stored node is expanded. -/
theorem Prepared.exists_expandNode (h : g.Prepared) {id : NodeId} (hid : id ∈ g.order) :
    ∃ e, g.expandNode id = .ok e ∧
      e.Loads (Reads g.references g.slot id) ∧ ∀ val, g.Valuates val → e.eval val = val id := by
  obtain ⟨op, hop, hne⟩ := h.operation id hid
  obtain ⟨rank, hrank, hbound⟩ := h.ranked
  have hoperand : ∀ x ∈ op.operands, ∃ e, g.expand (g.next + 1) x = .ok e ∧
      Expression.Denotes (g.Leaf x) g.Valuates x e := by
    intro x hx
    refine h.exists_expand hrank fun k hk => ?_
    have hmem := mem_references_of_operand hop (hk ▸ hx)
    exact ⟨h.closed id k hmem, Nat.lt_succ_of_le (hbound k)⟩
  obtain ⟨e, he, hrest⟩ := h.exists_ofOperation hop hne hoperand
  refine ⟨e, ?_, hrest⟩
  simp only [expandNode, hop, he]

end Graph

end Straightline
