import Straightline.Proofs.Generation.Demands
import Straightline.Proofs.Render.Statements

/-!
# Where ternaries stand

In C a select is written as a ternary, and a sign as two comparisons of its operand. If selects have
slots, an expression has no ternary of a select but at its root, where it is assigned. If signs are
of nodes with slots, the comparisons of a sign name a variable, and nothing is written twice.
-/

namespace Straightline

variable {α : Type}

namespace Expression

/-- A stored value, which is written as the name of a variable. -/
def IsName (e : Expression α) : Prop := ∃ id, e = .stored id

end Expression

mutual

/-- There is no select in an expression, and every sign is of a name. -/
def Expression.Branchless : Expression α → Prop
  | .stored _ => True
  | .const _ => True
  | .copy x => x.Branchless
  | .unary op x => (op = .sign → x.IsName) ∧ x.Branchless
  | .binary _ l r => l.Branchless ∧ r.Branchless
  | .select _ _ _ _ _ => False
  | .chain _ ts => ts.Branchless

/-- There is no select in the terms of a chain, and every sign is of a name. -/
def Terms.Branchless : Terms α → Prop
  | .nil => True
  | .cons _ x rest => x.Branchless ∧ rest.Branchless

end

/-- A select may stand at the root of an expression; below it there is none, and every sign is of a
name. -/
def Expression.BranchesAtRoot : Expression α → Prop
  | .select _ l r t f => l.Branchless ∧ r.Branchless ∧ t.Branchless ∧ f.Branchless
  | e => e.Branchless

theorem Expression.Branchless.branchesAtRoot {e : Expression α} (h : e.Branchless) :
    e.BranchesAtRoot := by
  cases e with
  | select => exact h.elim
  | _ => exact h

theorem Terms.branchless_ofList {ts : List (Sense × Expression α)}
    (h : ∀ t ∈ ts, t.2.Branchless) : (ofList ts).Branchless := by
  induction ts with
  | nil => trivial
  | cons t ts ih =>
    exact ⟨h t List.mem_cons_self, ih fun u hu => h u (List.mem_cons_of_mem _ hu)⟩

namespace Graph

variable {g : Graph α} {roots : List (Arg α)}

/-- What an operand of a guarded graph expands to: no select, and a name if the operand has a
slot. -/
def ExpandsBranchless (g : Graph α) (roots : List (Arg α)) (x : Arg α) (e : Expression α) : Prop :=
  (∀ k, x = .node k → g.Reached roots k) →
    e.Branchless ∧ ∀ k, x = .node k → g.slot k ≠ 0 → e.IsName

/-- Expressions of operands give an expression with a select at its root at most. -/
theorem Guarded.branchesAtRoot (h : g.Guarded roots) {id : NodeId} (hid : g.Reached roots id)
    {op : Operation (Arg α)} (hop : g.operation? id = some op) {e : Expression α}
    (hunfolds : Expression.Unfolds (g.ExpandsBranchless roots) op e) : e.BranchesAtRoot := by
  have hoperand : ∀ {x ex}, x ∈ op.operands → g.ExpandsBranchless roots x ex →
      ex.Branchless ∧ ∀ k, x = .node k → g.slot k ≠ 0 → ex.IsName := by
    intro x ex hx hexpands
    refine hexpands ?_
    rintro k rfl
    exact hid.tail (mem_references_of_operand hop hx)
  cases hunfolds with
  | copy hx => exact (hoperand (by simp [Operation.operands]) hx).1
  | @unary u x ex hx =>
    obtain ⟨hbranchless, hname⟩ := hoperand (by simp [Operation.operands]) hx
    refine ⟨?_, hbranchless⟩
    rintro rfl
    obtain ⟨k, rfl, hslot⟩ := h.signs id x hid hop
    exact hname k rfl hslot
  | binary hl hr =>
    exact ⟨(hoperand (by simp [Operation.operands]) hl).1,
      (hoperand (by simp [Operation.operands]) hr).1⟩
  | select hl hr ht hf =>
    exact ⟨(hoperand (by simp [Operation.operands]) hl).1,
      (hoperand (by simp [Operation.operands]) hr).1,
      (hoperand (by simp [Operation.operands]) ht).1,
      (hoperand (by simp [Operation.operands]) hf).1⟩
  | chain hall =>
    refine Terms.branchless_ofList fun u hu => ?_
    obtain ⟨t, htmem, _, ht⟩ := exists_mem_of_forall₂ hall hu
    exact (hoperand (List.mem_map.mpr ⟨t, htmem, rfl⟩) ht).1

/-- Operands of a guarded graph expand without selects. -/
theorem Guarded.expand (h : g.Guarded roots) {depth : Nat} {x : Arg α} {e : Expression α}
    (he : g.expand depth x = .ok e) : g.ExpandsBranchless roots x e := by
  refine expand_induction (fun v _ => ⟨trivial, by rintro k ⟨⟩⟩)
    (fun id _ _ => ⟨trivial, fun _ _ _ => ⟨id, rfl⟩⟩) ?_ he
  intro id op ex hop hzero hunfolds hid
  have hroot := h.branchesAtRoot (hid id rfl) hop hunfolds
  refine ⟨?_, by rintro k ⟨⟩ hslot; exact absurd hzero hslot⟩
  cases hunfolds with
  | select => exact absurd hzero (h.selects id _ (hid id rfl) hop rfl)
  | _ => exact hroot

/-- Stored nodes of a guarded graph expand with a select at the root at most. -/
theorem Guarded.expandNode (h : g.Guarded roots) {id : NodeId} (hid : g.Reached roots id)
    {e : Expression α} (he : g.expandNode id = .ok e) : e.BranchesAtRoot := by
  obtain ⟨op, hop, hunfolds⟩ := exists_unfolds (fun _ _ _ => h.expand) he
  exact h.branchesAtRoot hid hop hunfolds

end Graph

namespace C

/-- The statements of a guarded bundle have a ternary of a select at the root at most. -/
theorem Assigns.branchesAtRoot [Scalar α] {b : Bundle α} {s : Statement α} {x : Arg α}
    (h : Assigns b s x)
    (hguarded : b.graph.Guarded (b.graph.order.map Arg.node ++ b.outputs)) :
    s.value.BranchesAtRoot := by
  rcases h.source with ⟨id, hid, _, _, hexpand⟩ | ⟨i, hx, _, hexpand⟩
  · exact hguarded.expandNode
      ⟨id, List.mem_append_left _ (List.mem_map_of_mem hid), .refl⟩ hexpand
  · refine (hguarded.expand hexpand ?_).1.branchesAtRoot
    rintro k rfl
    exact ⟨k, List.mem_append_right _ (List.mem_of_getElem? hx), .refl⟩

end C

end Straightline
