import Mathlib.Data.Set.Card
import Straightline.Proofs.Generation.References

/-!
# Counted references

The references to a node are the output positions that request it and the operand positions, of
nodes that the outputs reach, that refer to it. The count of a node is the number of its references:
an operand that stands twice in one operation is two references.
-/

namespace Straightline

namespace Graph

variable {α : Type} {g : Graph α} {outputs : List (Arg α)} {id : NodeId}

/-- The outputs reach a node. -/
def Reached (g : Graph α) (outputs : List (Arg α)) (id : NodeId) : Prop :=
  ∃ root, .node root ∈ outputs ∧ Reaches g.references root id

/-- The outputs reach the operands of a node that they reach. -/
theorem Reached.tail (h : g.Reached outputs id) {k : NodeId} (hk : k ∈ g.references id) :
    g.Reached outputs k := by
  obtain ⟨root, hroot, hreach⟩ := h
  exact ⟨root, hroot, hreach.tail hk⟩

/-- The counted nodes are those that the outputs reach. -/
theorem mem_seen_iff_reached {seen : List NodeId} {refs : Table Nat}
    (hcounted : References.Counted g.references (outputs.filterMap Arg.node?) seen [] refs) :
    id ∈ seen ↔ g.Reached outputs id := by
  simp only [hcounted.mem_seen, Arg.mem_filterMap_node?, Reached]

/-- The output positions that request a node. -/
def requests (outputs : List (Arg α)) (id : NodeId) : Set Nat :=
  {i | outputs[i]? = some (.node id)}

/-- The operand positions, of nodes that the outputs reach, that refer to a node. -/
def edges (g : Graph α) (outputs : List (Arg α)) (id : NodeId) : Set (NodeId × Nat) :=
  {e | g.Reached outputs e.1 ∧ (g.operands e.1)[e.2]? = some (.node id)}

theorem references_eq_filterMap (g : Graph α) (id : NodeId) :
    g.references id = (g.operands id).filterMap Arg.node? := by
  rw [references, operands]
  cases g.operation? id with
  | none => rfl
  | some op => rfl

/-- The positions at which a node stands in a list of operands. -/
theorem encard_positions (operands : List (Arg α)) (id : NodeId) :
    {i : Nat | operands[i]? = some (.node id)}.encard =
      ((operands.filterMap Arg.node?).count id : ℕ∞) := by
  induction operands with
  | nil => simp
  | cons x operands ih =>
    have hsplit : {i : Nat | (x :: operands)[i]? = some (.node id)} =
        {i | i = 0 ∧ x = .node id} ∪ Nat.succ '' {i | operands[i]? = some (.node id)} := by
      ext i
      cases i with
      | zero => simp
      | succ i => simp
    have hdisjoint : Disjoint {i | i = 0 ∧ x = .node id}
        (Nat.succ '' {i | operands[i]? = some (.node id)}) := by
      rw [Set.disjoint_left]
      rintro i ⟨rfl, _⟩ ⟨j, _, hj⟩
      exact Nat.succ_ne_zero j hj
    rw [hsplit, Set.encard_union_eq hdisjoint, Nat.succ_injective.encard_image, ih]
    cases x with
    | const v =>
      rw [List.filterMap_cons_none rfl]
      simp
    | node k =>
      by_cases hk : k = id
      · simp [hk, Arg.node?, add_comm]
      · simp [hk, Arg.node?]

/-- The operand positions of different nodes are different. -/
theorem encard_edges_of_nodup (g : Graph α) (id : NodeId) {seen : List NodeId}
    (hnodup : seen.Nodup) :
    {e : NodeId × Nat | e.1 ∈ seen ∧ (g.operands e.1)[e.2]? = some (.node id)}.encard =
      ((seen.flatMap g.references).count id : ℕ∞) := by
  induction seen with
  | nil => simp
  | cons parent seen ih =>
    obtain ⟨hnew, hnodup⟩ := List.nodup_cons.mp hnodup
    have hsplit :
        {e : NodeId × Nat | e.1 ∈ parent :: seen ∧ (g.operands e.1)[e.2]? = some (.node id)} =
        Prod.mk parent '' {i | (g.operands parent)[i]? = some (.node id)} ∪
          {e | e.1 ∈ seen ∧ (g.operands e.1)[e.2]? = some (.node id)} := by
      ext ⟨k, i⟩
      constructor
      · rintro ⟨hk, hi⟩
        rcases List.mem_cons.mp hk with rfl | hk
        · exact .inl ⟨i, hi, rfl⟩
        · exact .inr ⟨hk, hi⟩
      · rintro (⟨j, hj, heq⟩ | ⟨hk, hi⟩)
        · cases heq
          exact ⟨List.mem_cons_self, hj⟩
        · exact ⟨List.mem_cons_of_mem _ hk, hi⟩
    have hdisjoint : Disjoint
        (Prod.mk parent '' {i | (g.operands parent)[i]? = some (.node id)})
        {e : NodeId × Nat | e.1 ∈ seen ∧ (g.operands e.1)[e.2]? = some (.node id)} := by
      rw [Set.disjoint_left]
      rintro _ ⟨i, _, rfl⟩ ⟨hmem, _⟩
      exact hnew hmem
    rw [hsplit, Set.encard_union_eq hdisjoint, (Prod.mk_right_injective parent).encard_image,
      encard_positions, ih hnodup, List.flatMap_cons, List.count_append, references_eq_filterMap,
      Nat.cast_add]

/-- The count of a node is the number of its references. -/
theorem countReferences_eq_encard (hclosed : g.Closed) (hbounded : g.Bounded)
    (hlive : ∀ id, Arg.node id ∈ outputs → g.contains id = true) (id : NodeId) :
    ((g.countReferences outputs).2.get id : ℕ∞) =
      (requests outputs id).encard + (g.edges outputs id).encard := by
  obtain ⟨seen, refs, hcount, hcounted⟩ := countReferences_complete hclosed hbounded hlive
  have hbalance := hcounted.balance id
  rw [List.count_nil, Nat.add_zero, List.count_append] at hbalance
  have hedges : g.edges outputs id =
      {e | e.1 ∈ seen ∧ (g.operands e.1)[e.2]? = some (.node id)} := by
    ext e
    exact and_congr_left fun _ => (mem_seen_iff_reached hcounted).symm
  rw [hcount, hbalance, hedges, encard_edges_of_nodup g id hcounted.nodup, requests,
    encard_positions, Nat.cast_add]

/-- A node that two operands refer to is counted more than once. -/
theorem one_lt_countReferences (hclosed : g.Closed) (hbounded : g.Bounded)
    (hlive : ∀ id, Arg.node id ∈ outputs → g.contains id = true) {e e' : NodeId × Nat}
    (he : e ∈ g.edges outputs id) (he' : e' ∈ g.edges outputs id) (hne : e ≠ e') :
    1 < (g.countReferences outputs).2.get id := by
  have hedges : 1 < (g.edges outputs id).encard := Set.one_lt_encard_iff.mpr ⟨e, e', he, he', hne⟩
  rw [← Nat.one_lt_cast (α := ℕ∞), countReferences_eq_encard hclosed hbounded hlive]
  exact hedges.trans_le le_add_self

/-- The count is zero exactly for the nodes that the outputs do not reach. -/
theorem countReferences_eq_zero_iff (hclosed : g.Closed) (hbounded : g.Bounded)
    (hlive : ∀ id, Arg.node id ∈ outputs → g.contains id = true) (id : NodeId) :
    (g.countReferences outputs).2.get id = 0 ↔ ¬ g.Reached outputs id := by
  obtain ⟨seen, refs, hcount, hcounted⟩ := countReferences_complete hclosed hbounded hlive
  rw [hcount, ← mem_seen_iff_reached hcounted, ← hcounted.seen_iff, not_not]

end Graph

end Straightline
