import Mathlib.Data.Set.Card
import Straightline.Proofs.Graph.WellFormed

/-!
# Directed paths

A path leads from a node to a target through operands. It is written as its steps: at each node on
the way, target excluded, the operand position that leads on. So two operands that refer to the same
node give two paths, and a node that is reached in several ways is passed once in each of them. The
number of paths obeys the recursion over the operands.
-/

namespace Straightline

namespace Graph

variable {α : Type} {g : Graph α} {id target : NodeId}

/-- A graph of nodes of any kind, chains among them: references lead to live nodes, no node depends
on itself, and every live identifier was issued. -/
structure Proper (g : Graph α) : Prop where
  /-- References lead to live nodes. -/
  closed : g.Closed
  /-- No node depends on itself. -/
  acyclic : Acyclic g.references
  /-- Every live identifier was issued. -/
  issued : g.Bounded

/-- The graph of a handler is proper. -/
theorem WellFormed.proper (h : g.WellFormed) : g.Proper := ⟨h.closed_all, h.acyclic, h.issued⟩

theorem Proper.exists_ranked (h : g.Proper) :
    ∃ rank, Ranked g.references rank ∧ ∀ id, rank id ≤ g.next :=
  h.acyclic.exists_ranked fun a b hb => h.issued b (h.closed a b hb)

/-- Recording an operation on live operands keeps the graph proper. -/
theorem Proper.record (h : g.Proper) {op : Operation (Arg α)}
    (hrefs : ∀ k ∈ op.references, g.contains k = true) : (g.record op).2.Proper := by
  have hwrites := h.issued.writes_record op
  have hold : ∀ k, g.contains k = true → (g.record op).2.contains k = true := by
    intro k hk
    rw [contains, hwrites.node?]
    split
    · rfl
    · exact hk
  have hedge : ∀ a, ∀ b ∈ (g.record op).2.references a,
      b ∈ g.references a ∨ a = g.next ∧ g.contains b = true := by
    intro a b hb
    rw [hwrites.references] at hb
    split at hb
    · next heq => exact .inr ⟨heq, hrefs b hb⟩
    · exact .inl hb
  refine ⟨fun a b hb => hold b ?_, ?_, fun k hk => ?_⟩
  · rcases hedge a b hb with hb | ⟨_, hlive⟩
    · exact h.closed a b hb
    · exact hlive
  · refine h.acyclic.of_fresh (fun a b hb => h.issued b (h.closed a b hb)) fun a b hb => ?_
    exact (hedge a b hb).imp_right (And.imp_right (h.issued b))
  · rw [contains, hwrites.node?] at hk
    split at hk
    · next heq => exact heq ▸ Nat.lt_succ_self _
    · exact Nat.lt_succ_of_lt (h.issued k hk)

/-- Recording a node adds no path between nodes that exist. -/
theorem Proper.reaches_of_record (h : g.Proper) {op : Operation (Arg α)} {k j : NodeId}
    (hk : g.contains k = true) (hreach : Reaches (g.record op).2.references k j) :
    Reaches g.references k j := by
  have hboth : Reaches g.references k j ∧ g.contains j = true := by
    induction hreach with
    | refl => exact ⟨.refl, hk⟩
    | @tail b c _ hstep ih =>
      rw [(h.issued.writes_record op).references, if_neg (Nat.ne_of_lt (h.issued b ih.2))] at hstep
      exact ⟨ih.1.tail hstep, h.closed b c hstep⟩
  exact hboth.1

/-- A recorded node does not reach what its operands do not reach. -/
theorem Proper.not_reaches_record (h : g.Proper) {op : Operation (Arg α)}
    (htarget : g.contains target = true)
    (hrefs : ∀ k ∈ op.references, g.contains k = true ∧ ¬ Reaches g.references k target) :
    ¬ Reaches (g.record op).2.references g.next target := by
  intro hreach
  rcases hreach.cases_head with hself | ⟨k, hk, hrest⟩
  · exact Nat.lt_irrefl _ (hself ▸ h.issued target htarget)
  · rw [(h.issued.writes_record op).references, if_pos rfl] at hk
    obtain ⟨hlive, hnot⟩ := hrefs k hk
    exact hnot (h.reaches_of_record hlive hrest)

end Graph

/-- A step of a path: a node with its operation, and the operand position that leads on. -/
structure Step (α : Type) where
  /-- The node. -/
  node : NodeId
  /-- Its operation. -/
  operation : Operation (Arg α)
  /-- The position of the operand. -/
  position : Nat

namespace Graph

variable {α : Type} {g : Graph α} {id target : NodeId}

/-- The paths from a node to a target. -/
inductive Path (g : Graph α) (target : NodeId) : NodeId → List (Step α) → Prop where
  /-- The target is reached. -/
  | done : Path g target target []
  /-- An operand of a node leads on. -/
  | step {id child : NodeId} {op : Operation (Arg α)} {position : Nat} {rest : List (Step α)}
      (hop : g.operation? id = some op) (hchild : op.operands[position]? = some (.node child))
      (hrest : Path g target child rest) : Path g target id (⟨id, op, position⟩ :: rest)

/-- The number of paths from a node to a target. -/
noncomputable def pathCount (g : Graph α) (id target : NodeId) : ℕ∞ :=
  {steps | g.Path target id steps}.encard

/-- An operand of a step is a reference. -/
theorem mem_references_of_getElem? {op : Operation (Arg α)} {position : Nat} {child : NodeId}
    (hop : g.operation? id = some op) (hchild : op.operands[position]? = some (.node child)) :
    child ∈ g.references id :=
  mem_references_of_operand hop (List.mem_of_getElem? hchild)

theorem Path.reaches {steps : List (Step α)} (h : g.Path target id steps) :
    Reaches g.references id target := by
  induction h with
  | done => exact .refl
  | step hop hchild _ ih => exact .head (mem_references_of_getElem? hop hchild) ih

/-- A node that reaches the target has a path to it. -/
theorem exists_path (h : Reaches g.references id target) : ∃ steps, g.Path target id steps := by
  induction h using Relation.ReflTransGen.head_induction_on with
  | refl => exact ⟨[], .done⟩
  | @head id k hk _ ih =>
    obtain ⟨steps, hsteps⟩ := ih
    obtain ⟨op, hop⟩ : ∃ op, g.operation? id = some op := by
      cases hop : g.operation? id with
      | none => simp [references, hop] at hk
      | some op => exact ⟨op, rfl⟩
    rw [references_of_operation hop, Operation.mem_references] at hk
    obtain ⟨position, hposition⟩ := List.mem_iff_getElem?.mp hk
    exact ⟨_, .step hop hposition hsteps⟩

theorem pathCount_eq_zero_iff :
    g.pathCount id target = 0 ↔ ¬ Reaches g.references id target := by
  rw [pathCount, Set.encard_eq_zero, Set.eq_empty_iff_forall_notMem]
  constructor
  · intro hnone hreach
    obtain ⟨steps, hsteps⟩ := exists_path hreach
    exact hnone steps hsteps
  · exact fun hreach steps hsteps => hreach hsteps.reaches

theorem pathCount_eq_one_iff :
    g.pathCount id target = 1 ↔ ∃ steps, ∀ other, g.Path target id other ↔ other = steps := by
  rw [pathCount, Set.encard_eq_one]
  simp only [Set.ext_iff, Set.mem_ofPred_eq, Set.mem_singleton_iff]

/-- The steps from a node are taken at the node. -/
theorem Proper.ne_target (h : g.Proper) {step : Step α} {rest : List (Step α)}
    (hpath : g.Path target id (step :: rest)) : id ≠ target := by
  rintro rfl
  cases hpath with
  | step hop hchild hrest =>
    exact h.acyclic id (.head' (mem_references_of_getElem? hop hchild) hrest.reaches)

/-- One path leads from the target to itself. -/
theorem Proper.pathCount_self (h : g.Proper) (target : NodeId) : g.pathCount target target = 1 := by
  refine pathCount_eq_one_iff.mpr ⟨[], fun other => ⟨fun hother => ?_, ?_⟩⟩
  · cases other with
    | nil => rfl
    | cons step rest => exact absurd rfl (h.ne_target hother)
  · rintro rfl
    exact .done

/-- The paths that begin at a node with one of some operands, which stand from a position on. -/
private def pathsThrough (g : Graph α) (target id : NodeId) (op : Operation (Arg α))
    (operands : List (Arg α)) (start : Nat) : Set (List (Step α)) :=
  {steps | ∃ i child rest, operands[i]? = some (.node child) ∧ g.Path target child rest ∧
    steps = ⟨id, op, start + i⟩ :: rest}

private theorem pathsThrough_cons (op : Operation (Arg α)) (x : Arg α) (operands : List (Arg α))
    (start : Nat) :
    pathsThrough g target id op (x :: operands) start =
      {steps | ∃ child rest, x = .node child ∧ g.Path target child rest ∧
        steps = ⟨id, op, start⟩ :: rest} ∪ pathsThrough g target id op operands (start + 1) := by
  ext steps
  constructor
  · rintro ⟨i, child, rest, hi, hrest, rfl⟩
    cases i with
    | zero => exact .inl ⟨child, rest, by simpa using hi, hrest, rfl⟩
    | succ i =>
      exact .inr ⟨i, child, rest, by simpa using hi, hrest,
        by rw [Nat.add_right_comm, Nat.add_assoc]⟩
  · rintro (⟨child, rest, rfl, hrest, rfl⟩ | ⟨i, child, rest, hi, hrest, rfl⟩)
    · exact ⟨0, child, rest, rfl, hrest, rfl⟩
    · exact ⟨i + 1, child, rest, by simpa using hi, hrest,
        by rw [Nat.add_right_comm, Nat.add_assoc]⟩

/-- The paths through some operands are those from each of them. -/
private theorem encard_pathsThrough (id : NodeId) (op : Operation (Arg α))
    (operands : List (Arg α)) (start : Nat) :
    (pathsThrough g target id op operands start).encard =
      ((operands.filterMap Arg.node?).map fun child => g.pathCount child target).sum := by
  induction operands generalizing start with
  | nil => simp [pathsThrough]
  | cons x operands ih =>
    rw [pathsThrough_cons, Set.encard_union_eq, ih]
    · cases x with
      | const v =>
        rw [List.filterMap_cons_none rfl]
        simp
      | node child =>
        have himage : {steps | ∃ k rest, Arg.node child = (.node k : Arg α) ∧
            g.Path target k rest ∧ steps = ⟨id, op, start⟩ :: rest} =
            List.cons ⟨id, op, start⟩ '' {steps | g.Path target child steps} := by
          ext steps
          simp [eq_comm]
        rw [himage, List.cons_injective.encard_image]
        rfl
    · rw [Set.disjoint_left]
      rintro steps ⟨child, rest, rfl, _, rfl⟩ ⟨i, child', rest', _, _, heq⟩
      simp only [List.cons.injEq, Step.mk.injEq] at heq
      omega

/-- A path from another node than the target begins with a step. -/
theorem Path.exists_step {steps : List (Step α)} (h : g.Path target id steps) (hne : id ≠ target) :
    ∃ op position child rest, g.operation? id = some op ∧
      op.operands[position]? = some (.node child) ∧ g.Path target child rest ∧
      steps = ⟨id, op, position⟩ :: rest := by
  cases h with
  | done => exact absurd rfl hne
  | step hop hchild hrest => exact ⟨_, _, _, _, hop, hchild, hrest, rfl⟩

/-- The paths from another node than the target lead through its references. -/
theorem pathCount_eq_sum (hne : id ≠ target) :
    g.pathCount id target =
      ((g.references id).map fun child => g.pathCount child target).sum := by
  cases hop : g.operation? id with
  | none =>
    have hempty : g.pathCount id target = 0 := by
      rw [pathCount_eq_zero_iff]
      intro hreach
      rcases hreach.cases_head with rfl | ⟨k, hk, _⟩
      · exact hne rfl
      · simp [references, hop] at hk
    simp [hempty, references, hop]
  | some op =>
    rw [references_of_operation hop, Operation.references,
      ← encard_pathsThrough id op op.operands 0, pathCount]
    congr 1
    ext steps
    constructor
    · intro hsteps
      obtain ⟨op', position, child, rest, hop', hchild, hrest, rfl⟩ := Path.exists_step hsteps hne
      obtain rfl := Option.some.inj (hop.symm.trans hop')
      exact ⟨position, child, rest, hchild, hrest, by rw [Nat.zero_add]⟩
    · rintro ⟨i, child, rest, hchild, hrest, rfl⟩
      rw [Nat.zero_add]
      exact Path.step hop hchild hrest

/-- If a path is the only one, so is the rest of it from its second node. -/
theorem Path.unique_rest {child : NodeId} {op : Operation (Arg α)} {position : Nat}
    {rest : List (Step α)} (hop : g.operation? id = some op)
    (hchild : op.operands[position]? = some (.node child))
    (hunique : ∀ other, g.Path target id other → other = ⟨id, op, position⟩ :: rest)
    {other : List (Step α)} (hother : g.Path target child other) : other = rest :=
  List.tail_eq_of_cons_eq (hunique _ (.step hop hchild hother))

/-- The operands beside the only path do not reach the target. -/
theorem Path.beside {steps : List (Step α)} (h : g.Path target id steps)
    (hunique : ∀ other, g.Path target id other → other = steps) :
    ∀ step ∈ steps, ∀ i k, step.operation.operands[i]? = some (.node k) → i ≠ step.position →
      Reaches g.references id k ∧ ¬ Reaches g.references k target := by
  induction h with
  | done => simp
  | @step id child op position rest hop hchild _ ih =>
    intro step hstep i k hi hne
    rcases List.mem_cons.mp hstep with rfl | hstep
    · refine ⟨.single (mem_references_of_getElem? hop hi), fun hreach => hne ?_⟩
      obtain ⟨other, hother⟩ := exists_path hreach
      have heq := hunique _ (.step hop hi hother)
      simp only [List.cons.injEq, Step.mk.injEq] at heq
      exact heq.1.2.2
    · obtain ⟨hreach, hnot⟩ :=
        ih (fun other => Path.unique_rest hop hchild hunique) step hstep i k hi hne
      exact ⟨.head (mem_references_of_getElem? hop hchild) hreach, hnot⟩

end Graph

end Straightline
