import Straightline.Graph.Traversal
import Straightline.Proofs.Graph.Valuation

/-!
# Exact reference counts

The count of a node is the number of output positions that request it plus the number of operands
that refer to it, over all nodes that the outputs reach. The proof follows the work stack: what is
counted already and what is still on the stack together make up these references. Counting is over
within the steps it is given, on any graph, and further steps do nothing. On a graph without
released nodes the stack is empty then.
-/

namespace Straightline

namespace References

variable {deps : NodeId → List NodeId} {roots seen stack : List NodeId} {refs : Table Nat}

/-- The state of counting, with the nodes whose references were pushed. -/
structure Counted (deps : NodeId → List NodeId) (roots seen stack : List NodeId)
    (refs : Table Nat) : Prop where
  /-- The references of a node are pushed once. -/
  nodup : seen.Nodup
  /-- They are pushed when the node is counted first. -/
  seen_iff : ∀ id, refs.get id ≠ 0 ↔ id ∈ seen
  /-- Counted and pending references make up all references. -/
  balance : ∀ id, refs.get id + stack.count id = (roots ++ seen.flatMap deps).count id
  /-- The stack holds only what the roots reach. -/
  stack_reached : ∀ id ∈ stack, ∃ root ∈ roots, Reaches deps root id
  /-- Only what the roots reach is counted. -/
  seen_reached : ∀ id ∈ seen, ∃ root ∈ roots, Reaches deps root id

theorem counted_start (deps : NodeId → List NodeId) (roots : List NodeId) :
    Counted deps roots [] roots.reverse ∅ where
  nodup := List.nodup_nil
  seen_iff id := by simp
  balance id := by simp
  stack_reached id hid := ⟨id, List.mem_reverse.mp hid, .refl⟩
  seen_reached id hid := by simp at hid

/-- The references of a node are pushed when it is counted for the first time. -/
theorem Counted.first {id : NodeId} (h : Counted deps roots seen (id :: stack) refs)
    (hid : refs.get id = 0) :
    Counted deps roots (id :: seen) ((deps id).reverse ++ stack)
      (refs.set id (refs.get id + 1)) where
  nodup := List.nodup_cons.mpr ⟨fun hmem => (h.seen_iff id).mpr hmem hid, h.nodup⟩
  seen_iff k := by
    rw [Table.get_set, List.mem_cons, ← h.seen_iff k]
    by_cases hk : k = id <;> simp [hk]
  balance k := by
    have hbalance := h.balance k
    rw [Table.get_set, List.count_append, List.count_reverse]
    simp only [List.count_append, List.flatMap_cons, List.count_cons] at hbalance ⊢
    by_cases hk : k = id
    · subst hk
      simp only [beq_self_eq_true, if_true] at hbalance ⊢
      omega
    · have hbeq : (id == k) = false := by simpa using fun h => hk h.symm
      simp only [hk, hbeq, if_false, Bool.false_eq_true] at hbalance ⊢
      omega
  stack_reached k hk := by
    rcases List.mem_append.mp hk with hk | hk
    · obtain ⟨root, hroot, hreach⟩ := h.stack_reached id List.mem_cons_self
      exact ⟨root, hroot, hreach.tail (List.mem_reverse.mp hk)⟩
    · exact h.stack_reached k (List.mem_cons_of_mem _ hk)
  seen_reached k hk := by
    rcases List.mem_cons.mp hk with rfl | hk
    · exact h.stack_reached k List.mem_cons_self
    · exact h.seen_reached k hk

/-- A node that was counted before is counted once more. -/
theorem Counted.again {id : NodeId} (h : Counted deps roots seen (id :: stack) refs)
    (hid : refs.get id ≠ 0) :
    Counted deps roots seen stack (refs.set id (refs.get id + 1)) where
  nodup := h.nodup
  seen_iff k := by
    rw [Table.get_set, ← h.seen_iff k]
    by_cases hk : k = id <;> simp [hk, hid]
  balance k := by
    have hbalance := h.balance k
    rw [Table.get_set]
    rw [List.count_cons] at hbalance
    by_cases hk : k = id
    · subst hk
      simp only [beq_self_eq_true, if_true] at hbalance ⊢
      omega
    · have hbeq : (id == k) = false := by simpa using fun h => hk h.symm
      simpa only [hk, hbeq, if_false, Bool.false_eq_true, Nat.add_zero] using hbalance
  stack_reached k hk := h.stack_reached k (List.mem_cons_of_mem _ hk)
  seen_reached := h.seen_reached

/-- Counting a node for the first time takes its weight off the work that is left. -/
theorem workLeft_first (weight : NodeId → Nat) {bound : Nat} {id : Nat} (hlt : id < bound)
    (hid : refs.get id = 0) :
    workLeft weight (fun k => (refs.set id (refs.get id + 1)).get k != 0) bound + weight id =
      workLeft weight (fun k => refs.get k != 0) bound :=
  workLeft_finish hlt (by simp [hid]) (by simp) fun k hk => by rw [Table.get_set_of_ne _ _ hk]

/-- Counting a node once more leaves the same work. -/
theorem workLeft_again (weight : NodeId → Nat) (bound : Nat) {id : NodeId}
    (hid : refs.get id ≠ 0) :
    workLeft weight (fun k => (refs.set id (refs.get id + 1)).get k != 0) bound =
      workLeft weight (fun k => refs.get k != 0) bound := by
  refine workLeft_congr fun k _ => ?_
  by_cases hk : k = id
  · subst hk
    simp [hid]
  · simp [Table.get_set_of_ne _ _ hk]

/-- As long as no released node is met, every step keeps the balance. -/
theorem Counted.count {references? : NodeId → Option (List NodeId)}
    (hdeps : ∀ id, (∃ root ∈ roots, Reaches deps root id) → references? id = some (deps id))
    (h : Counted deps roots seen stack refs) (fuel : Nat) :
    ∃ seen', Counted deps roots seen' (count references? fuel stack refs).1
      (count references? fuel stack refs).2 := by
  induction fuel generalizing seen stack refs with
  | zero => exact ⟨seen, h⟩
  | succ fuel ih =>
    cases stack with
    | nil => exact ⟨seen, h⟩
    | cons id stack =>
      simp only [References.count, hdeps id (h.stack_reached id List.mem_cons_self)]
      by_cases hid : refs.get id = 0
      · rw [if_pos hid]
        exact ih (h.first hid)
      · rw [if_neg hid]
        exact ih (h.again hid)

/-- Counting is over: the stack is empty, or a released node is on top of it. -/
def Halted (references? : NodeId → Option (List NodeId)) (stack : List NodeId) : Prop :=
  ∀ id rest, stack = id :: rest → references? id = none

/-- Counting is over after as many steps as there are nodes on the stack and operands to push,
whatever the references are. -/
theorem halted_count {references? : NodeId → Option (List NodeId)} (weight : NodeId → Nat)
    (bound : Nat) {fuel : Nat} (hissued : ∀ id children, references? id = some children →
      children.length ≤ weight id ∧ id < bound)
    (hfuel : stack.length + workLeft weight (fun id => refs.get id != 0) bound ≤ fuel) :
    Halted references? (count references? fuel stack refs).1 := by
  induction fuel generalizing stack refs with
  | zero =>
    obtain rfl : stack = [] := List.eq_nil_of_length_eq_zero (by omega)
    exact fun _ _ heq => by cases heq
  | succ fuel ih =>
    cases stack with
    | nil => exact fun _ _ heq => by cases heq
    | cons id stack =>
      rw [List.length_cons] at hfuel
      cases hrefs : references? id with
      | none =>
        intro k rest heq
        simp only [count, hrefs, List.cons.injEq] at heq
        exact heq.1 ▸ hrefs
      | some children =>
        obtain ⟨hpush, hlt⟩ := hissued id children hrefs
        simp only [count, hrefs]
        by_cases hid : refs.get id = 0
        · rw [if_pos hid]
          have hwork := workLeft_first weight hlt hid
          exact ih (by rw [List.length_append, List.length_reverse]; omega)
        · rw [if_neg hid]
          have hwork := workLeft_again weight bound hid
          exact ih (by omega)

/-- When counting is over, further steps do nothing. -/
theorem count_of_halted {references? : NodeId → Option (List NodeId)} {fuel fuel' : Nat}
    (h : Halted references? (count references? fuel stack refs).1) (hle : fuel ≤ fuel') :
    count references? fuel' stack refs = count references? fuel stack refs := by
  induction fuel generalizing fuel' stack refs with
  | zero =>
    cases fuel' with
    | zero => rfl
    | succ fuel' =>
      cases stack with
      | nil => rfl
      | cons id stack => simp [count, h id stack rfl]
  | succ fuel ih =>
    cases fuel' with
    | zero => omega
    | succ fuel' =>
      cases stack with
      | nil => rfl
      | cons id stack =>
        cases hrefs : references? id with
        | none => simp [count, hrefs]
        | some children =>
          simp only [count, hrefs] at h ⊢
          exact ih h (Nat.le_of_succ_le_succ hle)

/-- When the stack is empty, exactly what the roots reach is counted. -/
theorem Counted.mem_seen (h : Counted deps roots seen [] refs) {id : NodeId} :
    id ∈ seen ↔ ∃ root ∈ roots, Reaches deps root id := by
  have hmem : ∀ k ∈ roots ++ seen.flatMap deps, k ∈ seen := by
    intro k hk
    have hbalance := h.balance k
    have hpos := List.count_pos_iff.mpr hk
    rw [List.count_nil] at hbalance
    exact (h.seen_iff k).mp (by omega)
  refine ⟨h.seen_reached id, ?_⟩
  rintro ⟨root, hroot, hreach⟩
  induction hreach with
  | refl => exact hmem root (List.mem_append_left _ hroot)
  | tail _ hstep ih =>
    exact hmem _ (List.mem_append_right _ (List.mem_flatMap.mpr ⟨_, ih, hstep⟩))

end References

namespace Graph

variable {α : Type}

/-- Every identifier of a live node was issued. -/
def Bounded (g : Graph α) : Prop := ∀ id, g.contains id = true → id < g.next

/-- A node has no more references than operands. -/
theorem length_references_le (g : Graph α) (id : NodeId) :
    (g.references id).length ≤ (g.operands id).length := by
  simp only [references, operands]
  cases g.operation? id with
  | none => simp
  | some op => exact List.length_filterMap_le _ _

/-- What live nodes reach is live. -/
theorem Closed.contains_of_reaches {g : Graph α} (h : g.Closed) {a b : NodeId}
    (ha : g.contains a = true) (hab : Reaches g.references a b) : g.contains b = true := by
  induction hab with
  | refl => exact ha
  | tail _ hstep _ => exact h _ _ hstep

/-- The steps that counting is given are enough, whether the graph has cycles or released nodes or
not. -/
theorem halted_countReferences {g : Graph α} (hbounded : g.Bounded) (outputs : List (Arg α)) :
    References.Halted (fun id => (g.operation? id).map Operation.references)
      (g.countReferences outputs).1 := by
  refine References.halted_count (fun id => (g.operands id).length) g.next ?_ ?_
  · intro id children hrefs
    obtain ⟨op, hop, rfl⟩ := Option.map_eq_some_iff.mp hrefs
    rw [← references_of_operation hop]
    exact ⟨g.length_references_le id, hbounded id (contains_iff.mpr ⟨op, hop⟩)⟩
  · rw [List.length_reverse]
    simp [operandCount, ← workLeft_none]

/-- The references of a graph without released nodes are all counted. -/
theorem countReferences_complete {g : Graph α} (hclosed : g.Closed) (hbounded : g.Bounded)
    {outputs : List (Arg α)} (hlive : ∀ id, Arg.node id ∈ outputs → g.contains id = true) :
    ∃ seen refs, g.countReferences outputs = ([], refs) ∧
      References.Counted g.references (outputs.filterMap Arg.node?) seen [] refs := by
  have hdeps : ∀ id, (∃ root ∈ outputs.filterMap Arg.node?, Reaches g.references root id) →
      (g.operation? id).map Operation.references = some (g.references id) := by
    rintro id ⟨root, hroot, hreach⟩
    have hrootLive := hlive root (Arg.mem_filterMap_node?.mp hroot)
    obtain ⟨op, hop⟩ := contains_iff.mp (hclosed.contains_of_reaches hrootLive hreach)
    rw [hop, references_of_operation hop, Option.map_some]
  obtain ⟨seen, hcounted⟩ := (References.counted_start g.references _).count hdeps
    ((outputs.filterMap Arg.node?).length + g.operandCount)
  have hhalted := halted_countReferences hbounded outputs
  -- What is on the stack is reached and so not released.
  have hempty : (g.countReferences outputs).1 = [] := by
    cases hstack : (g.countReferences outputs).1 with
    | nil => rfl
    | cons id rest =>
      have hreached := hcounted.stack_reached id (hstack ▸ List.mem_cons_self)
      exact absurd (hdeps id hreached) (by simp [hhalted id rest hstack])
  have hcounted' : References.Counted g.references (outputs.filterMap Arg.node?) seen
      (g.countReferences outputs).1 (g.countReferences outputs).2 := hcounted
  rw [hempty] at hcounted'
  exact ⟨seen, _, Prod.ext hempty rfl, hcounted'⟩

/-- With any larger number of steps the result is the same. -/
theorem countReferences_of_le {g : Graph α} (hbounded : g.Bounded) (outputs : List (Arg α))
    {fuel : Nat} (hfuel : (outputs.filterMap Arg.node?).length + g.operandCount ≤ fuel) :
    References.count (fun id => (g.operation? id).map Operation.references) fuel
      (outputs.filterMap Arg.node?).reverse ∅ = g.countReferences outputs :=
  References.count_of_halted (halted_countReferences hbounded outputs) hfuel

end Graph

end Straightline
