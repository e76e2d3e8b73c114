import Straightline.Generation.Schedule
import Straightline.Proofs.Generation.References

/-!
# The recursive schedule

Scheduling by recursion: visiting a node goes through its operands in order, visits an operand
that was never reached, and then counts the use; the first use decides whether the operand is
stored. On a graph without cycles the explicit stack of frames computes exactly this, and the
number of steps it is given suffices: a walk takes one step for each node it enters and at most two
for each of its operands, and it enters no node twice.
-/

namespace Straightline

namespace Schedule

variable {α : Type}

/-- Count a use of a finished node and decide at the first one whether it is stored. -/
def count (g : Graph α) (policy : Policy α) (refs : Table Nat) (parent : NodeId) (arg : Nat)
    (child : NodeId) (s : Schedule) : Schedule :=
  if s.uses.get child = 0 then (s.use child).decideStorage g policy refs parent arg child
  else s.use child

/-- Go through operands from a position on, visiting what was never reached. -/
def visitOperands (g : Graph α) (policy : Policy α) (refs : Table Nat)
    (below : NodeId → Schedule → Schedule) (parent : NodeId) :
    List (Arg α) → Nat → Schedule → Schedule
  | [], _, s => s
  | .const _ :: rest, arg, s => visitOperands g policy refs below parent rest (arg + 1) s
  | .node child :: rest, arg, s =>
    let s := if s.uses.get child = 0 then below child s else s
    visitOperands g policy refs below parent rest (arg + 1)
      (s.count g policy refs parent arg child)

/-- Visit the operands of a node, to at most the given depth. -/
def visit (g : Graph α) (policy : Policy α) (refs : Table Nat) :
    Nat → NodeId → Schedule → Schedule
  | 0, _, s => s
  | depth + 1, id, s =>
    visitOperands g policy refs (visit g policy refs depth) id (g.operands id) 0 s

section Uses

variable (g : Graph α) (policy : Policy α) (refs : Table Nat)

@[simp] theorem uses_use (s : Schedule) (id : NodeId) :
    (s.use id).uses = s.uses.set id (s.uses.get id + 1) := rfl

@[simp] theorem uses_enqueue (s : Schedule) (id : NodeId) : (s.enqueue id).uses = s.uses := by
  simp only [enqueue]
  split <;> rfl

@[simp] theorem uses_decideStorage (parent : NodeId) (arg : Nat) (child : NodeId) (s : Schedule) :
    (s.decideStorage g policy refs parent arg child).uses = s.uses := by
  unfold decideStorage
  split
  · split
    · rfl
    · split
      · exact uses_enqueue s child
      · rfl
  · rfl

@[simp] theorem uses_count (parent : NodeId) (arg : Nat) (child : NodeId) (s : Schedule) :
    (s.count g policy refs parent arg child).uses = s.uses.set child (s.uses.get child + 1) := by
  unfold count
  split <;> simp

variable {g policy refs}

/-- Going through operands touches no node of a rank above theirs. -/
theorem uses_visitOperands_of_lt {rank : NodeId → Nat} {below : NodeId → Schedule → Schedule}
    {parent k : NodeId} {operands : List (Arg α)}
    (hbelow : ∀ child, .node child ∈ operands → ∀ s, (below child s).uses.get k = s.uses.get k)
    (hrank : ∀ child, .node child ∈ operands → rank child < rank k) (arg : Nat) (s : Schedule) :
    (visitOperands g policy refs below parent operands arg s).uses.get k = s.uses.get k := by
  induction operands generalizing arg s with
  | nil => rfl
  | cons x rest ih =>
    have hrest := ih (fun child hchild => hbelow child (List.mem_cons_of_mem _ hchild))
      fun child hchild => hrank child (List.mem_cons_of_mem _ hchild)
    cases x with
    | const v => exact hrest (arg + 1) s
    | node child =>
      have hne : k ≠ child := by
        rintro rfl
        have hlt := hrank k List.mem_cons_self
        omega
      simp only [visitOperands]
      rw [hrest, uses_count, Table.get_set_of_ne _ _ hne]
      split
      · exact hbelow child List.mem_cons_self s
      · rfl

/-- A node is live where it has an operand. -/
theorem mem_references_of_mem_operands {g : Graph α} {id child : NodeId}
    (h : .node child ∈ g.operands id) : child ∈ g.references id := by
  simp only [Graph.operands, Graph.references] at h ⊢
  cases hop : g.operation? id with
  | none => simp [hop] at h
  | some op =>
    simp only [hop, Option.map_some, Option.getD_some] at h ⊢
    exact Operation.mem_references.mpr h

/-- A visit touches only nodes of smaller rank. -/
theorem uses_visit_of_le {rank : NodeId → Nat} (hrank : Ranked g.references rank) {depth : Nat}
    {id k : NodeId} (hle : rank id ≤ rank k) (s : Schedule) :
    (visit g policy refs depth id s).uses.get k = s.uses.get k := by
  induction depth generalizing id s with
  | zero => rfl
  | succ depth ih =>
    have hlt : ∀ child, .node child ∈ g.operands id → rank child < rank k := by
      intro child hchild
      have hdrop := hrank id child (mem_references_of_mem_operands hchild)
      omega
    exact uses_visitOperands_of_lt (fun child hchild s => ih (Nat.le_of_lt (hlt child hchild)) s)
      hlt 0 s

end Uses

section Steps

variable (g : Graph α) (policy : Policy α) (refs : Table Nat)

/-- Some number of steps leads from one state of the walk to another. -/
def Leads (n : Nat) (stack : List Frame) (s : Schedule) (stack' : List Frame) (s' : Schedule) :
    Prop :=
  ∀ fuel, walk g policy refs (n + fuel) stack s = walk g policy refs fuel stack' s'

variable {g policy refs} {n m : Nat} {stack stack' stack'' : List Frame} {s s' s'' : Schedule}

theorem Leads.trans (h : Leads g policy refs n stack s stack' s')
    (h' : Leads g policy refs m stack' s' stack'' s'') :
    Leads g policy refs (n + m) stack s stack'' s'' := by
  intro fuel
  rw [Nat.add_assoc, h, h']

/-- One step of the walk. -/
theorem leads_step {frame : Frame} {below : List Frame}
    (h : step g policy refs frame below s = (stack', s')) :
    Leads g policy refs 1 (frame :: below) s stack' s' := by
  intro fuel
  rw [Nat.add_comm, walk, h]

/-- The work that is left for a walk: one step for each node that was never reached and two for
each of its operands. -/
def work (g : Graph α) (s : Schedule) : Nat :=
  workLeft (fun id => 2 * (g.operands id).length + 1) (fun id => s.uses.get id != 0) g.next

/-- The work left is at most that of the whole graph. -/
theorem work_le (g : Graph α) (s : Schedule) : work g s ≤ 2 * g.operandCount + g.next := by
  have hall : workLeft (fun id => 2 * (g.operands id).length + 1) (fun _ => false) g.next =
      2 * g.operandCount + g.next := by
    unfold Graph.operandCount
    induction g.next with
    | zero => rfl
    | succ bound ih =>
      rw [workLeft_succ, ih, List.range_succ, List.foldl_append]
      simp
      omega
  rw [← hall]
  exact workLeft_mono fun id h => by simp at h

/-- The first use of a node saves its work. -/
theorem work_count_first {parent child : NodeId} {arg : Nat} (hlt : child < g.next)
    (hfirst : s.uses.get child = 0) :
    work g (s.count g policy refs parent arg child) + (2 * (g.operands child).length + 1) =
      work g s := by
  refine workLeft_finish hlt (by simp [hfirst]) (by simp) fun k hk => ?_
  rw [uses_count, Table.get_set_of_ne _ _ hk]

/-- A later use of a node saves nothing. -/
theorem work_count_again {parent child : NodeId} {arg : Nat} (hagain : s.uses.get child ≠ 0) :
    work g (s.count g policy refs parent arg child) = work g s := by
  refine workLeft_congr fun k _ => ?_
  rw [uses_count, Table.get_set]
  by_cases hk : k = child
  · subst hk
    simp [hagain]
  · rw [if_neg hk]

/-- The frame of a node is left after its operands are done as by recursion. The invariant of the
count: steps taken and work left never exceed the work before, plus two steps for each operand
still to be looked at and one for leaving. -/
theorem leads_visitOperands {below : NodeId → Schedule → Schedule}
    {id : NodeId} (hlive : ∀ child ∈ g.references id, child < g.next)
    (hbelow : ∀ child ∈ g.references id, ∀ s stack, s.uses.get child = 0 → ∃ n,
      Leads g policy refs n ({ node := child } :: stack) s stack (below child s) ∧
      n + work g (below child s) ≤ work g s + 2 * (g.operands child).length + 1 ∧
      (below child s).uses.get child = 0)
    {rest : List (Arg α)} {arg : Nat} (hrest : (g.operands id).drop arg = rest) (s : Schedule)
    (stack : List Frame) :
    ∃ n, Leads g policy refs n ({ node := id, arg := arg } :: stack) s stack
        (visitOperands g policy refs below id rest arg s) ∧
      n + work g (visitOperands g policy refs below id rest arg s) ≤
        work g s + 2 * rest.length + 1 := by
  induction rest generalizing arg s with
  | nil =>
    refine ⟨1, leads_step ?_, ?_⟩
    · simp only [step, hrest, visitOperands]
    · simp only [visitOperands, List.length_nil]
      omega
  | cons x rest ih =>
    have hnext : (g.operands id).drop (arg + 1) = rest := by
      rw [← List.tail_drop, hrest, List.tail_cons]
    cases x with
    | const v =>
      obtain ⟨n, hleads, hwork⟩ := ih hnext s
      have hstep : Leads g policy refs 1 ({ node := id, arg := arg } :: stack) s
          ({ node := id, arg := arg + 1 } :: stack) s := leads_step (by simp only [step, hrest])
      refine ⟨1 + n, hstep.trans hleads, ?_⟩
      simp only [visitOperands, List.length_cons]
      omega
    | node child =>
      have hchild : child ∈ g.references id := by
        apply mem_references_of_mem_operands
        exact List.mem_of_mem_drop (hrest ▸ List.mem_cons_self)
      by_cases hfirst : s.uses.get child = 0
      · obtain ⟨n, hdown, hdownWork, hfresh⟩ :=
          hbelow child hchild s ({ node := id, arg := arg, descended := true } :: stack) hfirst
        obtain ⟨m, hleads, hwork⟩ :=
          ih hnext ((below child s).count g policy refs id arg child)
        have henter : Leads g policy refs 1 ({ node := id, arg := arg } :: stack) s
            ({ node := child } :: { node := id, arg := arg, descended := true } :: stack) s :=
          leads_step (by simp [step, hrest, hfirst])
        have hcount : Leads g policy refs 1
            ({ node := id, arg := arg, descended := true } :: stack) (below child s)
            ({ node := id, arg := arg + 1 } :: stack)
            ((below child s).count g policy refs id arg child) :=
          leads_step (by simp [step, hrest, count])
        have hsaved : work g ((below child s).count g policy refs id arg child) +
            (2 * (g.operands child).length + 1) = work g (below child s) :=
          work_count_first (hlive child hchild) hfresh
        refine ⟨1 + (n + (1 + m)), henter.trans (hdown.trans (hcount.trans ?_)), ?_⟩
        · simpa only [visitOperands, hfirst, if_true] using hleads
        · simp only [visitOperands, hfirst, if_true, List.length_cons]
          omega
      · obtain ⟨m, hleads, hwork⟩ := ih hnext (s.count g policy refs id arg child)
        have hcount : Leads g policy refs 1 ({ node := id, arg := arg } :: stack) s
            ({ node := id, arg := arg + 1 } :: stack) (s.count g policy refs id arg child) :=
          leads_step (by simp [step, hrest, hfirst, count])
        have hsaved : work g (s.count g policy refs id arg child) = work g s :=
          work_count_again hfirst
        refine ⟨1 + m, hcount.trans ?_, ?_⟩
        · simpa only [visitOperands, hfirst, if_false] using hleads
        · simp only [visitOperands, hfirst, if_false, List.length_cons]
          omega

/-- The walk of a node that was never reached is its visit. -/
theorem leads_visit (policy : Policy α) (refs : Table Nat) {rank : NodeId → Nat}
    (hrank : Ranked g.references rank) (hclosed : g.Closed) (hbounded : g.Bounded) {depth : Nat}
    {id : NodeId} (hdepth : rank id < depth) (s : Schedule) (stack : List Frame) :
    ∃ n, Leads g policy refs n ({ node := id } :: stack) s stack
        (visit g policy refs depth id s) ∧
      n + work g (visit g policy refs depth id s) ≤
        work g s + 2 * (g.operands id).length + 1 := by
  induction depth generalizing id s stack with
  | zero => omega
  | succ depth ih =>
    refine leads_visitOperands (fun child hchild => hbounded child (hclosed id child hchild)) ?_
      (List.drop_zero ..) s stack
    intro child hchild s stack hfirst
    have hlt := hrank id child hchild
    have hdeep : rank child < depth := by omega
    obtain ⟨n, hleads, hwork⟩ := ih hdeep s stack
    refine ⟨n, hleads, hwork, ?_⟩
    rw [uses_visit_of_le hrank (Nat.le_refl _), hfirst]

/-- The steps that a walk is given are enough. -/
theorem walk_eq_visit {rank : NodeId → Nat} (hrank : Ranked g.references rank)
    (hclosed : g.Closed) (hbounded : g.Bounded) {depth : Nat} {id : NodeId}
    (hdepth : rank id < depth) (hlive : g.contains id = true) (hfirst : s.uses.get id = 0) :
    walk g policy refs (2 * g.operandCount + g.next) [{ node := id }] s =
      visit g policy refs depth id s := by
  obtain ⟨n, hleads, hwork⟩ := leads_visit policy refs hrank hclosed hbounded hdepth s []
  -- The node itself stays open during its visit, so its own work is still left at the end.
  have hopen : 2 * (g.operands id).length + 1 ≤ work g (visit g policy refs depth id s) :=
    le_workLeft (fun id => 2 * (g.operands id).length + 1) (hbounded id hlive)
      (by rw [uses_visit_of_le hrank (Nat.le_refl _), hfirst]; rfl)
  have htotal := work_le g s
  obtain ⟨fuel, hfuel⟩ := Nat.exists_eq_add_of_le (show n ≤ 2 * g.operandCount + g.next by omega)
  rw [hfuel, hleads fuel]
  cases fuel <;> rfl

/-- Schedule an output by recursion. -/
def visitOutput (g : Graph α) (policy : Policy α) (refs : Table Nat) (depth : Nat) (s : Schedule)
    (id : NodeId) : Schedule :=
  let s := if s.uses.get id = 0 then visit g policy refs depth id s else s
  let s := s.use id
  if (g.operation? id).map Operation.opcode ≠ some .independent ∧ s.ranks.get id = 0 then
    s.enqueue id
  else s

/-- The schedule of the outputs is the recursive one. -/
theorem run_eq_visitOutput {rank : NodeId → Nat} (hrank : Ranked g.references rank)
    (hclosed : g.Closed) (hbounded : g.Bounded) {depth : Nat} (hdepth : ∀ id, rank id < depth)
    (slots : Table Nat) (lastId : Nat) {outputs : List (Arg α)}
    (hlive : ∀ id, Arg.node id ∈ outputs → g.contains id = true) :
    run g policy refs slots lastId outputs =
      (outputs.filterMap Arg.node?).foldl (visitOutput g policy refs depth)
        { slots := slots, lastId := lastId } := by
  have hroots : ∀ id ∈ outputs.filterMap Arg.node?, g.contains id = true :=
    fun id hid => hlive id (Arg.mem_filterMap_node?.mp hid)
  unfold run
  generalize ({ slots := slots, lastId := lastId } : Schedule) = s
  generalize outputs.filterMap Arg.node? = roots at hroots
  induction roots generalizing s with
  | nil => rfl
  | cons id roots ih =>
    have hstep : addOutput g policy refs (2 * g.operandCount + g.next) s id =
        visitOutput g policy refs depth s id := by
      unfold addOutput visitOutput
      by_cases hfirst : s.uses.get id = 0
      · simp only [hfirst, if_true]
        rw [walk_eq_visit hrank hclosed hbounded (hdepth id) (hroots id List.mem_cons_self) hfirst]
      · simp only [hfirst, if_false]
    simp only [List.foldl_cons, hstep]
    exact ih (visitOutput g policy refs depth s id) fun k hk =>
      hroots k (List.mem_cons_of_mem _ hk)

end Steps

end Schedule

end Straightline
