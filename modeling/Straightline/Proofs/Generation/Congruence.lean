import Straightline.Proofs.Generation.Scheduled
import Straightline.Proofs.Graph.Growth

/-!
# What scheduling looks at

Counting references, scheduling and walking in dependency order look at what the outputs reach and
at nothing else, and the steps and depths that they are given make no difference as long as they
suffice. So a graph and one with more nodes are scheduled alike.
-/

namespace Straightline

namespace References

variable {references? references?' : NodeId → Option (List NodeId)}

@[simp] theorem count_nil (references? : NodeId → Option (List NodeId)) (fuel : Nat)
    (refs : Table Nat) : count references? fuel [] refs = ([], refs) := by
  cases fuel <;> rfl

/-- Counts that run to the end agree, if they find the same references. -/
theorem count_congr (live : NodeId → Prop)
    (hsame : ∀ id, live id → references?' id = references? id)
    (hclosed : ∀ id, live id → ∀ children, references? id = some children →
      ∀ k ∈ children, live k) {fuel fuel' : Nat} {stack : List NodeId}
    {refs result result' : Table Nat} (hstack : ∀ id ∈ stack, live id)
    (hcount : count references? fuel stack refs = ([], result))
    (hcount' : count references?' fuel' stack refs = ([], result')) : result' = result := by
  induction fuel generalizing fuel' stack refs with
  | zero =>
    obtain ⟨rfl, rfl⟩ : stack = [] ∧ refs = result := by simpa [count] using hcount
    simpa [eq_comm] using hcount'
  | succ fuel ih =>
    cases stack with
    | nil =>
      obtain rfl : refs = result := by simpa using hcount
      simpa [eq_comm] using hcount'
    | cons id stack =>
      have hid := hstack id List.mem_cons_self
      cases fuel' with
      | zero => simp [count] at hcount'
      | succ fuel' =>
        simp only [count, hsame id hid] at hcount hcount'
        cases hrefs : references? id with
        | none => simp [hrefs] at hcount
        | some children =>
          rw [hrefs] at hcount hcount'
          refine ih ?_ hcount hcount'
          intro k hk
          split at hk
          · rcases List.mem_append.mp hk with hk | hk
            · exact hclosed id hid children hrefs k (List.mem_reverse.mp hk)
            · exact hstack k (List.mem_cons_of_mem _ hk)
          · exact hstack k (List.mem_cons_of_mem _ hk)

end References

namespace Walk

variable {deps deps' : NodeId → List NodeId} {live : NodeId → Prop} {rank : NodeId → Nat}

/-- Visits agree if they find the same dependencies, whatever the depth. -/
theorem visit_congr (hsame : ∀ id, live id → deps' id = deps id)
    (hclosed : ∀ id, live id → ∀ k ∈ deps id, live k) (hrank : Ranked deps rank)
    {depth depth' : Nat} {id : NodeId} (hid : live id) (hdepth : rank id < depth)
    (hdepth' : rank id < depth') (w : Walk) : visit deps' depth' id w = visit deps depth id w := by
  induction depth generalizing depth' id w with
  | zero => omega
  | succ depth ih =>
    cases depth' with
    | zero => omega
    | succ depth' =>
      have hchildren : (deps' id).foldl (fun w child => visit deps' depth' child w) w =
          (deps id).foldl (fun w child => visit deps depth child w) w := by
        rw [hsame id hid]
        refine List.foldl_ext _ _ _ fun w child hchild => ?_
        have hlt := hrank id child hchild
        exact ih (hclosed id hid child hchild) (by omega) (by omega) w
      simp only [visit, hchildren]

end Walk

/-- Dependency orders agree if they find the same dependencies, whatever the depth. -/
theorem dependencyOrder_congr {deps deps' : NodeId → List NodeId} {live : NodeId → Prop}
    {rank : NodeId → Nat} (hsame : ∀ id, live id → deps' id = deps id)
    (hclosed : ∀ id, live id → ∀ k ∈ deps id, live k) (hrank : Ranked deps rank)
    {depth depth' : Nat} (hdepth : ∀ id, rank id < depth) (hdepth' : ∀ id, rank id < depth')
    {roots : List NodeId} (hroots : ∀ id ∈ roots, live id) :
    dependencyOrder deps' depth' roots = dependencyOrder deps depth roots := by
  unfold dependencyOrder
  congr 2
  refine List.foldl_ext _ _ _ fun w id hid => ?_
  exact Walk.visit_congr hsame hclosed hrank (hroots id hid) (hdepth id) (hdepth' id) w

namespace Graph

variable {α : Type} {g g' : Graph α}

/-- All live nodes of a graph are live in another, and the same there. -/
def Within (g g' : Graph α) : Prop := ∀ id node, g.node? id = some node → g'.node? id = some node

namespace Within

theorem node? (h : g.Within g') {id : NodeId} (hlive : g.contains id = true) :
    g'.node? id = g.node? id := by
  obtain ⟨node, hnode⟩ := Option.isSome_iff_exists.mp hlive
  rw [hnode, h id node hnode]

theorem contains (h : g.Within g') {id : NodeId} (hlive : g.contains id = true) :
    g'.contains id = true := by
  rw [Graph.contains, h.node? hlive]
  exact hlive

theorem operation? (h : g.Within g') {id : NodeId} (hlive : g.contains id = true) :
    g'.operation? id = g.operation? id := by
  rw [Graph.operation?, Graph.operation?, h.node? hlive]

theorem operands (h : g.Within g') {id : NodeId} (hlive : g.contains id = true) :
    g'.operands id = g.operands id := by
  rw [Graph.operands, Graph.operands, h.operation? hlive]

theorem references (h : g.Within g') {id : NodeId} (hlive : g.contains id = true) :
    g'.references id = g.references id := by
  rw [Graph.references, Graph.references, h.operation? hlive]

end Within

/-- A graph that grows keeps its recorded nodes in a new pass. -/
theorem Grows.within (h : g.Grows g') : g.beginPass.Within g'.beginPass := by
  intro id node hnode
  rw [node?_beginPass] at hnode ⊢
  exact h.recorded id node hnode

/-- References are counted alike. -/
theorem Within.countReferences (h : g.Within g') (hclosed : g.Closed) (hclosed' : g'.Closed)
    (hbounded : g.Bounded) (hbounded' : g'.Bounded) {outputs : List (Arg α)}
    (hlive : ∀ id, Arg.node id ∈ outputs → g.contains id = true) :
    (g'.countReferences outputs).2 = (g.countReferences outputs).2 := by
  obtain ⟨_, refs, hcount, _⟩ := countReferences_complete hclosed hbounded hlive
  obtain ⟨_, refs', hcount', _⟩ := countReferences_complete hclosed' hbounded'
    fun id hid => h.contains (hlive id hid)
  rw [hcount, hcount']
  refine References.count_congr (fun id => g.contains id = true) ?_ ?_ ?_ hcount hcount'
  · intro id hid
    rw [h.operation? hid]
  · intro id _ children hchildren k hk
    refine hclosed id k ?_
    simpa [Graph.references, hchildren] using hk
  · intro id hid
    exact hlive id (Arg.mem_filterMap_node?.mp (List.mem_reverse.mp hid))

end Graph

namespace Schedule

variable {α : Type} {g g' : Graph α} {policy : Policy α} {refs : Table Nat}

theorem count_congr (h : g.Within g') {parent child : NodeId} (hparent : g.contains parent = true)
    (hchild : g.contains child = true) (arg : Nat) (s : Schedule) :
    s.count g' policy refs parent arg child = s.count g policy refs parent arg child := by
  simp only [count, decideStorage, h.node? hchild, h.operation? hparent]

theorem visitOperands_congr (h : g.Within g') {below below' : NodeId → Schedule → Schedule}
    {parent : NodeId} (hparent : g.contains parent = true) {operands : List (Arg α)}
    (hlive : ∀ child, .node child ∈ operands → g.contains child = true)
    (hbelow : ∀ child, .node child ∈ operands → ∀ s, below' child s = below child s) (arg : Nat)
    (s : Schedule) :
    visitOperands g' policy refs below' parent operands arg s =
      visitOperands g policy refs below parent operands arg s := by
  induction operands generalizing arg s with
  | nil => rfl
  | cons x rest ih =>
    have hrest := ih (fun child hchild => hlive child (List.mem_cons_of_mem _ hchild))
      fun child hchild => hbelow child (List.mem_cons_of_mem _ hchild)
    cases x with
    | const v => exact hrest (arg + 1) s
    | node child =>
      simp only [visitOperands, hbelow child List.mem_cons_self,
        count_congr h hparent (hlive child List.mem_cons_self)]
      exact hrest (arg + 1) _

/-- Visits find the same nodes. -/
theorem visit_congr (h : g.Within g') (hclosed : g.Closed) {id : NodeId}
    (hlive : g.contains id = true) (depth : Nat) (s : Schedule) :
    visit g' policy refs depth id s = visit g policy refs depth id s := by
  induction depth generalizing id s with
  | zero => rfl
  | succ depth ih =>
    have hchild : ∀ child, .node child ∈ g.operands id → g.contains child = true :=
      fun child hchild => hclosed id child (mem_references_of_mem_operands hchild)
    rw [visit, visit, h.operands hlive]
    exact visitOperands_congr h hlive hchild (fun child hmem s => ih (hchild child hmem) s) 0 s

/-- Outputs are scheduled alike. -/
theorem run_congr (h : g.Within g') {rank rank' : NodeId → Nat} {depth : Nat}
    (hrank : Ranked g.references rank) (hrank' : Ranked g'.references rank')
    (hdepth : ∀ id, rank id < depth) (hdepth' : ∀ id, rank' id < depth) (hclosed : g.Closed)
    (hclosed' : g'.Closed) (hbounded : g.Bounded) (hbounded' : g'.Bounded) (slots : Table Nat)
    (lastId : Nat) {outputs : List (Arg α)}
    (hlive : ∀ id, Arg.node id ∈ outputs → g.contains id = true) :
    run g' policy refs slots lastId outputs = run g policy refs slots lastId outputs := by
  rw [run_eq_visitOutput hrank hclosed hbounded hdepth slots lastId hlive,
    run_eq_visitOutput hrank' hclosed' hbounded' hdepth' slots lastId
      fun id hid => h.contains (hlive id hid)]
  refine List.foldl_ext _ _ _ fun s id hid => ?_
  have hid := hlive id (Arg.mem_filterMap_node?.mp hid)
  simp only [visitOutput, visit_congr h hclosed hid, h.operation? hid]

end Schedule

namespace Graph

variable {α : Type} {g g' : Graph α} {outputs : List (Arg α)}

/-- A graph that has grown is scheduled as before. -/
theorem Grows.scheduled_pass (h : g.Grows g') (hg : g.WellFormed) (hg' : g'.WellFormed)
    (policy : Policy α)
    (hlive : ∀ id, Arg.node id ∈ outputs → ∃ node, g.recorded.get id = some node) :
    (g'.scheduled policy outputs).pass = (g.scheduled policy outputs).pass := by
  have hbegin := hg.beginPass
  have hbegin' := hg'.beginPass
  have hcontains : ∀ id, Arg.node id ∈ outputs → g.beginPass.contains id = true :=
    fun id hid => contains_beginPass.mpr (hlive id hid)
  obtain ⟨rank, hrank, hbound⟩ := hbegin.exists_ranked
  obtain ⟨rank', hrank', hbound'⟩ := hbegin'.exists_ranked
  have hrefs := h.within.countReferences hbegin.closed_all hbegin'.closed_all hbegin.issued
    hbegin'.issued hcontains
  have hdepth : ∀ id, rank id < g.next + g'.next + 1 := fun id =>
    Nat.lt_succ_of_le (Nat.le_trans (hbound id) (Nat.le_add_right ..))
  have hdepth' : ∀ id, rank' id < g.next + g'.next + 1 := fun id =>
    Nat.lt_succ_of_le (Nat.le_trans (hbound' id) (Nat.le_add_left ..))
  have hrun : ∀ refs slots lastId, Schedule.run g'.beginPass policy refs slots lastId outputs =
      Schedule.run g.beginPass policy refs slots lastId outputs := fun refs slots lastId =>
    Schedule.run_congr h.within hrank hrank' hdepth hdepth' hbegin.closed_all hbegin'.closed_all
      hbegin.issued hbegin'.issued slots lastId hcontains
  unfold scheduled
  simp only [h.roster, hrefs, hrun]

end Graph

end Straightline
