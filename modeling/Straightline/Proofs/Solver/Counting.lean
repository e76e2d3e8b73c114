import Mathlib.Data.ENat.Lattice
import Mathlib.Data.List.Induction
import Straightline.Proofs.Graph.Paths
import Straightline.Solver.Inversion

/-!
# Counting paths

Counting in dependency order finds the number of paths from every node to the target, as far as two.
If there is one path, the search for it always has exactly one operand to go on with, and it stops
at the first operation that cannot be undone.
-/

namespace Straightline

namespace Inversion

variable {α : Type} {g : Graph α} {target id : NodeId} {nodes : List NodeId} {counts : Table Nat}

@[simp] theorem pathsFrom_nil : pathsFrom counts [] = 0 := rfl

@[simp] theorem pathsFrom_cons {ids : List NodeId} :
    pathsFrom counts (id :: ids) = counts.get id + pathsFrom counts ids := rfl

theorem pathsFrom_append {ids ids' : List NodeId} :
    pathsFrom counts (ids ++ ids') = pathsFrom counts ids + pathsFrom counts ids' := by
  induction ids with
  | nil => simp
  | cons id ids ih =>
    rw [List.cons_append, pathsFrom_cons, pathsFrom_cons, ih]
    omega

theorem pathsFrom_eq_zero {ids : List NodeId} :
    pathsFrom counts ids = 0 ↔ ∀ id ∈ ids, counts.get id = 0 := by
  induction ids with
  | nil => simp
  | cons id ids ih => simp [ih]

theorem pathsFrom_congr {counts' : Table Nat} {ids : List NodeId}
    (h : ∀ id ∈ ids, counts'.get id = counts.get id) :
    pathsFrom counts' ids = pathsFrom counts ids := by
  induction ids with
  | nil => rfl
  | cons id ids ih =>
    rw [pathsFrom_cons, pathsFrom_cons, h id (by simp), ih fun k hk => h k (by simp [hk])]

/-- The counts of paths to a target, over nodes with everything they depend on. -/
structure Counts (g : Graph α) (target : NodeId) (nodes : List NodeId) (counts : Table Nat) :
    Prop where
  /-- The dependencies of a node are listed. -/
  closed : ∀ id ∈ nodes, id ≠ target → ∀ k ∈ g.references id, k ∈ nodes
  /-- One path leads from the target to itself. -/
  self : target ∈ nodes → counts.get target = 1
  /-- Paths from another node lead through its references. -/
  count : ∀ id ∈ nodes, id ≠ target →
    counts.get id = min 2 (pathsFrom counts (g.references id))

/-- Counting in dependency order finds the counts. -/
theorem counts_pathCounts (hnodup : nodes.Nodup)
    (hsorted : Sorted (fun a b => b ∈ dependencies g target a) nodes) :
    Counts g target nodes (pathCounts g target nodes) := by
  induction nodes using List.reverseRecOn with
  | nil => exact ⟨by simp, by simp, by simp⟩
  | append_singleton nodes last ih =>
    have hsorted' : Sorted (fun a b => b ∈ dependencies g target a) nodes := by
      intro before id after heq
      exact hsorted before id (after ++ [last]) (by simp [heq])
    have hrest := ih (List.nodup_append.mp hnodup).1 hsorted'
    have hnew : ∀ k ∈ nodes, k ≠ last :=
      fun k hk => (List.nodup_append.mp hnodup).2.2 k hk last (by simp)
    have hlast : last ≠ target → ∀ k ∈ g.references last, k ∈ nodes := by
      intro hne k hk
      have hdeps : k ∈ dependencies g target last := by rwa [dependencies, if_neg hne]
      exact hsorted nodes last [] (by simp) k hdeps
    have hcounts : pathCounts g target (nodes ++ [last]) =
        addCount g target (pathCounts g target nodes) last := by
      rw [pathCounts, List.foldl_append]
      rfl
    have hold : ∀ k ∈ nodes, (pathCounts g target (nodes ++ [last])).get k =
        (pathCounts g target nodes).get k := by
      intro k hk
      rw [hcounts, addCount]
      split <;> exact Table.get_set_of_ne _ _ (hnew k hk)
    have hsum : ∀ ks : List NodeId, (∀ k ∈ ks, k ∈ nodes) →
        pathsFrom (pathCounts g target (nodes ++ [last])) ks =
          pathsFrom (pathCounts g target nodes) ks :=
      fun ks hks => pathsFrom_congr fun k hk => hold k (hks k hk)
    refine ⟨?_, ?_, ?_⟩
    · intro id hid hne k hk
      rcases List.mem_append.mp hid with hid | hid
      · exact List.mem_append_left _ (hrest.closed id hid hne k hk)
      · obtain rfl := List.mem_singleton.mp hid
        exact List.mem_append_left _ (hlast hne k hk)
    · intro hmem
      rcases List.mem_append.mp hmem with hmem | hmem
      · rw [hold target hmem, hrest.self hmem]
      · rw [hcounts, addCount, if_pos (List.mem_singleton.mp hmem).symm,
          List.mem_singleton.mp hmem, Table.get_set_self]
    · intro id hid hne
      rcases List.mem_append.mp hid with hid | hid
      · rw [hold id hid, hrest.count id hid hne, hsum _ (hrest.closed id hid hne)]
      · obtain rfl := List.mem_singleton.mp hid
        rw [hsum _ (hlast hne), hcounts, addCount, if_neg hne, Table.get_set_self]

/-- Cutting a summand off at two does not change a sum that is cut off at two. -/
theorem min_two_add (a b : ℕ∞) : min 2 (min 2 a + b) = min 2 (a + b) := by
  rcases le_total 2 a with hle | hle
  · rw [min_eq_left hle, min_eq_left le_self_add, min_eq_left (hle.trans le_self_add)]
  · rw [min_eq_right hle]

/-- No paths, one path or more than one. -/
theorem eq_zero_or_eq_one_or_two_le (n : ℕ∞) : n = 0 ∨ n = 1 ∨ 2 ≤ n := by
  cases n using ENat.recTopCoe with
  | top => exact .inr (.inr le_top)
  | coe n =>
    norm_cast
    omega

/-- Sums of counts that are exact as far as two are exact as far as two. -/
theorem min_two_pathsFrom {ids : List NodeId} {number : NodeId → ℕ∞}
    (h : ∀ id ∈ ids, (counts.get id : ℕ∞) = min 2 (number id)) :
    min 2 (pathsFrom counts ids : ℕ∞) = min 2 (ids.map number).sum := by
  induction ids with
  | nil => simp
  | cons id ids ih =>
    rw [pathsFrom_cons, List.map_cons, List.sum_cons, Nat.cast_add, h id List.mem_cons_self,
      min_two_add, add_comm (number id), ← min_two_add,
      ih fun k hk => h k (List.mem_cons_of_mem _ hk), min_two_add, add_comm]

/-- The counts are the numbers of paths, as far as two. -/
theorem Counts.get_eq (h : Counts g target nodes counts) (hg : g.Proper) (hid : id ∈ nodes) :
    (counts.get id : ℕ∞) = min 2 (g.pathCount id target) := by
  obtain ⟨rank, hrank, _⟩ := hg.exists_ranked
  induction hn : rank id using Nat.strong_induction_on generalizing id with
  | _ n ih =>
    by_cases heq : id = target
    · subst heq
      rw [h.self hid, hg.pathCount_self, Nat.cast_one, min_eq_right one_le_two]
    · have hrefs : ∀ k ∈ g.references id, (counts.get k : ℕ∞) = min 2 (g.pathCount k target) :=
        fun k hk => ih (rank k) (hn ▸ hrank id k hk) (h.closed id hid heq k hk) rfl
      rw [h.count id hid heq, Graph.pathCount_eq_sum heq, ← min_two_pathsFrom hrefs]
      exact Nat.mono_cast.map_min

/-- If one path leads on from an operation, the search goes on with its operand. -/
theorem onPath?_eq_of_one {op : Operation (Arg α)} (hone : pathsFrom counts op.references = 1)
    {position : Nat} {child : NodeId} (hchild : op.operands[position]? = some (.node child))
    (hpos : 0 < counts.get child) :
    onPath? counts op = some (position, child) ∧ counts.get child = 1 := by
  have hmem : (Arg.node child, position) ∈ op.operands.zipIdx :=
    List.mem_zipIdx_iff_getElem?.mpr hchild
  obtain ⟨front, back, hsplit⟩ := List.append_of_mem hmem
  have hoperands : op.operands = front.map Prod.fst ++ .node child :: back.map Prod.fst := by
    rw [← List.zipIdx_map_fst 0 op.operands, hsplit, List.map_append, List.map_cons]
  have hrefs : op.references = (front.map Prod.fst).filterMap Arg.node? ++
      child :: (back.map Prod.fst).filterMap Arg.node? := by
    rw [Operation.references, hoperands, List.filterMap_append]
    rfl
  rw [hrefs, pathsFrom_append, pathsFrom_cons] at hone
  have hfront : pathsFrom counts ((front.map Prod.fst).filterMap Arg.node?) = 0 := by omega
  refine ⟨List.findSome?_eq_some_iff.mpr
    ⟨front, (.node child, position), back, hsplit, by simp [hpos], ?_⟩, by omega⟩
  rintro ⟨x, i⟩ hx
  cases x with
  | const v => rfl
  | node k =>
    have hzero : counts.get k = 0 := by
      refine pathsFrom_eq_zero.mp hfront k (Arg.mem_filterMap_node?.mpr ?_)
      exact List.mem_map.mpr ⟨(.node k, i), hx, rfl⟩
    simp [hzero]

/-- The kind of the first operation on a path that cannot be undone. -/
def blocked? (steps : List (Step α)) : Option Opcode :=
  (steps.map fun step => step.operation.opcode).find? fun op => !op.isInvertible

/-- What the search answers on a path. -/
def found (steps : List (Step α)) : Except SolveError (List (Operation (Arg α) × Nat)) :=
  match blocked? steps with
  | some op => .error (.unsolvable op)
  | none => .ok (steps.map fun step => (step.operation, step.position))

theorem blocked?_eq_none {steps : List (Step α)} :
    blocked? steps = none ↔ ∀ step ∈ steps, step.operation.opcode.isInvertible = true := by
  simp [blocked?]

theorem found_cons_of_invertible {step : Step α} (hstep : step.operation.opcode.isInvertible = true)
    (rest : List (Step α)) :
    found (step :: rest) = do return (step.operation, step.position) :: (← found rest) := by
  have hblocked : blocked? (step :: rest) = blocked? rest := by
    simp [blocked?, hstep]
  rw [found, found, hblocked]
  cases blocked? rest <;> rfl

/-- The search follows a single path. -/
theorem Counts.descend_eq (h : Counts g target nodes counts) (hg : g.Proper)
    {rank : NodeId → Nat} (hrank : Ranked g.references rank) {depth : Nat}
    (hdepth : rank id < depth) (hid : id ∈ nodes) (hone : counts.get id = 1)
    {steps : List (Step α)} (hpath : g.Path target id steps) :
    descend g counts target depth id = found steps := by
  induction hpath generalizing depth with
  | done =>
    obtain ⟨depth, rfl⟩ := Nat.exists_eq_add_of_lt hdepth
    simp [descend, found, blocked?]
  | @step id child op position rest hop hchild hrest ih =>
    have hne := hg.ne_target (.step hop hchild hrest)
    have hmem := Graph.mem_references_of_getElem? hop hchild
    have hlisted := h.closed id hid hne child hmem
    have hdrop := hrank id child hmem
    have hpos : 0 < counts.get child := by
      by_contra hzero
      have hget := h.get_eq hg hlisted
      rw [Nat.eq_zero_of_not_pos hzero] at hget
      have hnone : g.pathCount child target = 0 := by simpa using hget.symm
      exact Graph.pathCount_eq_zero_iff.mp hnone hrest.reaches
    have hsum : pathsFrom counts op.references = 1 := by
      have hcount := h.count id hid hne
      rw [Graph.references_of_operation hop] at hcount
      omega
    obtain ⟨hnext, hchildOne⟩ := onPath?_eq_of_one hsum hchild hpos
    obtain ⟨depth, rfl⟩ : ∃ d, depth = d + 1 := ⟨depth - 1, by omega⟩
    rw [descend, if_neg hne]
    simp only [hop, hnext]
    split
    · next hblocked => simp_all [found, blocked?]
    · next hinvertible =>
      rw [ih (by omega) hlisted hchildOne, found_cons_of_invertible (by simpa using hinvertible)]

/-- The dependencies on the way to the target are dependencies. -/
theorem mem_references_of_mem_dependencies {a b : NodeId} (hb : b ∈ dependencies g target a) :
    b ∈ g.references a := by
  unfold dependencies at hb
  split at hb
  · simp at hb
  · exact hb

/-- The nodes on the way are listed once each, after what they depend on, and the root is one of
them. -/
theorem order_spec (hg : g.Proper) (root target : NodeId) :
    let nodes := dependencyOrder (dependencies g target) (g.next + 1) [root]
    nodes.Nodup ∧ Sorted (fun a b => b ∈ dependencies g target a) nodes ∧ root ∈ nodes ∧
      ∀ id ∈ nodes, Reaches g.references root id := by
  obtain ⟨rank, hrank, hbound⟩ := hg.exists_ranked
  have hranked : Ranked (dependencies g target) rank :=
    fun a b hb => hrank a b (mem_references_of_mem_dependencies hb)
  have hdepth : ∀ id, rank id < g.next + 1 := fun id => Nat.lt_succ_of_le (hbound id)
  refine ⟨nodup_dependencyOrder hranked hdepth [root], sorted_dependencyOrder hranked hdepth [root],
    (mem_dependencyOrder hranked hdepth).mpr ⟨root, List.mem_singleton_self _, .refl⟩, ?_⟩
  intro id hid
  obtain ⟨k, hk, hreach⟩ := (mem_dependencyOrder hranked hdepth).mp hid
  rw [List.mem_singleton.mp hk] at hreach
  exact Relation.ReflTransGen.mono (fun _ _ => mem_references_of_mem_dependencies) _ _ hreach

/-- The search for a path from a live node: it is not there, there is more than one, or the single
one is followed. -/
theorem path_eq (hg : g.Proper) {root : NodeId} (hroot : g.contains root = true)
    (target : NodeId) :
    (g.pathCount root target = 0 → path g root target = .error (.solve .notPresent)) ∧
    (2 ≤ g.pathCount root target → path g root target = .error (.solve .multipleOccurrences)) ∧
    ∀ steps, g.Path target root steps → g.pathCount root target = 1 →
      path g root target = (found steps).mapError .solve := by
  obtain ⟨hnodup, hsorted, hmem, hreaches⟩ := order_spec hg root target
  have hlive : ¬ ((dependencyOrder (dependencies g target) (g.next + 1) [root]).any
      fun id => !g.contains id) = true := by
    simp only [List.any_eq_true, not_exists, not_and, Bool.not_eq_true', Bool.not_eq_false]
    exact fun id hid => hg.closed.contains_of_reaches hroot (hreaches id hid)
  unfold path
  dsimp only
  rw [if_neg hlive]
  generalize dependencyOrder (dependencies g target) (g.next + 1) [root] = nodes at *
  have hcounts := counts_pathCounts hnodup hsorted
  have hget := hcounts.get_eq hg hmem
  refine ⟨fun hzero => ?_, fun htwo => ?_, fun steps hsteps hone => ?_⟩
  · have hcount : (pathCounts g target nodes).get root = 0 := by simpa [hzero] using hget
    rw [hcount]
    rfl
  · have hcount : (pathCounts g target nodes).get root = 2 := by
      rw [min_eq_left htwo] at hget
      exact_mod_cast hget
    rw [hcount]
    rfl
  · have hcount : (pathCounts g target nodes).get root = 1 := by
      rw [hone, min_eq_right one_le_two] at hget
      exact_mod_cast hget
    obtain ⟨rank, hrank, hbound⟩ := hg.exists_ranked
    rw [← hcounts.descend_eq hg hrank (Nat.lt_succ_of_le (hbound root)) hmem hcount hsteps, hcount]
    rfl

/-- A search from a live node fails only for a cause of its own. -/
theorem exists_cause_of_error (hg : g.Proper) {root : NodeId} (hroot : g.contains root = true)
    {e : Error} (h : path g root target = .error e) : ∃ cause, e = .solve cause := by
  obtain ⟨hnone, hmany, hsingle⟩ := path_eq hg hroot target
  rcases eq_zero_or_eq_one_or_two_le (g.pathCount root target) with hzero | hone | htwo
  · rw [hnone hzero] at h
    exact ⟨_, (Except.error.inj h).symm⟩
  · obtain ⟨steps, hsteps⟩ := Graph.pathCount_eq_one_iff.mp hone
    rw [hsingle steps ((hsteps steps).mpr rfl) hone, found] at h
    split at h
    · exact ⟨_, (Except.error.inj h).symm⟩
    · cases h
  · rw [hmany htwo] at h
    exact ⟨_, (Except.error.inj h).symm⟩

/-- A search that succeeds went from a live node down the only path, on which every operation can
be undone. -/
theorem exists_path_of_ok (hg : g.Proper) {root : NodeId}
    {list : List (Operation (Arg α) × Nat)} (h : path g root target = .ok list) :
    g.contains root = true ∧ ∃ steps, (∀ other, g.Path target root other ↔ other = steps) ∧
      (∀ step ∈ steps, step.operation.opcode.isInvertible = true) ∧
      list = steps.map fun step => (step.operation, step.position) := by
  have hroot : g.contains root = true := by
    by_contra hdead
    have hany : (dependencyOrder (dependencies g target) (g.next + 1) [root]).any
        (fun id => !g.contains id) = true :=
      List.any_eq_true.mpr ⟨root, (order_spec hg root target).2.2.1, by simp [hdead]⟩
    unfold path at h
    dsimp only at h
    rw [if_pos hany] at h
    cases h
  obtain ⟨hnone, hmany, hsingle⟩ := path_eq hg hroot target
  have hone : g.pathCount root target = 1 := by
    rcases eq_zero_or_eq_one_or_two_le (g.pathCount root target) with hzero | hone | htwo
    · rw [hnone hzero] at h
      cases h
    · exact hone
    · rw [hmany htwo] at h
      cases h
  obtain ⟨steps, hsteps⟩ := Graph.pathCount_eq_one_iff.mp hone
  rw [hsingle steps ((hsteps steps).mpr rfl) hone, found] at h
  split at h
  · cases h
  · next hnone => exact ⟨hroot, steps, hsteps, blocked?_eq_none.mp hnone, (Except.ok.inj h).symm⟩

end Inversion

end Straightline
