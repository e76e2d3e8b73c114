import Mathlib.Data.List.InsertIdx
import Straightline.Proofs.Generation.Correctness
import Straightline.Proofs.Solver.Inversion

/-!
# Values across eliminations

Eliminating a variable takes it out of the roster and makes it a copy of the solved expression. All
nodes recorded before keep their operations, so they have the values that they had in the old graph
if the old variable is given the value of the solved expression. The same holds after any further
changes that preserve the recorded expressions: every old variable stands for what it has become.
-/

namespace Straightline

namespace Graph

variable {α : Type} {g g' : Graph α}

/-- The roster position of an independent variable. -/
theorem WellFormed.rosterIndex?_of_getElem? (h : g.WellFormed) {i : Nat} {id : NodeId}
    (hi : g.roster[i]? = some id) : g.rosterIndex? id = some i := by
  obtain ⟨hlt, rfl⟩ := List.getElem?_eq_some_iff.mp hi
  rw [rosterIndex?, List.idxOf?_eq_some_iff]
  refine ⟨hlt, rfl, fun j hj heq => ?_⟩
  have hsame : j = i := (h.roster_nodup.getElem_inj_iff).mp heq
  omega

theorem getElem?_of_rosterIndex? {i : Nat} {id : NodeId} (hi : g.rosterIndex? id = some i) :
    g.roster[i]? = some id := by
  rw [rosterIndex?, List.idxOf?_eq_some_iff] at hi
  obtain ⟨hlt, hget, _⟩ := hi
  exact List.getElem?_eq_some_iff.mpr ⟨hlt, hget⟩

/-- A variable became a copy of an expression that does not reach it, and nothing else that was
recorded changed. -/
structure Eliminates (g g' : Graph α) (index : Nat) (target : NodeId) (solved : Arg α) :
    Prop where
  /-- The variable stood at the position of the roster. -/
  position : g.roster[index]? = some target
  /-- The other variables stay in the roster, in the same order. -/
  roster : g'.roster = g.roster.eraseIdx index
  /-- The variable is a copy of the expression. -/
  copied : g'.recorded.get target = some { operation := .copy solved }
  /-- The expression does not reach the variable. -/
  apart : ∀ k, solved = .node k → ¬ Reaches g'.references k target
  /-- The other nodes stay as they are. -/
  kept : ∀ id node, id ≠ target → g.recorded.get id = some node →
    g'.recorded.get id = some node

/-- Eliminating a variable by an expression that was solved for. -/
theorem Extends.eliminates {target : NodeId} (h : g.Extends g' target) {index : Nat}
    (hindex : g.rosterIndex? target = some index) {solved : Arg α}
    (hsolved : g'.Clear target solved) :
    g.Eliminates (g'.eliminate index target solved) index target solved := by
  have hroster : g'.rosterIndex? target = some index := by
    rw [rosterIndex?, h.roster]
    exact hindex
  have hwrites := h.wellFormed.writes_eliminate index h.kept solved
  have hresult : (g'.eliminate index target solved).WellFormed :=
    h.wellFormed.eliminate hroster fun k hk => hsolved k (Arg.node?_eq_some.mp hk)
  refine ⟨getElem?_of_rosterIndex? hindex, ?_, ?_, ?_, ?_⟩
  · exact congrArg (List.eraseIdx · index) h.roster
  · rw [hwrites.recorded, if_pos rfl]
  · rintro k rfl hreach
    have hedge : k ∈ (g'.eliminate index target (.node k)).references target := by
      rw [hwrites.references, if_pos rfl]
      simp [Operation.references, Operation.operands, Arg.node?]
    exact hresult.acyclic target (.head' hedge hreach)
  · intro id node hne hnode
    rw [hwrites.recorded, if_neg hne]
    exact h.recorded id node hnode

theorem Eliminates.preserves (hg : g.WellFormed) {index : Nat} {target : NodeId} {solved : Arg α}
    (h : g.Eliminates g' index target solved) : g.Preserves g' := by
  intro id node hnode
  by_cases heq : id = target
  · subst heq
    refine ⟨_, h.copied, fun hne => ?_⟩
    obtain ⟨old, hold, hcode⟩ := (hg.mem_roster id).mp (List.mem_of_getElem? h.position)
    obtain rfl : old = node := Option.some.inj (hold.symm.trans hnode)
    exact absurd (Operation.opcode_eq_independent.mp hcode) hne
  · exact ⟨node, h.kept id node heq hnode, fun _ => rfl⟩

variable [Scalar α] {inputs : List α} {val : NodeId → α}

/-- The values of the roster are the inputs. -/
theorem WellFormed.map_roster (h : g.WellFormed) (hval : g.beginPass.IsValuation inputs val)
    (hinputs : inputs.length = g.roster.length) : g.roster.map val = inputs := by
  apply List.ext_getElem?
  intro i
  rw [List.getElem?_map]
  cases hi : g.roster[i]? with
  | none =>
    have hge := List.getElem?_eq_none_iff.mp hi
    rw [Option.map_none, List.getElem?_eq_none_iff.mpr (by omega)]
  | some id =>
    have hindependent := h.mem_roster_beginPass.mp (List.mem_of_getElem? hi)
    have hindex : g.beginPass.rosterIndex? id = some i := h.rosterIndex?_of_getElem? hi
    have hvalue := hval id .independent hindependent
    simp only [required?, hindex, Option.bind_some] at hvalue
    rw [hvalue, Option.map_some]

/-- Values of a later graph are values of an earlier one, whose inputs are the values that its
variables have later. -/
theorem Preserves.isValuation (h : g.Preserves g') (hg : g.WellFormed)
    (hval : g'.beginPass.IsValuation inputs val) :
    g.beginPass.IsValuation (g.roster.map val) val := by
  intro id op hop
  rw [operation?_beginPass] at hop
  obtain ⟨node, hnode, rfl⟩ := Option.map_eq_some_iff.mp hop
  by_cases hindependent : node.operation = .independent
  · obtain ⟨i, hi⟩ := List.mem_iff_getElem?.mp
      ((hg.mem_roster id).mpr ⟨node, hnode, by rw [hindependent]; rfl⟩)
    have hindex : g.beginPass.rosterIndex? id = some i := hg.rosterIndex?_of_getElem? hi
    simp [hindependent, required?, hindex, hi]
  · obtain ⟨node', hnode', hsame⟩ := h id node hnode
    have hlater := hval id node'.operation (by rw [operation?_beginPass, hnode', Option.map_some])
    rw [hsame hindependent] at hlater
    rw [required?_of_ne _ _ _ hindependent] at hlater ⊢
    exact hlater

/-- What was recorded in a graph means the same later: on all inputs of the later graph its nodes
have the values of the earlier graph, where each variable is given the value it has later. -/
def Means (g g' : Graph α) : Prop :=
  ∀ inputs : List α, inputs.length = g'.roster.length →
    ∃ earlier, List.Forall₂ (fun id v => g'.HasValue inputs (.node id) v) g.roster earlier ∧
      ∀ id node, g.recorded.get id = some node →
        ∃ v, g'.HasValue inputs (.node id) v ∧ g.HasValue earlier (.node id) v

/-- Expressions that are preserved mean the same. -/
theorem Preserves.means (h : g.Preserves g') (hg : g.WellFormed) (hg' : g'.WellFormed) :
    g.Means g' := by
  intro inputs hinputs
  obtain ⟨val, hval, hvalue⟩ := hg'.exists_recorded_values hinputs
  have hlater : ∀ id, (∃ node, g.recorded.get id = some node) →
      g'.HasValue inputs (.node id) (val id) := by
    rintro id ⟨node, hnode⟩
    obtain ⟨node', hnode', _⟩ := h id node hnode
    apply hvalue
    rintro k ⟨⟩
    exact ⟨node', hnode'⟩
  refine ⟨g.roster.map val, ?_, fun id node hnode => ⟨val id, hlater id ⟨node, hnode⟩, ?_⟩⟩
  · rw [List.forall₂_map_right_iff, List.forall₂_same]
    intro id hid
    obtain ⟨node, hnode, _⟩ := (hg.mem_roster id).mp hid
    exact hlater id ⟨node, hnode⟩
  · apply hg.hasValue_of_recorded (h.isValuation hg hval)
    rintro k ⟨⟩
    exact ⟨node, hnode⟩

/-- On all inputs of the later graph the nodes recorded before have the values that they had, where
the variable at a position of the roster is given the value of an expression. -/
def Substitutes (g g' : Graph α) (index : Nat) (solved : Arg α) : Prop :=
  ∀ inputs : List α, inputs.length = g'.roster.length →
    ∃ v, g'.HasValue inputs solved v ∧ ∀ id node, g.recorded.get id = some node →
      ∃ u, g'.HasValue inputs (.node id) u ∧ g.HasValue (inputs.insertIdx index v) (.node id) u

/-- An elimination substitutes the solved expression for the variable. -/
theorem Eliminates.substitutes {index : Nat} {target : NodeId} {solved : Arg α}
    (h : g.Eliminates g' index target solved) (hg : g.WellFormed) (hg' : g'.WellFormed) :
    g.Substitutes g' index solved := by
  intro inputs hinputs
  obtain ⟨val, hval, hvalue⟩ := hg'.exists_recorded_values hinputs
  have hpreserves := h.preserves hg
  have hcopy : val target = solved.eval val := by
    have hrequired := hval target (.copy solved)
      (by rw [operation?_beginPass, h.copied, Option.map_some])
    rw [required?_of_ne _ _ _ (by simp)] at hrequired
    exact (Option.some.inj hrequired).symm
  obtain ⟨hlt, htarget⟩ := List.getElem?_eq_some_iff.mp h.position
  have hroster : g.roster.map val = inputs.insertIdx index (solved.eval val) := by
    have herase : (g.roster.map val).eraseIdx index = inputs := by
      rw [List.eraseIdx_map, ← h.roster, hg'.map_roster hval hinputs]
    rw [← herase, ← hcopy, ← htarget, ← List.getElem_map val]
    exact (List.insertIdx_eraseIdx_getElem (by simpa using hlt)).symm
  have hsolved : ∀ k, solved = .node k → ∃ node, g'.recorded.get k = some node := by
    rintro k rfl
    apply hg'.closed target _ h.copied
    simp [Operation.references, Operation.operands, Arg.node?]
  refine ⟨solved.eval val, hvalue solved hsolved, fun id node hnode => ⟨val id, ?_, ?_⟩⟩
  · obtain ⟨node', hnode', _⟩ := hpreserves id node hnode
    apply hvalue (.node id)
    rintro k ⟨⟩
    exact ⟨node', hnode'⟩
  · rw [← hroster]
    apply hg.hasValue_of_recorded (hpreserves.isValuation hg hval) (x := .node id)
    rintro k ⟨⟩
    exact ⟨node, hnode⟩

end Graph

end Straightline
