import Straightline.Proofs.Generation.Chains
import Straightline.Proofs.Solver.Inversion

/-!
# Answers of the solver

The answer is decided by the number of paths from the residual to the target. No path and more than
one are refused. If there is one path, the first operation on it that cannot be undone is the cause
of the refusal, and if there is none, the equation is solved by an expression without the target.
-/

namespace Straightline

namespace Solver

variable {α : Type} [Scalar α] {g : Graph α} {target : NodeId}

/-- The search for a path decides whether there is an answer. -/
theorem solve_of_error {root : NodeId} {e : Error} (h : Inversion.path g root target = .error e) :
    Solver.inversion.solve g (.node root) target = .error e := by
  simp [inversion, h, bind, Except.bind]

theorem solve_of_ok {root : NodeId} {list : List (Operation (Arg α) × Nat)}
    (h : Inversion.path g root target = .ok list) :
    Solver.inversion.solve g (.node root) target =
      .ok (Inversion.undoAll list (.const Scalar.zero) g) := by
  simp only [inversion, h, bind, Except.bind, pure, Except.pure]
  rfl

/-- Undoing the operations of the only path adds nodes and answers without the target. -/
theorem enlarges_undoAll (hg : g.Proper) (htarget : g.contains target = true) {root : NodeId}
    (hroot : g.contains root = true) {steps : List (Step α)}
    (hsteps : ∀ other, g.Path target root other ↔ other = steps) :
    Build.Yields (fun g g' => g.Enlarges g' target) (fun g x => g.Apart target x) g
      (Inversion.undoAll (steps.map fun step => (step.operation, step.position))
        (.const Scalar.zero)) :=
  yields_undoAll (Graph.frame_enlarges target) ⟨hg, htarget⟩ hsteps
    fun _ hx k hk => ⟨hg.closed.contains_of_reaches hroot (hx k hk).1, (hx k hk).2⟩

end Solver

/-- The solver answers by the number of paths from the residual to the target, whatever the graph
shares and wherever the target lies in it. -/
theorem solve_answers_by_path_count {α : Type} [Scalar α] {g : Graph α} {residual : Arg α}
    {target : NodeId} (hg : g.Proper) (htarget : g.contains target = true)
    (hresidual : ∀ root, residual = .node root → g.contains root = true) :
    (∀ v, residual = .const v →
      Solver.inversion.solve g residual target = .error (.solve .notPresent)) ∧
    ∀ root, residual = .node root →
      (g.pathCount root target = 0 →
        Solver.inversion.solve g residual target = .error (.solve .notPresent)) ∧
      (2 ≤ g.pathCount root target →
        Solver.inversion.solve g residual target = .error (.solve .multipleOccurrences)) ∧
      (g.pathCount root target = 1 → ∃ steps, g.Path target root steps ∧
        (∀ op, (steps.map fun step => step.operation.opcode).find? (!·.isInvertible) = some op →
          Solver.inversion.solve g residual target = .error (.solve (.unsolvable op))) ∧
        ((∀ step ∈ steps, step.operation.opcode.isInvertible = true) →
          ∃ solved g', Solver.inversion.solve g residual target = .ok (solved, g') ∧
            ∀ k, solved = .node k → ¬ Reaches g'.references k target)) := by
  constructor
  · rintro v rfl
    rfl
  · rintro root rfl
    have hroot := hresidual root rfl
    obtain ⟨hnone, hmany, hsingle⟩ := Inversion.path_eq hg hroot target
    refine ⟨fun hzero => Solver.solve_of_error (hnone hzero),
      fun htwo => Solver.solve_of_error (hmany htwo), fun hone => ?_⟩
    obtain ⟨steps, hsteps⟩ := Graph.pathCount_eq_one_iff.mp hone
    have hpath := (hsteps steps).mpr rfl
    have hfound := hsingle steps hpath hone
    refine ⟨steps, hpath, fun op hop => Solver.solve_of_error ?_, fun hinvertible => ?_⟩
    · rw [hfound, Inversion.found, Inversion.blocked?, hop]
      rfl
    · rw [Inversion.found, Inversion.blocked?_eq_none.mpr hinvertible] at hfound
      obtain ⟨_, hapart⟩ := Solver.enlarges_undoAll hg htarget hroot hsteps
      exact ⟨_, _, Solver.solve_of_ok hfound, fun k hk => (hapart k hk).2⟩

/-- A graph of two variables, `x` at zero and `y` at one: the quotient `6 / x`, a copy of it, the
chain `y - 7 + 6 / x`, the square of the chain and its sine. -/
def Graph.sample : Graph ℚ :=
  let ops : List (Operation (Arg ℚ)) :=
    [.independent, .independent, .binary .div (.const 6) (.node 0), .copy (.node 2),
      .chain .additive [(.direct, .node 1), (.inverse, .const 7), (.direct, .node 3)],
      .binary .mul (.node 4) (.node 4), .unary (.call .sin) (.node 4)]
  ops.foldl (fun g op => (g.record op).2) {}

theorem Graph.proper_sample : Graph.sample.Proper :=
  (((((((WellFormed.empty 0).proper.record (by decide)).record (by decide)).record
    (by decide)).record (by decide)).record (by decide)).record (by decide)).record (by decide)

/-- The steps from the chain to `x`. -/
def Graph.sampleSteps : List (Step ℚ) :=
  [⟨4, .chain .additive [(.direct, .node 1), (.inverse, .const 7), (.direct, .node 3)], 2⟩,
    ⟨3, .copy (.node 2), 0⟩, ⟨2, .binary .div (.const 6) (.node 0), 1⟩]

theorem Graph.path_sample : Graph.sample.Path 0 4 Graph.sampleSteps :=
  .step rfl rfl (.step rfl rfl (.step rfl rfl .done))

/-- The numbers of paths to `x` and to `y`. -/
theorem Graph.pathCount_sample :
    Graph.sample.pathCount 4 0 = 1 ∧ Graph.sample.pathCount 5 0 = 2 ∧
      Graph.sample.pathCount 6 0 = 1 ∧ Graph.sample.pathCount 3 1 = 0 := by
  have hrefs : sample.references 0 = [] ∧ sample.references 1 = [] ∧
      sample.references 2 = [0] ∧ sample.references 3 = [2] ∧ sample.references 4 = [1, 3] ∧
      sample.references 5 = [4, 4] ∧ sample.references 6 = [4] := by decide +kernel
  obtain ⟨h0, h1, h2, h3, h4, h5, h6⟩ := hrefs
  have hself := proper_sample.pathCount_self 0
  refine ⟨?_, ?_, ?_, ?_⟩ <;>
    simp [pathCount_eq_sum, h0, h1, h2, h3, h4, h5, h6, hself, one_add_one_eq_two]

/-- The chain is solved for `x`, its square is refused, its sine cannot be undone, and `y` does not
occur in the quotient. -/
theorem solve_sample_answers_by_path_count :
    Graph.sample.Proper ∧
      (Graph.sample.pathCount 4 0 = 1 ∧ ∃ solved g',
        Solver.inversion.solve Graph.sample (.node 4) 0 = .ok (solved, g') ∧
          ∀ k, solved = .node k → ¬ Reaches g'.references k 0) ∧
      (Graph.sample.pathCount 5 0 = 2 ∧ Solver.inversion.solve Graph.sample (.node 5) 0 =
        .error (.solve .multipleOccurrences)) ∧
      (Graph.sample.pathCount 6 0 = 1 ∧ Solver.inversion.solve Graph.sample (.node 6) 0 =
        .error (.solve (.unsolvable (.unary (.call .sin))))) ∧
      (Graph.sample.pathCount 3 1 = 0 ∧ Solver.inversion.solve Graph.sample (.node 3) 1 =
        .error (.solve .notPresent)) := by
  have hg := Graph.proper_sample
  obtain ⟨hchain, hsquare, hsine, hquotient⟩ := Graph.pathCount_sample
  have hlive : ∀ id, id < 7 → ∀ root, Arg.node id = (.node root : Arg ℚ) →
      Graph.sample.contains root = true := by
    intro id hid root hroot
    cases hroot
    revert id
    decide +kernel
  have hanswer := fun id (hid : id < 7) target (htarget : target < 7) =>
    (solve_answers_by_path_count hg (hlive target htarget target rfl) (hlive id hid)).2 id rfl
  have honly : ∀ id steps other, Graph.sample.pathCount id 0 = 1 →
      Graph.sample.Path 0 id steps → Graph.sample.Path 0 id other → other = steps := by
    intro id steps other hone hsteps hother
    obtain ⟨only, honly⟩ := Graph.pathCount_eq_one_iff.mp hone
    rw [(honly other).mp hother, (honly steps).mp hsteps]
  refine ⟨hg, ⟨hchain, ?_⟩, ⟨hsquare, (hanswer 5 (by decide) 0 (by decide)).2.1 hsquare.ge⟩,
    ⟨hsine, ?_⟩, ⟨hquotient, (hanswer 3 (by decide) 1 (by decide)).1 hquotient⟩⟩
  · obtain ⟨steps, hsteps, _, hsolved⟩ := (hanswer 4 (by decide) 0 (by decide)).2.2 hchain
    obtain rfl := honly 4 _ _ hchain Graph.path_sample hsteps
    exact hsolved (by decide +kernel)
  · obtain ⟨steps, hsteps, hblocked, _⟩ := (hanswer 6 (by decide) 0 (by decide)).2.2 hsine
    obtain rfl := honly 6 (⟨6, _, 0⟩ :: _) _ hsine (.step rfl rfl Graph.path_sample) hsteps
    exact hblocked _ rfl

end Straightline
