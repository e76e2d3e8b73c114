import Straightline.Proofs.Graph.Evolution
import Straightline.Proofs.Graph.Growth
import Straightline.Proofs.Solver.Building
import Straightline.Proofs.Solver.Counting

/-!
# Solutions do not depend on the target

If one path leads from the residual to the target, no operand beside the path reaches the target.
The expression that undoes the operations of the path is built from these operands, so it does not
reach the target either, and the target can become a copy of it without closing a cycle.
-/

namespace Straightline

namespace Graph

variable {α : Type} {g g' g'' : Graph α} {target : NodeId}

/-- Live nodes keep their operations, and the target is live. -/
structure Keeps (g g' : Graph α) (target : NodeId) : Prop where
  /-- Every live identifier was issued. -/
  issued : g'.Bounded
  /-- The target is live. -/
  live : g'.contains target = true
  /-- Live nodes keep their operations. -/
  operation : ∀ id op, g.operation? id = some op → g'.operation? id = some op

theorem Keeps.contains {id : NodeId} (h : g.Keeps g' target) (hid : g.contains id = true) :
    g'.contains id = true := by
  obtain ⟨op, hop⟩ := contains_iff.mp hid
  exact contains_iff.mpr ⟨op, h.operation id op hop⟩

theorem Bounded.keeps_record (h : g.Bounded) (htarget : g.contains target = true)
    (op : Operation (Arg α)) : g.Keeps (g.record op).2 target := by
  have hwrites := h.writes_record op
  have hkept : ∀ id op', g.operation? id = some op' → (g.record op).2.operation? id = some op' := by
    intro id op' hop
    have hne : id ≠ g.next := Nat.ne_of_lt (h id (contains_iff.mpr ⟨op', hop⟩))
    rw [operation?, hwrites.node?, if_neg hne]
    exact hop
  obtain ⟨op', hop⟩ := contains_iff.mp htarget
  refine ⟨fun id hid => ?_, contains_iff.mpr ⟨op', hkept target op' hop⟩, hkept⟩
  rw [contains, hwrites.node?] at hid
  split at hid
  · next heq => exact heq ▸ Nat.lt_succ_self _
  · exact Nat.lt_succ_of_lt (h id hid)

/-- Building on any operands. -/
theorem frame_keeps (target : NodeId) :
    Build.Frame (α := α) (fun g => g.Bounded ∧ g.contains target = true)
      (fun g g' => g.Keeps g' target) (fun _ _ => True) where
  refl h := ⟨h.1, h.2, fun _ _ hop => hop⟩
  trans h h' := ⟨h'.issued, h'.live, fun id op hop => h'.operation id op (h.operation id op hop)⟩
  inv h := ⟨h.issued, h.live⟩
  const _ _ := trivial
  keep _ _ := trivial
  record h _ _ _ _ := ⟨h.1.keeps_record h.2 _, trivial⟩

/-- An operand that refers to no node, or to a live one that does not reach the target. -/
def Apart (g : Graph α) (target : NodeId) (x : Arg α) : Prop :=
  ∀ k, x = .node k → g.contains k = true ∧ ¬ Reaches g.references k target

/-- A graph with more nodes, where no more operands reach the target. -/
structure Enlarges (g g' : Graph α) (target : NodeId) : Prop extends g.Keeps g' target where
  /-- The graph is proper. -/
  proper : g'.Proper
  /-- Operands that did not reach the target do not reach it now. -/
  apart : ∀ x, g.Apart target x → g'.Apart target x

/-- Building on operands that do not reach a live target. -/
theorem frame_enlarges (target : NodeId) :
    Build.Frame (α := α) (fun g => g.Proper ∧ g.contains target = true)
      (fun g g' => g.Enlarges g' target) (fun g x => g.Apart target x) where
  refl h := ⟨(frame_keeps target).refl ⟨h.1.issued, h.2⟩, h.1, fun _ hx => hx⟩
  trans h h' := ⟨(frame_keeps target).trans h.toKeeps h'.toKeeps, h'.proper,
    fun x hx => h'.apart x (h.apart x hx)⟩
  inv h := ⟨h.proper, h.live⟩
  const _ _ := by rintro k ⟨⟩
  keep h := h.apart _
  record := by
    rintro g op ⟨hg, htarget⟩ - - - hoperands
    have hrefs : ∀ k ∈ op.references, g.contains k = true ∧ ¬ Reaches g.references k target :=
      fun k hk => hoperands _ (Operation.mem_references.mp hk) k rfl
    have hkeeps := hg.issued.keeps_record htarget op
    refine ⟨⟨hkeeps, hg.record fun k hk => (hrefs k hk).1, ?_⟩, ?_⟩
    · intro x hx k hk
      obtain ⟨hk, hnot⟩ := hx k hk
      exact ⟨hkeeps.contains hk, fun hreach => hnot (hg.reaches_of_record hk hreach)⟩
    · rintro k ⟨⟩
      refine ⟨?_, hg.not_reaches_record htarget hrefs⟩
      rw [contains, (hg.issued.writes_record op).node?, if_pos rfl, Option.isSome_some]

/-- An operand that refers to no node, or to a recorded one that does not reach the target. -/
def Clear (g : Graph α) (target : NodeId) (x : Arg α) : Prop :=
  ∀ k, x = .node k → (∃ m, g.recorded.get k = some m) ∧ ¬ Reaches g.references k target

/-- A graph with more nodes, where no more operands reach the target. -/
structure Extends (g g' : Graph α) (target : NodeId) : Prop
    extends g.Evolves g', g.Grows g' where
  /-- The target is recorded. -/
  kept : ∃ m, g'.recorded.get target = some m
  /-- Operands that did not reach the target do not reach it now. -/
  clear : ∀ x, g.Clear target x → g'.Clear target x

theorem Extends.refl (h : g.WellFormed) (htarget : ∃ m, g.recorded.get target = some m) :
    g.Extends g target :=
  ⟨.refl h, .refl g, htarget, fun _ hx => hx⟩

theorem Extends.trans (h : g.Extends g' target) (h' : g'.Extends g'' target) :
    g.Extends g'' target :=
  ⟨h.toEvolves.trans h'.toEvolves, h.toGrows.trans h'.toGrows, h'.kept,
    fun x hx => h'.clear x (h.clear x hx)⟩

/-- A node on clear operands is clear. -/
theorem WellFormed.extends_record (h : g.WellFormed)
    (htarget : ∃ m, g.recorded.get target = some m) {op : Operation (Arg α)}
    (hclear : ∀ x ∈ op.operands, g.Clear target x) (hchain : op.opcode.isChain = false)
    (hnot : op.opcode ≠ .independent) (hground : op.opcode ≠ .copy → op.references ≠ []) :
    g.Extends (g.record op).2 target ∧ (g.record op).2.Clear target (.node g.next) := by
  have hlive : ∀ k, (∃ m, g.recorded.get k = some m) → g.contains k = true :=
    fun k ⟨m, hm⟩ => contains_of_recorded hm
  have hwrites := h.issued.writes_record op
  have hold : ∀ x, g.Clear target x → (g.record op).2.Clear target x := by
    intro x hx k hk
    obtain ⟨hrecorded, hreach⟩ := hx k hk
    exact ⟨hwrites.exists_recorded hrecorded,
      fun hnew => hreach (h.proper.reaches_of_record (hlive k hrecorded) hnew)⟩
  have hrefs : ∀ k ∈ op.references,
      (∃ m, g.recorded.get k = some m) ∧ ¬ Reaches g.references k target :=
    fun k hk => hclear _ (Operation.mem_references.mp hk) k rfl
  refine ⟨⟨h.evolves_record (fun k hk => (hrefs k hk).1) hchain hnot hground,
    h.grows_record op, hwrites.exists_recorded htarget, hold⟩, ?_⟩
  rintro k ⟨⟩
  exact ⟨⟨_, by rw [hwrites.recorded, if_pos rfl]⟩, h.proper.not_reaches_record (hlive _ htarget)
    fun k hk => ⟨hlive k (hrefs k hk).1, (hrefs k hk).2⟩⟩

/-- Building on recorded operands that do not reach a recorded target. -/
theorem frame_extends (target : NodeId) :
    Build.Frame (α := α) (fun g => g.WellFormed ∧ ∃ m, g.recorded.get target = some m)
      (fun g g' => g.Extends g' target) (fun g x => g.Clear target x) where
  refl h := .refl h.1 h.2
  trans := Extends.trans
  inv h := ⟨h.wellFormed, h.kept⟩
  const _ _ := by rintro k ⟨⟩
  keep h := h.clear _
  record h hchain hnot hground hoperands :=
    h.1.extends_record h.2 hoperands hchain hnot fun _ => hground

/-- What a recorded node depends on is recorded. -/
theorem WellFormed.exists_recorded_of_reaches (h : g.WellFormed) {root k : NodeId}
    (hroot : ∃ m, g.recorded.get root = some m) (hreach : Reaches g.references root k) :
    ∃ m, g.recorded.get k = some m := by
  induction hreach with
  | refl => exact hroot
  | tail _ hstep ih =>
    obtain ⟨m, hm⟩ := ih
    rw [references_of_operation (operation?_of_recorded hm)] at hstep
    exact h.closed _ m hm _ hstep

end Graph

namespace Solver

variable {α : Type} [Scalar α] {g g' : Graph α} {target : NodeId} {residual solved : Arg α}

/-- A solution undoes the operations of the only path. -/
theorem exists_steps_of_ok (hg : g.Proper)
    (h : Solver.inversion.solve g residual target = .ok (solved, g')) :
    ∃ root steps, residual = .node root ∧ g.contains root = true ∧
      (∀ other, g.Path target root other ↔ other = steps) ∧
      (∀ step ∈ steps, step.operation.opcode.isInvertible = true) ∧
      Inversion.undoAll (steps.map fun step => (step.operation, step.position))
        (.const Scalar.zero) g = (solved, g') := by
  cases residual with
  | const v => simp [inversion] at h
  | node root =>
    cases hpath : Inversion.path g root target with
    | error e => simp [inversion, hpath, bind, Except.bind] at h
    | ok list =>
      obtain ⟨hroot, steps, hsteps, hinvertible, rfl⟩ := Inversion.exists_path_of_ok hg hpath
      have hrun : (Inversion.undoAll (steps.map fun step => (step.operation, step.position))
          (.const Scalar.zero)).run g = (solved, g') := by
        simpa [inversion, hpath, bind, Except.bind, pure, Except.pure] using h
      exact ⟨root, steps, rfl, hroot, hsteps, hinvertible, hrun⟩

/-- Undoing the operations of the only path stays within a frame that admits the operands beside
the path. -/
theorem yields_undoAll {I : Graph α → Prop} {R : Graph α → Graph α → Prop}
    {Q : Graph α → Arg α → Prop} (hframe : Build.Frame I R Q) (hg : I g) {root : NodeId}
    {steps : List (Step α)} (hsteps : ∀ other, g.Path target root other ↔ other = steps)
    (hbeside : ∀ x, (∀ k, x = .node k →
      Reaches g.references root k ∧ ¬ Reaches g.references k target) → Q g x) :
    Build.Yields R Q g (Inversion.undoAll (steps.map fun step => (step.operation, step.position))
      (.const Scalar.zero)) := by
  refine hframe.undoAll hg (fun step hmem i x hi hne => hbeside x fun k hk => ?_)
    (hframe.const g Scalar.zero)
  obtain ⟨step, hstep, rfl⟩ := List.mem_map.mp hmem
  exact ((hsteps steps).mpr rfl).beside (fun other => (hsteps other).mp) step hstep i k (hk ▸ hi)
    hne

/-- The inversion of a path only adds nodes, and its answer does not reach the target. -/
theorem extends_inversion (h : g.WellFormed)
    (hresidual : ∀ k, residual = .node k → ∃ m, g.recorded.get k = some m)
    (htarget : ∃ m, g.recorded.get target = some m)
    (hsolve : Solver.inversion.solve g residual target = .ok (solved, g')) :
    g.Extends g' target ∧ g'.Clear target solved := by
  obtain ⟨root, steps, rfl, _, hsteps, _, hundo⟩ := exists_steps_of_ok h.proper hsolve
  have hyields := yields_undoAll (Graph.frame_extends target) ⟨h, htarget⟩ hsteps
    fun _ hx k hk => ⟨h.exists_recorded_of_reaches (hresidual root rfl) (hx k hk).1, (hx k hk).2⟩
  rwa [Build.Yields, hundo] at hyields

end Solver

end Straightline
