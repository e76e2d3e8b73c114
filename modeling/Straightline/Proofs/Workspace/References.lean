import Straightline.Proofs.Generation.Frame
import Straightline.Proofs.Generation.ReferenceCount
import Straightline.Proofs.Workspace.Programs

/-!
# Reference counts of reachable handlers

After a pass the reference count of every recorded node of a handler is the number of its
references, whatever earlier passes have counted: the operand positions that refer to it, of nodes
that the outputs reach, and the output positions that request it. Flattening and the sharing of
slots leave these counts alone.
-/

namespace Straightline

variable {α : Type}

/-- A pass leaves the counted references of the recorded nodes. -/
theorem Graph.WellFormed.refs_shared {g : Graph α} (h : g.WellFormed) (policy : Policy α)
    {outputs : List (Arg α)}
    (hlive : ∀ id, Arg.node id ∈ outputs → ∃ node, g.recorded.get id = some node)
    (optimize reuse : Bool) {id : NodeId} {node : Node α} (hid : g.recorded.get id = some node) :
    ((g.prepared optimize policy outputs).2.shared reuse).pass.refs.get id =
      (g.beginPass.countReferences outputs).2.get id := by
  have hshared : ∀ g' : Graph α, (g'.shared reuse).pass.refs = g'.pass.refs := by
    intro g'
    cases reuse <;> rfl
  rw [hshared]
  cases optimize with
  | false => rfl
  | true =>
    obtain ⟨seen, hflattenable⟩ := h.exists_flattenable policy hlive
    exact (hflattenable.flatExtension.kept id node hid).2.2.1

variable [Scalar α] {w : Workspace α} {issued : List (Symbol α)} {h : HandlerId}
  {handler : Handler α} {outputs : List (Symbol α)}

/-- In every workspace that a client can reach, a pass counts the references of each recorded node
exactly, and none exactly for the nodes that the outputs do not reach. Counting ends on every graph,
with cycles or without: it is over after the steps that it is given, further steps change nothing,
and if no node was released the stack is empty. -/
theorem generate_counts_references (hreach : Reachable w issued)
    (hhandler : w.handler? h = some handler) (hfree : handler.held = false)
    (howned : ∀ s ∈ outputs, s.Known issued ∧ Session.Owned w h s) (policy : Policy α)
    (naming : Naming) :
    (∃ bundle w', Session.generate h policy naming outputs w = .ok bundle w' ∧
      ∀ id node, handler.graph.recorded.get id = some node →
        (bundle.graph.pass.refs.get id : ℕ∞) =
            (handler.graph.beginPass.edges (outputs.map Symbol.toArg) id).encard +
              (Graph.requests (outputs.map Symbol.toArg) id).encard ∧
          (bundle.graph.pass.refs.get id = 0 ↔
            ¬ handler.graph.beginPass.Reached (outputs.map Symbol.toArg) id)) ∧
    ∀ (g : Graph α) (args : List (Arg α)) (fuel : Nat), g.Bounded →
      (args.filterMap Arg.node?).length + g.operandCount ≤ fuel →
        References.count (fun id => (g.operation? id).map Operation.references) fuel
            (args.filterMap Arg.node?).reverse ∅ = g.countReferences args ∧
          References.Halted (fun id => (g.operation? id).map Operation.references)
            (g.countReferences args).1 ∧
          (g.Closed → (∀ id, .node id ∈ args → g.contains id = true) →
            (g.countReferences args).1 = []) := by
  have hgraph := hreach.wellFormed.graph h handler hhandler
  have hlive := hreach.exists_recorded hhandler howned
  have hcontains : ∀ id, Arg.node id ∈ outputs.map Symbol.toArg →
      handler.graph.beginPass.contains id = true :=
    fun id hid => Graph.contains_beginPass.mpr (hlive id hid)
  have hclosed := hgraph.beginPass.closed_all
  have hbounded := hgraph.beginPass.issued
  constructor
  · obtain ⟨w', hgenerate⟩ := hreach.exists_generate hhandler hfree howned policy naming
    refine ⟨_, w', hgenerate, fun id node hid => ?_⟩
    rw [hgraph.refs_shared policy hlive _ _ hid, add_comm]
    exact ⟨Graph.countReferences_eq_encard hclosed hbounded hcontains id,
      Graph.countReferences_eq_zero_iff hclosed hbounded hcontains id⟩
  · intro g args fuel hg hfuel
    refine ⟨Graph.countReferences_of_le hg args hfuel, Graph.halted_countReferences hg args, ?_⟩
    intro hgclosed hargs
    obtain ⟨_, _, hcount, _⟩ := Graph.countReferences_complete hgclosed hg hargs
    rw [hcount]

/-- The references of what is recorded after an elimination, one of them not reached, where an
output is requested twice. -/
theorem generate_elimination_counts_references :
    ∃ (w : Workspace ℚ) (issued : List (Symbol ℚ)) (handler : Handler ℚ), Reachable w issued ∧
      w.handler? 0 = some handler ∧ handler.held = false ∧
      (∀ s ∈ Request.eliminationOutputs, s.Known issued ∧ Session.Owned w 0 s) ∧
      (∃ bundle w',
        Session.generate 0 Policy.shared Naming.standard Request.eliminationOutputs w =
          .ok bundle w' ∧
        ∀ id node, handler.graph.recorded.get id = some node →
          (bundle.graph.pass.refs.get id : ℕ∞) =
              (handler.graph.beginPass.edges
                  (Request.eliminationOutputs.map Symbol.toArg) id).encard +
                (Graph.requests (Request.eliminationOutputs.map Symbol.toArg) id).encard ∧
            (bundle.graph.pass.refs.get id = 0 ↔ ¬ handler.graph.beginPass.Reached
              (Request.eliminationOutputs.map Symbol.toArg) id)) ∧
      handler.graph.Bounded ∧ handler.graph.Closed ∧
      (handler.graph.countReferences (Request.eliminationOutputs.map Symbol.toArg)).1 = [] := by
  obtain ⟨w, issued, handler, hreach, hhandler, hfree, _, _, howned, _⟩ :=
    Reachable.exists_elimination true
  obtain ⟨hcounts, hends⟩ := generate_counts_references hreach hhandler hfree howned Policy.shared
    Naming.standard
  have hgraph := hreach.wellFormed.graph 0 handler hhandler
  refine ⟨w, issued, handler, hreach, hhandler, hfree, howned, hcounts, hgraph.issued,
    hgraph.closed_all, ?_⟩
  refine (hends handler.graph _ _ hgraph.issued (Nat.le_refl _)).2.2 hgraph.closed_all ?_
  intro id hid
  obtain ⟨node, hnode⟩ := hreach.exists_recorded hhandler howned id hid
  exact Graph.contains_of_recorded hnode

example : ((Request.runAll (Request.elimination true) {} []).1.handler? 0).map (fun handler =>
    (List.range 5).map (handler.graph.beginPass.countReferences
      (Request.eliminationOutputs.map Symbol.toArg)).2.get) = some [4, 2, 1, 0, 2] := by
  decide +kernel

end Straightline
