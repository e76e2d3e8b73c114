import Straightline.Proofs.Generation.Names
import Straightline.Proofs.Workspace.Programs

/-!
# The slots of reachable handlers

What a client can rely on in the slots and names of a bundle, in any workspace that it can reach:
which slots belong to inputs, outputs and temporaries, and that names tell slots apart.
-/

namespace Straightline

variable {α : Type} [Scalar α] {w : Workspace α} {issued : List (Symbol α)} {h : HandlerId}
  {handler : Handler α} {outputs : List (Symbol α)}

/-- With any settings, the slots of a bundle are partitioned among the independent variables, what
stands for the requested nodes, and the temporaries. The position of a requested node is the first
one that asks for it, and the number of temporaries is that of their slots. Every stored value has a
name, and with the names of three arrays two of them have one name exactly if they have one slot. -/
theorem generate_slots_partitioned (hreach : Reachable w issued)
    (hhandler : w.handler? h = some handler) (hfree : handler.held = false)
    (howned : ∀ s ∈ outputs, s.Known issued ∧ Session.Owned w h s) (policy : Policy α)
    (naming : Naming) :
    ∃ bundle w', Session.generate h policy naming outputs w = .ok bundle w' ∧
      bundle.graph.roster = handler.graph.roster ∧
      bundle.graph.StandsFor handler.settings.optimize (outputs.map Symbol.toArg) bundle.outputs ∧
      bundle.graph.Partitioned bundle.outputs ∧
      (∀ id ∈ bundle.graph.dependents bundle.outputs,
        ∃ i, bundle.dependentIndex? id = some i ∧ FirstAt bundle.outputs (.node id) i) ∧
      bundle.temporaryCount =
        ((bundle.graph.temporaries bundle.outputs).image bundle.graph.slot).card ∧
      (∀ id, id ∈ bundle.graph.roster ∨ id ∈ bundle.graph.order →
        bundle.variableName? id ≠ none) ∧
      ∀ dependent independent temporary : String,
        naming = Naming.arrays dependent independent temporary →
        dependent ≠ independent → dependent ≠ temporary → independent ≠ temporary →
        (∀ id ∈ handler.graph.roster, handler.graph.displayName? id = none) →
        ∀ a c, a ∈ bundle.graph.roster ∨ a ∈ bundle.graph.order →
          c ∈ bundle.graph.roster ∨ c ∈ bundle.graph.order →
          (bundle.variableName? a = bundle.variableName? c ↔
            bundle.graph.slot a = bundle.graph.slot c) := by
  have hgraph := hreach.wellFormed.graph h handler hhandler
  have hlive := hreach.exists_recorded hhandler howned
  have hprepares := hgraph.prepares handler.settings.optimize policy hlive
  have hevolves := hprepares.toEvolves.shared handler.settings.reuse
  have hpartitioned := hgraph.partitioned_shared handler.settings.optimize handler.settings.reuse
    policy hlive
  have hstands := (hgraph.standsFor_prepared handler.settings.optimize policy hlive).shared
    handler.settings.reuse
  obtain ⟨w', hgenerate⟩ := hreach.exists_generate hhandler hfree howned policy naming
  refine ⟨_, w', hgenerate, Graph.roster_shared .., hstands, hpartitioned,
    fun id => Bundle.dependentIndex?_of_mem hpartitioned,
    Bundle.temporaryCount_eq_card hpartitioned,
    fun id => Bundle.variableName?_ne_none hpartitioned, ?_⟩
  intro dependent independent temporary hnaming hdi hdt hit hnone a c ha hc
  have hapart := Naming.Apart.of_undisplayed hdi hdt hit (Graph.display?_eq_none hnone)
  refine Bundle.variableName?_eq_iff hpartitioned hevolves.wellFormed hnaming ?_ ha hc
  rw [Graph.display?_shared]
  exact hapart

/-- A flattened graph with a temporary: the requested nodes take the slots two and three. -/
theorem generate_elimination_slots_partitioned :
    ∃ (w : Workspace ℚ) (issued : List (Symbol ℚ)) (handler : Handler ℚ), Reachable w issued ∧
      w.handler? 0 = some handler ∧ handler.held = false ∧ handler.settings.optimize = true ∧
      (∀ s ∈ Request.eliminationOutputs, s.Known issued ∧ Session.Owned w 0 s) ∧
      (∀ id ∈ handler.graph.roster, handler.graph.displayName? id = none) ∧
      ∃ bundle w', Session.generate 0 Policy.everything Naming.standard
          Request.eliminationOutputs w = .ok bundle w' ∧
        bundle.graph.Partitioned bundle.outputs ∧
        bundle.graph.order.map bundle.graph.slot = [4, 3, 2] ∧
        ∀ a c, a ∈ bundle.graph.roster ∨ a ∈ bundle.graph.order →
          c ∈ bundle.graph.roster ∨ c ∈ bundle.graph.order →
          (bundle.variableName? a = bundle.variableName? c ↔
            bundle.graph.slot a = bundle.graph.slot c) := by
  let final := Request.runAll (Request.elimination true) {} []
  have hallowed : Request.Allowed (Request.elimination true) {} [] := by decide +kernel
  have hstate : (final.1.handler? 0).any (fun handler => !handler.held &&
      handler.settings.optimize && handler.graph.roster.all fun id =>
        (handler.graph.displayName? id).isNone) = true := by decide +kernel
  have howned : ∀ s ∈ Request.eliminationOutputs, s.Known final.2 ∧ Session.Owned final.1 0 s := by
    decide +kernel
  have hslots : Session.succeedsWith (Session.generate 0 Policy.everything Naming.standard
      Request.eliminationOutputs) final.1
        (fun bundle => bundle.graph.order.map bundle.graph.slot == [4, 3, 2]) = true := by
    decide +kernel
  obtain ⟨hreach, handler, hhandler, hfacts⟩ := Request.exists_handler final rfl hallowed hstate
  obtain ⟨⟨hfree, hoptimize⟩, hnone⟩ :
      (handler.held = false ∧ handler.settings.optimize = true) ∧
        ∀ id ∈ handler.graph.roster, handler.graph.displayName? id = none := by
    simpa using hfacts
  obtain ⟨bundle, w', hgenerate, _, _, hpartitioned, _, _, _, hnames⟩ :=
    generate_slots_partitioned hreach hhandler hfree howned Policy.everything Naming.standard
  have hslots := Session.check_of_succeedsWith hslots hgenerate
  exact ⟨final.1, final.2, handler, hreach, hhandler, hfree, hoptimize, howned, hnone, bundle, w',
    hgenerate, hpartitioned, eq_of_beq hslots,
    hnames "y" "x" "v" rfl (by decide) (by decide) (by decide) hnone⟩

end Straightline
