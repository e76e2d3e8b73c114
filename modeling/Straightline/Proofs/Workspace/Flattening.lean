import Straightline.Proofs.Generation.Frame
import Straightline.Proofs.Generation.NormalForm
import Straightline.Proofs.Workspace.Programs
import Straightline.Render.C

/-!
# Flattened graphs of reachable handlers

What flattening does to the graph of a handler, in any workspace that a client can reach. It builds
its nodes beside the recorded ones and touches none of those. What the final order and the outputs
reach is in normal form, and under a policy that stores what is shared nothing is left to splice.
Where no right operand is spliced, flattening changes no result over any base type in which zero and
one can be dropped in front.
-/

namespace Straightline

theorem C.storesShared_policy {α : Type} : (C.policy : Policy α).StoresShared := by
  intro node refs hrefs
  simp [C.policy, hrefs]

/-- The right operands of the counted arithmetic nodes are constants or have slots. -/
def Graph.hasStoredRights {α : Type} (g : Graph α) : Bool :=
  (List.range g.next).all fun id =>
    g.pass.refs.get id == 0 ||
      match g.operation? id with
      | some (.binary (.arith _) _ (.node a)) => g.slot a != 0
      | _ => true

/-- Operands with slots are not spliced. -/
theorem Graph.Flattenable.leftNested {α : Type} {g : Graph α} {outputs : List (Arg α)}
    {seen : List NodeId} (hg : g.Flattenable outputs seen) (h : g.hasStoredRights = true) :
    g.LeftNested outputs := by
  intro id hreached tag l r hop t hsplices
  have hid := (mem_seen_iff_reached hg.counted).mpr hreached
  obtain ⟨a, rfl, _, hpath⟩ := hsplices.exclusive
  have hslot : g.slot a ≠ 0 := by
    have hcheck := List.all_eq_true.mp h id (List.mem_range.mpr (hg.lt_of_seen hid))
    simpa [(hg.counted.seen_iff id).mpr hid, hop] using hcheck
  rcases hpath.cases_head with heq | ⟨_, howns, _⟩
  · obtain rfl : a = t := by simpa using heq
    exact hslot hsplices.slot
  · exact hslot howns.1.isAlias.1

/-- Three variables, the difference of the first two, which the third is eliminated for, and a
product and a quotient of its sum with them. -/
def Request.differences : List (Request ℕ) :=
  [.create { optimize := true }, .newVariable 0, .newVariable 0, .newVariable 0,
    .binary (.binary .sub) (.var 0 0) (.var 0 1), .binary (.binary .sub) (.var 0 2) (.var 0 3),
    .eliminate 0 (.var 0 2) (.var 0 4), .binary (.binary .add) (.var 0 2) (.var 0 1),
    .binary (.binary .sub) (.var 0 5) (.var 0 0), .binary (.binary .mul) (.var 0 6) (.var 0 1),
    .binary (.binary .div) (.var 0 7) (.var 0 0)]

/-- The quotient and a parameter. -/
def Request.differencesOutputs : List (Symbol ℕ) := [.var 0 8, .param 2]

/-- The client can ask for the outputs, and every right operand of them has a slot. -/
theorem Reachable.exists_differences :
    ∃ (w : Workspace ℕ) (issued : List (Symbol ℕ)) (handler : Handler ℕ), Reachable w issued ∧
      w.handler? 0 = some handler ∧ handler.held = false ∧ handler.settings.optimize = true ∧
      (∀ s ∈ Request.differencesOutputs, s.Known issued ∧ Session.Owned w 0 s) ∧
      (handler.graph.scheduled Policy.shared
        (Request.differencesOutputs.map Symbol.toArg)).LeftNested
          (Request.differencesOutputs.map Symbol.toArg) ∧
      (Request.runAll Request.differences {} []).1 = w := by
  let final := Request.runAll Request.differences {} []
  have hallowed : Request.Allowed Request.differences {} [] := by decide +kernel
  have hstate : (final.1.handler? 0).any (fun handler => !handler.held &&
      handler.settings.optimize && (handler.graph.scheduled Policy.shared
        (Request.differencesOutputs.map Symbol.toArg)).hasStoredRights) = true := by
    decide +kernel
  have howned : ∀ s ∈ Request.differencesOutputs,
      s.Known final.2 ∧ Session.Owned final.1 0 s := by
    decide +kernel
  obtain ⟨hreach, handler, hhandler, hfacts⟩ := Request.exists_handler final rfl hallowed hstate
  obtain ⟨⟨hfree, hoptimize⟩, hrights⟩ :
      (handler.held = false ∧ handler.settings.optimize = true) ∧ _ := by
    simpa using hfacts
  obtain ⟨seen, hflattenable⟩ := (hreach.wellFormed.graph 0 handler hhandler).exists_flattenable
    Policy.shared (hreach.exists_recorded hhandler howned)
  exact ⟨final.1, final.2, handler, hreach, hhandler, hfree, hoptimize, howned,
    hflattenable.leftNested hrights, rfl⟩

section Reachable

variable {α : Type} [Scalar α] {w : Workspace α} {issued : List (Symbol α)} {h : HandlerId}
  {handler : Handler α} {outputs : List (Symbol α)}

/-- In every workspace that a client can reach, a pass that flattens changes no recorded node, gives
each stored one a flattened node of its own, and leaves alive the recorded nodes and what it
built. -/
theorem generate_flattens_beside (hreach : Reachable w issued)
    (hhandler : w.handler? h = some handler) (hfree : handler.held = false)
    (hoptimize : handler.settings.optimize = true)
    (howned : ∀ s ∈ outputs, s.Known issued ∧ Session.Owned w h s) (policy : Policy α)
    (naming : Naming) :
    let args := outputs.map Symbol.toArg
    let before := handler.graph.scheduled policy args
    let after := (before.flatten args).2
    ∃ bundle w', Session.generate h policy naming outputs w = .ok bundle w' ∧
      w'.handler? h = some { handler with graph := bundle.graph, held := true } ∧
      bundle.graph = after.shared handler.settings.reuse ∧
      before.FlatExtension after ∧
      bundle.graph.recorded = handler.graph.recorded ∧
      bundle.graph.count = handler.graph.count ∧
      bundle.graph.roster = handler.graph.roster ∧
      (∀ id, bundle.graph.contains id = true ↔
        (∃ node, handler.graph.recorded.get id = some node) ∨
          handler.graph.next ≤ id ∧ id < bundle.graph.next) ∧
      ∀ id, (∃ built, bundle.graph.flatNode? id = some built) ↔
        handler.graph.next ≤ id ∧ id < bundle.graph.next := by
  intro args before after
  have hgraph := hreach.wellFormed.graph h handler hhandler
  have hlive := hreach.exists_recorded hhandler howned
  obtain ⟨seen, hflattenable⟩ := hgraph.exists_flattenable policy hlive
  have hextension : before.FlatExtension after := hflattenable.flatExtension
  have hgenerate := Session.generate_of_ok hhandler hfree policy naming
    (fun s hs => (howned s hs).2) (hgraph.generate_eq_prepared handler.settings policy hlive)
  rw [hoptimize] at hgenerate
  refine ⟨_, _, hgenerate, ?_, rfl, hextension, ?_⟩
  · rw [Workspace.handler?_put, if_pos rfl]
  · generalize handler.settings.reuse = reuse
    cases reuse <;> exact ⟨rfl, rfl, rfl, hextension.contains_iff, hextension.built⟩

/-- Two chains are built, one of them for three nodes and an alias. -/
theorem generate_differences_flattens_beside :
    ∃ (w : Workspace ℕ) (issued : List (Symbol ℕ)) (handler : Handler ℕ), Reachable w issued ∧
      w.handler? 0 = some handler ∧ handler.held = false ∧ handler.settings.optimize = true ∧
      (∀ s ∈ Request.differencesOutputs, s.Known issued ∧ Session.Owned w 0 s) ∧
      let args := Request.differencesOutputs.map Symbol.toArg
      let before := handler.graph.scheduled Policy.shared args
      let after := (before.flatten args).2
      ∃ bundle w', Session.generate 0 Policy.shared Naming.standard Request.differencesOutputs w =
          .ok bundle w' ∧
        w'.handler? 0 = some { handler with graph := bundle.graph, held := true } ∧
        bundle.graph = after.shared handler.settings.reuse ∧
        before.FlatExtension after ∧
        bundle.graph.recorded = handler.graph.recorded ∧
        bundle.graph.count = handler.graph.count ∧
        bundle.graph.roster = handler.graph.roster ∧
        (∀ id, bundle.graph.contains id = true ↔
          (∃ node, handler.graph.recorded.get id = some node) ∨
            handler.graph.next ≤ id ∧ id < bundle.graph.next) ∧
        (∀ id, (∃ built, bundle.graph.flatNode? id = some built) ↔
          handler.graph.next ≤ id ∧ id < bundle.graph.next) ∧
        bundle.graph.next = 11 ∧ bundle.graph.order = [10] ∧
        (List.range 9).map bundle.graph.counterpart? =
          [some 0, some 1, some 9, some 9, none, some 9, some 9, some 10, some 10] := by
  obtain ⟨w, issued, handler, hreach, hhandler, hfree, hoptimize, howned, _, hrun⟩ :=
    Reachable.exists_differences
  have hbuilt : Session.succeedsWith (Session.generate 0 Policy.shared Naming.standard
      Request.differencesOutputs) (Request.runAll Request.differences {} []).1 (fun bundle =>
        decide (bundle.graph.next = 11 ∧ bundle.graph.order = [10] ∧
          (List.range 9).map bundle.graph.counterpart? =
            [some 0, some 1, some 9, some 9, none, some 9, some 9, some 10, some 10])) = true := by
    decide +kernel
  rw [hrun] at hbuilt
  obtain ⟨bundle, w', hgenerate, hheld, hgraph, hextension, hrecorded, hcount, hroster, hlive,
    hflat⟩ := generate_flattens_beside hreach hhandler hfree hoptimize howned Policy.shared
      Naming.standard
  have hfacts := Session.check_of_succeedsWith hbuilt hgenerate
  exact ⟨w, issued, handler, hreach, hhandler, hfree, hoptimize, howned, bundle, w', hgenerate,
    hheld, hgraph, hextension, hrecorded, hcount, hroster, hlive, hflat, of_decide_eq_true hfacts⟩

/-- In every workspace that a client can reach, a pass that flattens leaves a graph in which all
that the final order and the outputs reach is in normal form, and fully flat if the policy stores
what is shared. -/
theorem generate_flattened_normal (hreach : Reachable w issued)
    (hhandler : w.handler? h = some handler) (hfree : handler.held = false)
    (hoptimize : handler.settings.optimize = true)
    (howned : ∀ s ∈ outputs, s.Known issued ∧ Session.Owned w h s) (policy : Policy α)
    (naming : Naming) :
    (∃ bundle w', Session.generate h policy naming outputs w = .ok bundle w' ∧
      bundle.isOptimized = true ∧
      ∀ id op,
        bundle.graph.Reached (bundle.graph.order.map Arg.node ++ bundle.outputs) id →
          bundle.graph.operation? id = some op →
            bundle.graph.NormalNode id op ∧
              (policy.StoresShared → bundle.graph.FullyFlat op)) ∧
    (Policy.shared : Policy α).StoresShared ∧ (C.policy : Policy α).StoresShared := by
  have hgraph := hreach.wellFormed.graph h handler hhandler
  have hlive := hreach.exists_recorded hhandler howned
  obtain ⟨w', hgenerate⟩ := hreach.exists_generate hhandler hfree howned policy naming
  rw [hoptimize] at hgenerate
  exact ⟨⟨_, w', hgenerate, Graph.isSome_flat_shared .., fun _ _ =>
    hgraph.normalNode_shared policy hlive handler.settings.reuse⟩,
    Policy.storesShared_shared, C.storesShared_policy⟩

/-- The sum and the product are different families, so one chain has the other for an operand. The
alias of the first difference is spliced into the sum. -/
theorem generate_differences_flattened_normal :
    ∃ (w : Workspace ℕ) (issued : List (Symbol ℕ)) (handler : Handler ℕ), Reachable w issued ∧
      w.handler? 0 = some handler ∧ handler.held = false ∧ handler.settings.optimize = true ∧
      (∀ s ∈ Request.differencesOutputs, s.Known issued ∧ Session.Owned w 0 s) ∧
      ∃ bundle w',
        Session.generate 0 C.policy Naming.standard Request.differencesOutputs w =
          .ok bundle w' ∧
        bundle.isOptimized = true ∧
        (∀ id op,
          bundle.graph.Reached (bundle.graph.order.map Arg.node ++ bundle.outputs) id →
            bundle.graph.operation? id = some op →
              bundle.graph.NormalNode id op ∧ bundle.graph.FullyFlat op) ∧
        bundle.graph.order = [10] ∧ bundle.outputs = [.node 10, .const 2] ∧
        bundle.graph.operation? 10 = some (.chain .multiplicative
          [(.direct, .node 9), (.direct, .node 1), (.inverse, .node 0)]) ∧
        bundle.graph.operation? 9 = some (.chain .additive
          [(.direct, .node 0), (.inverse, .node 1), (.direct, .node 1), (.inverse, .node 0)]) := by
  obtain ⟨w, issued, handler, hreach, hhandler, hfree, hoptimize, howned, _, hrun⟩ :=
    Reachable.exists_differences
  have hchains : Session.succeedsWith (Session.generate 0 C.policy Naming.standard
      Request.differencesOutputs) (Request.runAll Request.differences {} []).1 (fun bundle =>
        decide (bundle.graph.order = [10] ∧ bundle.outputs = [.node 10, .const 2] ∧
          bundle.graph.operation? 10 = some (.chain .multiplicative
            [(.direct, .node 9), (.direct, .node 1), (.inverse, .node 0)]) ∧
          bundle.graph.operation? 9 = some (.chain .additive
            [(.direct, .node 0), (.inverse, .node 1), (.direct, .node 1),
              (.inverse, .node 0)]))) = true := by
    decide +kernel
  rw [hrun] at hchains
  obtain ⟨⟨bundle, w', hgenerate, hflat, hnormal⟩, _, hstores⟩ :=
    generate_flattened_normal hreach hhandler hfree hoptimize howned C.policy Naming.standard
  have hfacts := Session.check_of_succeedsWith hchains hgenerate
  exact ⟨w, issued, handler, hreach, hhandler, hfree, hoptimize, howned, bundle, w', hgenerate,
    hflat, fun id op hid hop => (hnormal id op hid hop).imp_right fun hfully => hfully hstores,
    of_decide_eq_true hfacts⟩

/-- In every workspace that a client can reach, if no node that the outputs reach splices its right
operand, the program of a pass that flattens answers every input like that of a pass that does not.
Of the base type only the laws of zero and one in front are used. -/
theorem flattening_left_nested_preserves_outputs (laws : UnitLaws α) (hreach : Reachable w issued)
    (hhandler : w.handler? h = some handler) (hfree : handler.held = false)
    (howned : ∀ s ∈ outputs, s.Known issued ∧ Session.Owned w h s) (policy : Policy α)
    (hleft : (handler.graph.scheduled policy (outputs.map Symbol.toArg)).LeftNested
      (outputs.map Symbol.toArg)) (naming : Naming) :
    ∃ flat plain w₁ w₂ p q,
      (do
        Session.configure h fun settings => { settings with optimize := true }
        Session.generate h policy naming outputs : Session α (Bundle α)) w = .ok flat w₁ ∧
      (do
        Session.configure h fun settings => { settings with optimize := false }
        Session.generate h policy naming outputs : Session α (Bundle α)) w = .ok plain w₂ ∧
      flat.isOptimized = true ∧ plain.isOptimized = false ∧
      flat.compile = .ok p ∧ plain.compile = .ok q ∧
      (∀ inputs, inputs.length = handler.graph.roster.length →
        ∃ values, p.evaluate inputs = .ok values) ∧
      ∀ inputs, p.evaluate inputs = q.evaluate inputs := by
  have hgraph := hreach.wellFormed.graph h handler hhandler
  have hlive := hreach.exists_recorded hhandler howned
  have hsymbols := fun s hs => (howned s hs).2
  obtain ⟨w₁, hflat⟩ := Session.generate_of_configure hhandler hfree hgraph hsymbols hlive
    (fun settings => { settings with optimize := true }) policy naming
  obtain ⟨w₂, hplain⟩ := Session.generate_of_configure hhandler hfree hgraph hsymbols hlive
    (fun settings => { settings with optimize := false }) policy naming
  have hprepares := fun optimize => hgraph.prepares optimize policy hlive
  obtain ⟨p, hp, hpcount, hpvalue⟩ := (hprepares true).exists_compile handler.settings.reuse naming
  obtain ⟨q, hq, hqcount, hqvalue⟩ := (hprepares false).exists_compile handler.settings.reuse naming
  refine ⟨_, _, w₁, w₂, p, q, hflat, hplain, Graph.isSome_flat_shared ..,
    Graph.isSome_flat_shared .., hp, hq, ?_, ?_⟩
  · intro inputs hinputs
    obtain ⟨val, hval⟩ := (hprepares true).exists_valuation hinputs
    exact ⟨_, hpvalue inputs val hval hinputs⟩
  · refine Program.evaluate_congr (hpcount.trans hqcount.symm) fun inputs hinputs => ?_
    rw [hpcount] at hinputs
    obtain ⟨val, hval⟩ := (hprepares false).exists_valuation hinputs
    obtain ⟨seen, hflattenable⟩ := hgraph.exists_flattenable policy hlive
    obtain ⟨val', hval', hsame⟩ := hflattenable.exists_isValuation_flatten laws
      (hleft.enterable laws hflattenable.counted val) hval
    rw [hpvalue inputs val' hval' hinputs, hqvalue inputs val hval hinputs]
    exact congrArg Except.ok hsame

/-- Over the natural numbers with differences cut off at zero, where chains cannot be combined. -/
theorem flattening_differences_preserves_outputs :
    ¬ ChainLaws ℕ ∧ UnitLaws ℕ ∧
    ∃ (w : Workspace ℕ) (issued : List (Symbol ℕ)) (handler : Handler ℕ), Reachable w issued ∧
      w.handler? 0 = some handler ∧ handler.held = false ∧
      (∀ s ∈ Request.differencesOutputs, s.Known issued ∧ Session.Owned w 0 s) ∧
      (handler.graph.scheduled Policy.shared
        (Request.differencesOutputs.map Symbol.toArg)).LeftNested
          (Request.differencesOutputs.map Symbol.toArg) ∧
      ∃ flat plain w₁ w₂ p q,
        (do
          Session.configure 0 fun settings => { settings with optimize := true }
          Session.generate 0 Policy.shared Naming.standard Request.differencesOutputs :
            Session ℕ (Bundle ℕ)) w = .ok flat w₁ ∧
        (do
          Session.configure 0 fun settings => { settings with optimize := false }
          Session.generate 0 Policy.shared Naming.standard Request.differencesOutputs :
            Session ℕ (Bundle ℕ)) w = .ok plain w₂ ∧
        flat.isOptimized = true ∧ plain.isOptimized = false ∧
        flat.compile = .ok p ∧ plain.compile = .ok q ∧
        (∀ inputs, inputs.length = handler.graph.roster.length →
          ∃ values, p.evaluate inputs = .ok values) ∧
        ∀ inputs, p.evaluate inputs = q.evaluate inputs := by
  obtain ⟨w, issued, handler, hreach, hhandler, hfree, _, howned, hleft, _⟩ :=
    Reachable.exists_differences
  exact ⟨not_chainLaws_nat, unitLaws_nat, w, issued, handler, hreach, hhandler, hfree, howned,
    hleft, flattening_left_nested_preserves_outputs unitLaws_nat hreach hhandler hfree howned
      Policy.shared hleft Naming.standard⟩

end Reachable

end Straightline
