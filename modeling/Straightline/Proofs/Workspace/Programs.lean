import Straightline.Proofs.Workspace.Reachable

/-!
# Programs of reachable handlers

What a client gets from a pass over symbols of a handler, in any workspace that it can reach: the
pass and the compilation succeed, and the program computes what plain recursion computes on the
graph of the handler, as it was before the pass. If the pass flattens the graph, this takes the
arithmetic of a field. Whether slots are shared makes no difference to any result.
-/

namespace Straightline

/-- On one input for each independent variable, the program has the plain values of the symbols. -/
def Program.Computes {α : Type} [Scalar α] (p : Program α) (g : Graph α)
    (symbols : List (Symbol α)) : Prop :=
  ∀ inputs : List α, inputs.length = g.roster.length →
    ∃ values, p.evaluate inputs = .ok values ∧
      List.Forall₂ (fun s v => g.HasValue inputs s.toArg v) symbols values

variable {α : Type} {w : Workspace α} {issued : List (Symbol α)} {h : HandlerId}
  {handler : Handler α} {outputs : List (Symbol α)}

/-- Known symbols that belong to a handler contribute recorded nodes. -/
theorem Reachable.exists_recorded [Scalar α] (hreach : Reachable w issued)
    (hhandler : w.handler? h = some handler)
    (howned : ∀ s ∈ outputs, s.Known issued ∧ Session.Owned w h s) (id : NodeId)
    (hid : Arg.node id ∈ outputs.map Symbol.toArg) :
    ∃ node, handler.graph.recorded.get id = some node := by
  obtain ⟨s, hs, heq⟩ := List.mem_map.mp hid
  obtain ⟨hknown, hbelongs⟩ := howned s hs
  exact hbelongs.exists_recorded (hreach.safe hknown) hhandler heq

/-- Whatever a pass prepares, its program computes the plain values, if the pass does not flatten
or if chains can be combined. -/
theorem Graph.WellFormed.computes [Scalar α] {g : Graph α} (hg : g.WellFormed) (optimize : Bool)
    (laws : optimize = true → ChainLaws α) (policy : Policy α)
    (hlive : ∀ id, Arg.node id ∈ outputs.map Symbol.toArg →
      ∃ node, g.recorded.get id = some node) {p : Program α}
    (hvalue : ∀ inputs val,
      (g.prepared optimize policy (outputs.map Symbol.toArg)).2.IsValuation inputs val →
        inputs.length = g.roster.length → p.evaluate inputs = .ok
          ((g.prepared optimize policy (outputs.map Symbol.toArg)).1.map (Arg.eval val))) :
    p.Computes g outputs := by
  intro inputs hinputs
  obtain ⟨val, hval, hplain⟩ := hg.exists_recorded_values hinputs
  obtain ⟨val', hval', hsame⟩ := hg.exists_prepared_values optimize laws policy hlive hval
  refine ⟨_, hvalue inputs val' hval' hinputs, ?_⟩
  rw [hsame, List.map_map, List.forall₂_map_right_iff, List.forall₂_same]
  intro s hs
  exact hplain s.toArg fun id hid => hlive id (hid ▸ List.mem_map_of_mem hs)

/-- In a reachable workspace a pass over symbols of a handler succeeds. -/
theorem Reachable.exists_generate [Scalar α] (hreach : Reachable w issued)
    (hhandler : w.handler? h = some handler) (hfree : handler.held = false)
    (howned : ∀ s ∈ outputs, s.Known issued ∧ Session.Owned w h s) (policy : Policy α)
    (naming : Naming) :
    ∃ w', Session.generate h policy naming outputs w =
      .ok
        { graph := (handler.graph.prepared handler.settings.optimize policy
            (outputs.map Symbol.toArg)).2.shared handler.settings.reuse
          outputs := (handler.graph.prepared handler.settings.optimize policy
            (outputs.map Symbol.toArg)).1
          naming := naming } w' :=
  ⟨_, Session.generate_of_ok hhandler hfree policy naming (fun s hs => (howned s hs).2)
    ((hreach.wellFormed.graph h handler hhandler).generate_eq_prepared handler.settings policy
      (hreach.exists_recorded hhandler howned))⟩

/-- In a reachable workspace the bundle of a pass over symbols of a handler is compiled. -/
theorem Reachable.exists_program [Scalar α] (hreach : Reachable w issued)
    (hhandler : w.handler? h = some handler) (hfree : handler.held = false)
    (laws : handler.settings.optimize = true → ChainLaws α)
    (howned : ∀ s ∈ outputs, s.Known issued ∧ Session.Owned w h s) (policy : Policy α)
    (naming : Naming) :
    ∃ bundle w' p, Session.generate h policy naming outputs w = .ok bundle w' ∧
      bundle.isOptimized = handler.settings.optimize ∧ bundle.compile = .ok p ∧
      p.Computes handler.graph outputs := by
  have hgraph := hreach.wellFormed.graph h handler hhandler
  have hlive := hreach.exists_recorded hhandler howned
  have hprepares := hgraph.prepares handler.settings.optimize policy hlive
  obtain ⟨p, hcompile, _, hvalue⟩ := hprepares.exists_compile handler.settings.reuse naming
  obtain ⟨w', hgenerate⟩ := hreach.exists_generate hhandler hfree howned policy naming
  exact ⟨_, w', p, hgenerate, Graph.isSome_flat_shared .., hcompile,
    hgraph.computes _ laws policy hlive hvalue⟩

/-- Without flattening, with slots shared or not, the program of any outputs computes exactly the
values of plain recursion on the graph. No law of the base type is used. -/
theorem generate_computes_plain_values [Scalar α] (hreach : Reachable w issued)
    (hhandler : w.handler? h = some handler) (hfree : handler.held = false)
    (hoptimize : handler.settings.optimize = false)
    (howned : ∀ s ∈ outputs, s.Known issued ∧ Session.Owned w h s) (policy : Policy α)
    (naming : Naming) :
    ∃ bundle w' p, Session.generate h policy naming outputs w = .ok bundle w' ∧
      bundle.isOptimized = false ∧ bundle.compile = .ok p ∧ p.Computes handler.graph outputs := by
  have hlaws : handler.settings.optimize = true → ChainLaws α := by simp [hoptimize]
  rw [← hoptimize]
  exact hreach.exists_program hhandler hfree hlaws howned policy naming

/-- Outputs with a repetition, a parameter and an eliminated variable. -/
theorem generate_elimination_computes_plain_values :
    ∃ (w : Workspace ℚ) (issued : List (Symbol ℚ)) (handler : Handler ℚ), Reachable w issued ∧
      w.handler? 0 = some handler ∧ handler.held = false ∧ handler.settings.optimize = false ∧
      (∀ s ∈ Request.eliminationOutputs, s.Known issued ∧ Session.Owned w 0 s) ∧
      ∃ bundle w' p, Session.generate 0 Policy.shared Naming.standard Request.eliminationOutputs w =
          .ok bundle w' ∧
        bundle.isOptimized = false ∧ bundle.compile = .ok p ∧
        p.Computes handler.graph Request.eliminationOutputs := by
  obtain ⟨w, issued, handler, hreach, hhandler, hfree, hoptimize, _, howned, _⟩ :=
    Reachable.exists_elimination false
  exact ⟨w, issued, handler, hreach, hhandler, hfree, hoptimize, howned,
    generate_computes_plain_values hreach hhandler hfree hoptimize howned Policy.shared
      Naming.standard⟩

/-- With flattening, over the arithmetic of a field, the program of any outputs computes the values
of plain recursion on the graph that is not flattened. -/
theorem generate_optimized_computes_plain_values {K : Type} [Field K] [Scalar K] [Scalar.IsField K]
    {w : Workspace K} {issued : List (Symbol K)} (hreach : Reachable w issued) {h : HandlerId}
    {handler : Handler K} (hhandler : w.handler? h = some handler)
    (hfree : handler.held = false) (hoptimize : handler.settings.optimize = true)
    {outputs : List (Symbol K)} (howned : ∀ s ∈ outputs, s.Known issued ∧ Session.Owned w h s)
    (policy : Policy K) (naming : Naming) :
    ∃ bundle w' p, Session.generate h policy naming outputs w = .ok bundle w' ∧
      bundle.isOptimized = true ∧ bundle.compile = .ok p ∧ p.Computes handler.graph outputs := by
  rw [← hoptimize]
  exact hreach.exists_program hhandler hfree (fun _ => chainLaws_of_isField) howned policy naming

/-- The same outputs from a flattened graph. -/
theorem generate_optimized_elimination_computes_plain_values :
    ∃ (w : Workspace ℚ) (issued : List (Symbol ℚ)) (handler : Handler ℚ), Reachable w issued ∧
      w.handler? 0 = some handler ∧ handler.held = false ∧ handler.settings.optimize = true ∧
      (∀ s ∈ Request.eliminationOutputs, s.Known issued ∧ Session.Owned w 0 s) ∧
      ∃ bundle w' p,
        Session.generate 0 Policy.inlined Naming.standard Request.eliminationOutputs w =
          .ok bundle w' ∧
        bundle.isOptimized = true ∧ bundle.compile = .ok p ∧
        p.Computes handler.graph Request.eliminationOutputs := by
  obtain ⟨w, issued, handler, hreach, hhandler, hfree, hoptimize, _, howned, _⟩ :=
    Reachable.exists_elimination true
  exact ⟨w, issued, handler, hreach, hhandler, hfree, hoptimize, howned,
    generate_optimized_computes_plain_values hreach hhandler hfree hoptimize howned Policy.inlined
      Naming.standard⟩

/-- A pass after a change of the settings. -/
theorem Session.generate_of_configure (hhandler : w.handler? h = some handler)
    (hfree : handler.held = false) (hgraph : handler.graph.WellFormed)
    (howned : ∀ s ∈ outputs, Session.Owned w h s)
    (hlive : ∀ id, Arg.node id ∈ outputs.map Symbol.toArg →
      ∃ node, handler.graph.recorded.get id = some node)
    (change : Settings → Settings) (policy : Policy α) (naming : Naming) :
    ∃ w', (do
        Session.configure h change
        Session.generate h policy naming outputs : Session α (Bundle α)) w =
      .ok
        { graph := (handler.graph.prepared (change handler.settings).optimize policy
            (outputs.map Symbol.toArg)).2.shared (change handler.settings).reuse
          outputs := (handler.graph.prepared (change handler.settings).optimize policy
            (outputs.map Symbol.toArg)).1
          naming := naming } w' := by
  rw [Session.bind_of_ok (Session.configure_of_handler hhandler _)]
  let changed : Handler α := { handler with settings := change handler.settings }
  have hput : (w.put h changed).handler? h = some changed := by
    rw [Workspace.handler?_put, if_pos rfl]
  exact ⟨_, Session.generate_of_ok hput hfree policy naming
    (fun s hs => (howned s hs).configure hhandler _)
    (hgraph.generate_eq_prepared (change handler.settings) policy hlive)⟩

/-- A pass after a change of the sharing of slots. -/
theorem Reachable.generate_of_configure [Scalar α] (hreach : Reachable w issued)
    (hhandler : w.handler? h = some handler) (hfree : handler.held = false)
    (howned : ∀ s ∈ outputs, s.Known issued ∧ Session.Owned w h s) (policy : Policy α)
    (naming : Naming) (reuse : Bool) :
    ∃ w', (do
        Session.configure h fun settings => { settings with reuse := reuse }
        Session.generate h policy naming outputs : Session α (Bundle α)) w =
      .ok
        { graph := (handler.graph.prepared handler.settings.optimize policy
            (outputs.map Symbol.toArg)).2.shared reuse
          outputs := (handler.graph.prepared handler.settings.optimize policy
            (outputs.map Symbol.toArg)).1
          naming := naming } w' :=
  Session.generate_of_configure hhandler hfree (hreach.wellFormed.graph h handler hhandler)
    (fun s hs => (howned s hs).2) (hreach.exists_recorded hhandler howned) _ policy naming

/-- Whether the graph is flattened or not, sharing slots changes no result, whatever the base type
is, and takes no more slots. -/
theorem reuse_preserves_outputs [Scalar α] (hreach : Reachable w issued)
    (hhandler : w.handler? h = some handler) (hfree : handler.held = false)
    (howned : ∀ s ∈ outputs, s.Known issued ∧ Session.Owned w h s) (policy : Policy α)
    (naming : Naming) :
    ∃ sharing plain w₁ w₂ p q,
      (do
        Session.configure h fun settings => { settings with reuse := true }
        Session.generate h policy naming outputs : Session α (Bundle α)) w = .ok sharing w₁ ∧
      (do
        Session.configure h fun settings => { settings with reuse := false }
        Session.generate h policy naming outputs : Session α (Bundle α)) w = .ok plain w₂ ∧
      sharing.compile = .ok p ∧ plain.compile = .ok q ∧
      (∀ inputs, inputs.length = handler.graph.roster.length →
        ∃ values, p.evaluate inputs = .ok values) ∧
      (∀ inputs, p.evaluate inputs = q.evaluate inputs) ∧
      sharing.graph.pass.lastId ≤ plain.graph.pass.lastId := by
  have hgraph := hreach.wellFormed.graph h handler hhandler
  have hprepares := hgraph.prepares handler.settings.optimize policy
    (hreach.exists_recorded hhandler howned)
  obtain ⟨w₁, hsharing⟩ := hreach.generate_of_configure hhandler hfree howned policy naming true
  obtain ⟨w₂, hplain⟩ := hreach.generate_of_configure hhandler hfree howned policy naming false
  obtain ⟨p, hp, hpcount, hpvalue⟩ := hprepares.exists_compile true naming
  obtain ⟨q, hq, hqcount, hqvalue⟩ := hprepares.exists_compile false naming
  refine ⟨_, _, w₁, w₂, p, q, hsharing, hplain, hp, hq, ?_,
    hprepares.evaluate_congr hpcount hqcount hpvalue hqvalue,
    hprepares.toScheduled.lastId_reuseSlots_le⟩
  intro inputs hinputs
  obtain ⟨val, hval⟩ := hprepares.exists_valuation hinputs
  exact ⟨_, hpvalue inputs val hval hinputs⟩

/-- The same outputs with and without shared slots, where every value is stored. -/
theorem reuse_elimination_preserves_outputs :
    ∃ (w : Workspace ℚ) (issued : List (Symbol ℚ)) (handler : Handler ℚ), Reachable w issued ∧
      w.handler? 0 = some handler ∧ handler.held = false ∧
      (∀ s ∈ Request.eliminationOutputs, s.Known issued ∧ Session.Owned w 0 s) ∧
      ∃ sharing plain w₁ w₂ p q,
        (do
          Session.configure 0 fun settings => { settings with reuse := true }
          Session.generate 0 Policy.everything Naming.standard Request.eliminationOutputs :
            Session ℚ (Bundle ℚ)) w = .ok sharing w₁ ∧
        (do
          Session.configure 0 fun settings => { settings with reuse := false }
          Session.generate 0 Policy.everything Naming.standard Request.eliminationOutputs :
            Session ℚ (Bundle ℚ)) w = .ok plain w₂ ∧
        sharing.compile = .ok p ∧ plain.compile = .ok q ∧
        (∀ inputs, inputs.length = handler.graph.roster.length →
          ∃ values, p.evaluate inputs = .ok values) ∧
        (∀ inputs, p.evaluate inputs = q.evaluate inputs) ∧
        sharing.graph.pass.lastId ≤ plain.graph.pass.lastId := by
  obtain ⟨w, issued, handler, hreach, hhandler, hfree, _, _, howned, _⟩ :=
    Reachable.exists_elimination true
  exact ⟨w, issued, handler, hreach, hhandler, hfree, howned,
    reuse_preserves_outputs hreach hhandler hfree howned Policy.everything Naming.standard⟩

end Straightline
