import Straightline.Proofs.Generation.Flattened
import Straightline.Proofs.Generation.SlotReuse
import Straightline.Proofs.Graph.Evolution
import Straightline.Proofs.Machine.Evaluation

/-!
# Correctness of a pass

A pass over recorded outputs succeeds, and what it hands on is compiled to a program. Whatever the
base type is, the program of a pass that does not flatten computes what plain recursion computes on
the recorded graph, and sharing slots changes no result. Where chains can be combined, so does the
program of a pass that flattens.
-/

namespace Straightline

/-- Programs that agree on inputs of the right number agree on all inputs. -/
theorem Program.evaluate_congr {α : Type} [Scalar α] {p q : Program α}
    (hcount : p.inputCount = q.inputCount)
    (h : ∀ inputs, inputs.length = p.inputCount → p.evaluate inputs = q.evaluate inputs)
    (inputs : List α) : p.evaluate inputs = q.evaluate inputs := by
  by_cases hinputs : inputs.length = p.inputCount
  · exact h inputs hinputs
  · rw [evaluate, evaluate, ← hcount, if_pos hinputs, if_pos hinputs]

namespace Graph

variable {α : Type} {g g' : Graph α} {outputs : List (Arg α)}

/-- The graph of a pass before slots are shared, with the outputs in it: scheduled, and flattened
if asked for. -/
def prepared (g : Graph α) (optimize : Bool) (policy : Policy α) (outputs : List (Arg α)) :
    List (Arg α) × Graph α :=
  if optimize then (g.scheduled policy outputs).flatten outputs
  else (outputs, g.scheduled policy outputs)

/-- Let slots be shared if asked for. -/
def shared (g : Graph α) (reuse : Bool) : Graph α := if reuse then g.reuseSlots else g

/-- A pass keeps the number of outputs. -/
theorem length_prepared (g : Graph α) (optimize : Bool) (policy : Policy α)
    (outputs : List (Arg α)) : (g.prepared optimize policy outputs).1.length = outputs.length := by
  cases optimize <;> simp [prepared, flatten]

/-- A pass flattens the graph if asked for. -/
theorem isSome_flat_shared (g : Graph α) (optimize reuse : Bool) (policy : Policy α)
    (outputs : List (Arg α)) :
    ((g.prepared optimize policy outputs).2.shared reuse).pass.flat.isSome = optimize := by
  cases optimize <;> cases reuse <;> rfl

/-- A pass prepares the graph and lets slots be shared. -/
theorem WellFormed.generate_eq_prepared (h : g.WellFormed) (settings : Settings)
    (policy : Policy α)
    (hlive : ∀ id, Arg.node id ∈ outputs → ∃ node, g.recorded.get id = some node) :
    g.generate settings policy outputs =
      (.ok (g.prepared settings.optimize policy outputs).1,
        (g.prepared settings.optimize policy outputs).2.shared settings.reuse) :=
  generate_eq h settings policy hlive

/-- What a pass prepares. -/
structure Prepares (g : Graph α) (outputs : List (Arg α)) (g' : Graph α) : Prop
    extends g'.Scheduled outputs, g.Evolves g' where
  /-- The outputs are live. -/
  live : ∀ id, .node id ∈ outputs → g'.contains id = true
  /-- The roster is the same. -/
  roster : g'.roster = g.roster

theorem WellFormed.prepares (h : g.WellFormed) (optimize : Bool) (policy : Policy α)
    (hlive : ∀ id, Arg.node id ∈ outputs → ∃ node, g.recorded.get id = some node) :
    g.Prepares (g.prepared optimize policy outputs).1 (g.prepared optimize policy outputs).2 := by
  obtain ⟨seen, hflattenable⟩ := h.exists_flattenable policy hlive
  unfold prepared
  cases optimize with
  | false =>
    refine ⟨hflattenable.toScheduled, ?_, hflattenable.live, rfl⟩
    exact .of_unflattened h.scheduled (Nat.le_refl _) rfl
  | true =>
    exact ⟨hflattenable.scheduled_flatten,
      ⟨hflattenable.wellFormed_flatten, hflattenable.next_le_flatten,
        fun id hid _ => hflattenable.flatNode?_flatten hid⟩,
      fun id => hflattenable.contains_flatten, rfl⟩

/-- What a pass prepares can be executed, with slots shared or not. -/
theorem Prepares.runnable_shared (h : g.Prepares outputs g') (reuse : Bool) :
    (g'.shared reuse).Runnable outputs := by
  cases reuse with
  | false => exact h.toScheduled.runnable
  | true => exact h.toScheduled.runnable_reuseSlots

/-- Sharing slots changes no value. -/
theorem isValuation_shared [Scalar α] {g : Graph α} {inputs : List α} {val : NodeId → α}
    (reuse : Bool) : (g.shared reuse).IsValuation inputs val ↔ g.IsValuation inputs val := by
  cases reuse <;> rfl

/-- Sharing slots changes no operation. -/
theorem Evolves.shared (h : g.Evolves g') (reuse : Bool) : g.Evolves (g'.shared reuse) := by
  cases reuse with
  | false => exact h
  | true =>
    exact ⟨h.wellFormed.of_operations rfl rfl (fun _ => rfl) fun _ => rfl, h.next_le, h.flat⟩

/-- A pass over recorded outputs succeeds and lets the graph evolve. -/
theorem WellFormed.evolves_generate (h : g.WellFormed) (settings : Settings) (policy : Policy α)
    (hlive : ∀ id, Arg.node id ∈ outputs → ∃ node, g.recorded.get id = some node) :
    ∃ outputs' g', g.generate settings policy outputs = (.ok outputs', g') ∧ g.Evolves g' :=
  ⟨_, _, h.generate_eq_prepared settings policy hlive,
    ((h.prepares settings.optimize policy hlive).toEvolves).shared settings.reuse⟩

variable [Scalar α] {inputs : List α}

/-- A value that is found in a part of a graph is found in the graph. -/
theorem HasValue.mono (hop : ∀ id op, g.operation? id = some op → g'.operation? id = some op)
    (hroster : g'.roster = g.roster) {x : Arg α} {v : α} (h : g.HasValue inputs x v) :
    g'.HasValue inputs x v := by
  obtain ⟨depth, hdepth⟩ := h
  refine ⟨depth, ?_⟩
  induction depth generalizing x v with
  | zero =>
    cases x with
    | const w => simpa using hdepth
    | node id => simp [value?] at hdepth
  | succ depth ih =>
    cases x with
    | const w => simpa using hdepth
    | node id =>
      rw [value?_node] at hdepth ⊢
      obtain ⟨op, hold, hv⟩ := Option.bind_eq_some_iff.mp hdepth
      refine Option.bind_eq_some_iff.mpr ⟨op, hop id op hold, ?_⟩
      cases op with
      | independent =>
        rw [rosterIndex?, hroster]
        exact hv
      | _ =>
        obtain ⟨result, hresult, hvalue⟩ := Option.bind_eq_some_iff.mp hv
        exact Option.bind_eq_some_iff.mpr
          ⟨result, Operation.mapM?_mono (fun y w hy => ih hy) hresult, hvalue⟩

/-- A valuation of the recorded nodes gives their values in the whole graph. -/
theorem WellFormed.hasValue_of_recorded (h : g.WellFormed) {val : NodeId → α}
    (hval : g.beginPass.IsValuation inputs val) {x : Arg α}
    (hx : ∀ id, x = .node id → ∃ node, g.recorded.get id = some node) :
    g.HasValue inputs x (x.eval val) := by
  obtain ⟨rank, hrank, _⟩ := h.beginPass.exists_ranked
  have hfound : g.beginPass.HasValue inputs x (x.eval val) :=
    hval.hasValue hrank h.beginPass.closed_all fun id hid =>
      contains_beginPass.mpr (hx id (Arg.node?_eq_some.mp hid))
  have hsub : ∀ id op, g.beginPass.operation? id = some op → g.operation? id = some op := by
    intro id op hop
    rw [operation?_beginPass] at hop
    obtain ⟨node, hnode, rfl⟩ := Option.map_eq_some_iff.mp hop
    exact operation?_of_recorded hnode
  exact hfound.mono hsub rfl

/-- The recorded nodes have a valuation, which gives their values in the whole graph. -/
theorem WellFormed.exists_recorded_values (h : g.WellFormed)
    (hinputs : inputs.length = g.roster.length) :
    ∃ val, g.beginPass.IsValuation inputs val ∧
      ∀ x, (∀ id, x = .node id → ∃ node, g.recorded.get id = some node) →
        g.HasValue inputs x (x.eval val) := by
  obtain ⟨rank, hrank, hbound⟩ := h.beginPass.exists_ranked
  obtain ⟨val, hval⟩ := exists_isValuation hrank hbound h.beginPass.closed_all
    (fun _ => h.mem_roster_beginPass.mpr) hinputs
  exact ⟨val, hval, fun _ => h.hasValue_of_recorded hval⟩

/-- The values of the recorded nodes give a valuation of what a pass prepares, if it does not
flatten or if chains can be combined. -/
theorem WellFormed.exists_prepared_values (h : g.WellFormed) (optimize : Bool)
    (laws : optimize = true → ChainLaws α) (policy : Policy α)
    (hlive : ∀ id, Arg.node id ∈ outputs → ∃ node, g.recorded.get id = some node)
    {val : NodeId → α} (hval : g.beginPass.IsValuation inputs val) :
    ∃ val', (g.prepared optimize policy outputs).2.IsValuation inputs val' ∧
      (g.prepared optimize policy outputs).1.map (Arg.eval val') =
        outputs.map (Arg.eval val) := by
  obtain ⟨seen, hflattenable⟩ := h.exists_flattenable policy hlive
  unfold prepared
  cases optimize with
  | false => exact ⟨val, hval, rfl⟩
  | true =>
    exact hflattenable.exists_isValuation_flatten (laws rfl).unit
      (enterable_of_laws (laws rfl) _ seen val) hval

/-- The programs of a prepared graph are linked, with and without shared slots. -/
theorem Prepares.exists_link (h : g.Prepares outputs g') (reuse : Bool) (naming : Naming) :
    ∃ nodes exprs,
      Bundle.compile { graph := g'.shared reuse, outputs := outputs, naming := naming } =
        .ok ((g'.shared reuse).link nodes exprs) ∧
      List.Forall₂ (fun id s => s.1 = id) (g'.shared reuse).order nodes ∧
      exprs.length = outputs.length ∧
      ∀ inputs val, g'.IsValuation inputs val → inputs.length = g.roster.length →
        ((g'.shared reuse).link nodes exprs).Yields inputs (outputs.map (Arg.eval val)) := by
  rw [← h.roster]
  have hrunnable := h.runnable_shared reuse
  cases reuse <;> exact hrunnable.exists_link h.live naming

/-- The programs of a prepared graph, with and without shared slots. -/
theorem Prepares.exists_compile (h : g.Prepares outputs g') (reuse : Bool) (naming : Naming) :
    ∃ p, Bundle.compile { graph := g'.shared reuse, outputs := outputs, naming := naming } =
        .ok p ∧ p.inputCount = g.roster.length ∧
      ∀ inputs val, g'.IsValuation inputs val → inputs.length = g.roster.length →
        p.evaluate inputs = .ok (outputs.map (Arg.eval val)) := by
  obtain ⟨nodes, exprs, hcompile, _, _, hyields⟩ := h.exists_link reuse naming
  have hcount : ((g'.shared reuse).link nodes exprs).inputCount = g.roster.length := by
    rw [← h.roster]
    cases reuse <;> rfl
  exact ⟨_, hcompile, hcount, fun inputs val hval hinputs =>
    (hyields inputs val hval hinputs).evaluate (hinputs.trans hcount.symm)⟩

/-- Whatever a pass prepares has a valuation. -/
theorem Prepares.exists_valuation (h : g.Prepares outputs g')
    (hinputs : inputs.length = g.roster.length) : ∃ val, g'.IsValuation inputs val := by
  obtain ⟨rank, hrank, hbound⟩ := h.ranked
  exact exists_isValuation hrank hbound h.closed h.listed
    (hinputs.trans (congrArg List.length h.roster.symm))

/-- Sharing slots changes no result, on inputs of any number. -/
theorem Prepares.evaluate_congr (h : g.Prepares outputs g') {p q : Program α}
    (hp : p.inputCount = g.roster.length) (hq : q.inputCount = g.roster.length)
    (hpvalue : ∀ inputs val, g'.IsValuation inputs val → inputs.length = g.roster.length →
      p.evaluate inputs = .ok (outputs.map (Arg.eval val)))
    (hqvalue : ∀ inputs val, g'.IsValuation inputs val → inputs.length = g.roster.length →
      q.evaluate inputs = .ok (outputs.map (Arg.eval val))) (inputs : List α) :
    p.evaluate inputs = q.evaluate inputs := by
  refine Program.evaluate_congr (hp.trans hq.symm) (fun inputs hinputs => ?_) inputs
  rw [hp] at hinputs
  obtain ⟨val, hval⟩ := h.exists_valuation hinputs
  rw [hpvalue inputs val hval hinputs, hqvalue inputs val hval hinputs]

end Graph

end Straightline
