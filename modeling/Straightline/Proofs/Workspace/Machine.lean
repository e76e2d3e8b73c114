import Straightline.Proofs.Generation.Names
import Straightline.Proofs.Machine.Batch
import Straightline.Proofs.Machine.Safety
import Straightline.Proofs.Workspace.Flattening

/-!
# Runs of the programs of reachable handlers

What the machine does with the program of a bundle, in any workspace that a client can reach and
over any base type. Every run is safe, instruction by instruction, and takes as much of the stack as
the program says. A run depends on its inputs only, so many points can be evaluated in the same
buffers, in any pieces.
-/

namespace Straightline

variable {α : Type} [Scalar α] {w : Workspace α} {issued : List (Symbol α)} {h : HandlerId}
  {handler : Handler α} {outputs : List (Symbol α)}

/-- In a reachable workspace the bundle of a pass over symbols of a handler is compiled by linking,
and on one input for each independent variable the program yields a value for each output. -/
theorem Reachable.exists_link (hreach : Reachable w issued)
    (hhandler : w.handler? h = some handler) (hfree : handler.held = false)
    (howned : ∀ s ∈ outputs, s.Known issued ∧ Session.Owned w h s) (policy : Policy α)
    (naming : Naming) :
    ∃ bundle w' nodes exprs, Session.generate h policy naming outputs w = .ok bundle w' ∧
      bundle.compile = .ok (bundle.graph.link nodes exprs) ∧ bundle.graph.Prepared ∧
      bundle.graph.roster = handler.graph.roster ∧
      List.Forall₂ (fun id s => s.1 = id) bundle.graph.order nodes ∧
      exprs.length = outputs.length ∧ (bundle.graph.link nodes exprs).Responds := by
  have hprepares := (hreach.wellFormed.graph h handler hhandler).prepares
    handler.settings.optimize policy (hreach.exists_recorded hhandler howned)
  obtain ⟨w', hgenerate⟩ := hreach.exists_generate hhandler hfree howned policy naming
  obtain ⟨nodes, exprs, hcompile, hnodes, hexprs, hyields⟩ :=
    hprepares.exists_link handler.settings.reuse naming
  have hroster := handler.graph.roster_shared handler.settings.optimize handler.settings.reuse
    policy (outputs.map Symbol.toArg)
  refine ⟨_, w', nodes, exprs, hgenerate, hcompile,
    (hprepares.runnable_shared handler.settings.reuse).toPrepared, hroster, hnodes, ?_, ?_⟩
  · rw [hexprs, Graph.length_prepared, List.length_map]
  · intro inputs hinputs
    have hlength := hinputs.trans (congrArg List.length hroster)
    obtain ⟨val, hval⟩ := hprepares.exists_valuation hlength
    refine ⟨_, ?_, hyields inputs val hval hlength⟩
    rw [List.length_map]
    exact hexprs.symm

/-- In every workspace that a client can reach, the bundle of a pass over symbols of a handler is
compiled to a program that writes every output once and whose runs are safe, whatever the buffers
hold before. -/
theorem generate_runs_safely (hreach : Reachable w issued)
    (hhandler : w.handler? h = some handler) (hfree : handler.held = false)
    (howned : ∀ s ∈ outputs, s.Known issued ∧ Session.Owned w h s) (policy : Policy α)
    (naming : Naming) :
    ∃ bundle w' p, Session.generate h policy naming outputs w = .ok bundle w' ∧
      bundle.compile = .ok p ∧ p.inputCount = handler.graph.roster.length ∧
      p.outputCount = outputs.length ∧ p.inputCount < p.slotCount ∧
      p.written = List.range p.outputCount ∧
      ∀ (b : Buffers α) (inputs : List α), b.outputs.size = p.outputCount →
        inputs.length = p.inputCount → p.RunsSafely b inputs := by
  obtain ⟨bundle, w', nodes, exprs, hgenerate, hcompile, hprepared, hroster, hnodes, hexprs,
    hresponds⟩ := hreach.exists_link hhandler hfree howned policy naming
  refine ⟨bundle, w', _, hgenerate, hcompile, congrArg List.length hroster, hexprs,
    Nat.lt_succ_of_le hprepared.roster_le, Graph.written_link, fun b inputs hsize hinputs => ?_⟩
  obtain ⟨values, hvalues, hyields⟩ := hresponds inputs hinputs
  exact hprepared.runsSafely_link hnodes hinputs hvalues hyields hsize

/-- The instructions for a chain of four terms inside a chain of three, and for a parameter. -/
def Request.differencesCode : List (Instruction ℕ) :=
  [.loadSlot 1, .loadSlot 2, .loadSlot 2, .loadSlot 1, .chain 0 4, .loadSlot 2, .loadSlot 1,
    .chain 4 3, .store 3, .loadSlot 3, .output 0, .loadConst 2, .output 1]

/-- The operands of the inner chain take the whole stack. -/
theorem generate_differences_runs_safely :
    ∃ (w : Workspace ℕ) (issued : List (Symbol ℕ)) (handler : Handler ℕ), Reachable w issued ∧
      w.handler? 0 = some handler ∧ handler.held = false ∧
      (∀ s ∈ Request.differencesOutputs, s.Known issued ∧ Session.Owned w 0 s) ∧
      ∃ bundle w' p,
        Session.generate 0 Policy.shared Naming.standard Request.differencesOutputs w =
          .ok bundle w' ∧
        bundle.compile = .ok p ∧ p.inputCount = handler.graph.roster.length ∧
        p.outputCount = Request.differencesOutputs.length ∧ p.inputCount < p.slotCount ∧
        p.written = List.range p.outputCount ∧
        (∀ (b : Buffers ℕ) (inputs : List ℕ), b.outputs.size = p.outputCount →
          inputs.length = p.inputCount → p.RunsSafely b inputs) ∧
        p.instructions.toList = Request.differencesCode ∧
        p.tags.toList = [.add, .sub, .add, .sub, .mul, .mul, .div] ∧ p.inputCount = 2 ∧
        p.slotCount = 4 ∧ p.stackSize = 4 := by
  obtain ⟨w, issued, handler, hreach, hhandler, hfree, _, howned, _, hrun⟩ :=
    Reachable.exists_differences
  have hcode : Session.succeedsWith (Session.generate 0 Policy.shared Naming.standard
      Request.differencesOutputs) (Request.runAll Request.differences {} []).1 (fun bundle =>
        bundle.compile.toOption.any fun p =>
          decide (p.instructions.toList = Request.differencesCode ∧
            p.tags.toList = [.add, .sub, .add, .sub, .mul, .mul, .div] ∧ p.inputCount = 2 ∧
            p.slotCount = 4 ∧ p.stackSize = 4)) = true := by
    decide +kernel
  rw [hrun] at hcode
  obtain ⟨bundle, w', p, hgenerate, hcompile, hinputs, houtputs, hslots, hwritten, hsafe⟩ :=
    generate_runs_safely hreach hhandler hfree howned Policy.shared Naming.standard
  have hcode := Session.check_of_succeedsWith hcode hgenerate
  obtain ⟨_, heq, hfacts⟩ := exists_ok_of_any hcode
  obtain rfl := Except.ok.inj (heq.symm.trans hcompile)
  exact ⟨w, issued, handler, hreach, hhandler, hfree, howned, bundle, w', _, hgenerate, hcompile,
    hinputs, houtputs, hslots, hwritten, hsafe, of_decide_eq_true hfacts⟩

/-- In every workspace that a client can reach, the program of a pass over symbols of a handler
evaluates a batch exactly if there is one column for each independent variable and all have one
length. The batch has the values of single evaluations, however its points are cut into pieces for
evaluation in parallel, since a run never depends on what an earlier one left in the buffers. -/
theorem generate_batches_pointwise (hreach : Reachable w issued)
    (hhandler : w.handler? h = some handler) (hfree : handler.held = false)
    (howned : ∀ s ∈ outputs, s.Known issued ∧ Session.Owned w h s) (policy : Policy α)
    (naming : Naming) :
    ∃ bundle w' p, Session.generate h policy naming outputs w = .ok bundle w' ∧
      bundle.compile = .ok p ∧ p.outputCount = outputs.length ∧
      (∀ columns : List (Array α), (∃ table, p.evaluateBatch columns = .ok table) ↔
        columns.length = handler.graph.roster.length ∧
          ∀ c ∈ columns, ∀ d ∈ columns, c.size = d.size) ∧
      (∀ columns table, p.evaluateBatch columns = .ok table → p.Tabulates columns table) ∧
      (∀ lengths columns, p.evaluateParallel lengths columns = p.evaluateBatch columns) ∧
      ∀ inputs : List α, inputs.length = handler.graph.roster.length →
        ∃ values, p.evaluate inputs = .ok values ∧ p.Yields inputs values := by
  obtain ⟨bundle, w', nodes, exprs, hgenerate, hcompile, _, hroster, _, hexprs, hresponds⟩ :=
    hreach.exists_link hhandler hfree howned policy naming
  rw [← hroster]
  refine ⟨bundle, w', _, hgenerate, hcompile, hexprs, hresponds.exists_evaluateBatch_iff,
    fun _ _ => hresponds.tabulates, hresponds.evaluateParallel_eq, fun inputs hinputs => ?_⟩
  obtain ⟨values, _, hyields⟩ := hresponds inputs hinputs
  exact ⟨values, hyields.evaluate hinputs, hyields⟩

/-- The sum, the eliminated variable, the other one, the sum and the parameter at three points. -/
def Request.eliminationTable : List (List ℚ) :=
  [[2, 6, 12], [1, 4, 9], [1, 2, 3], [2, 6, 12], [7, 7, 7]]

/-- The three points in one column, and the last of them alone. -/
theorem generate_elimination_batches_pointwise :
    ∃ (w : Workspace ℚ) (issued : List (Symbol ℚ)) (handler : Handler ℚ), Reachable w issued ∧
      w.handler? 0 = some handler ∧ handler.held = false ∧
      (∀ s ∈ Request.eliminationOutputs, s.Known issued ∧ Session.Owned w 0 s) ∧
      ∃ bundle w' p,
        Session.generate 0 Policy.shared Naming.standard Request.eliminationOutputs w =
          .ok bundle w' ∧
        bundle.compile = .ok p ∧ p.outputCount = Request.eliminationOutputs.length ∧
        (∀ columns : List (Array ℚ), (∃ table, p.evaluateBatch columns = .ok table) ↔
          columns.length = 1) ∧
        p.evaluateBatch [#[1, 2, 3]] = .ok Request.eliminationTable ∧
        p.Tabulates [#[1, 2, 3]] Request.eliminationTable ∧
        (∀ lengths, p.evaluateParallel lengths [#[1, 2, 3]] = .ok Request.eliminationTable) ∧
        p.evaluate [3] = .ok [12, 9, 3, 12, 7] ∧ p.Yields [3] [12, 9, 3, 12, 7] := by
  obtain ⟨w, issued, handler, hreach, hhandler, hfree, _, hroster, howned, hrun⟩ :=
    Reachable.exists_elimination true
  have hvalues : Session.succeedsWith (Session.generate 0 Policy.shared Naming.standard
      Request.eliminationOutputs) (Request.runAll (Request.elimination true) {} []).1 (fun bundle =>
        bundle.compile.toOption.any fun p =>
          (p.evaluateBatch [#[1, 2, 3]]).toOption.any (· = Request.eliminationTable) &&
          (p.evaluate [3]).toOption.any (· = [12, 9, 3, 12, 7])) = true := by
    decide +kernel
  rw [hrun] at hvalues
  obtain ⟨bundle, w', p, hgenerate, hcompile, houtputs, haccepts, htabulates, hparallel, hyields⟩ :=
    generate_batches_pointwise hreach hhandler hfree howned Policy.shared Naming.standard
  have hvalues := Session.check_of_succeedsWith hvalues hgenerate
  obtain ⟨_, heq, hfacts⟩ := exists_ok_of_any hvalues
  obtain rfl := Except.ok.inj (heq.symm.trans hcompile)
  obtain ⟨hbatch, hpoint⟩ := Bool.and_eq_true_iff.mp hfacts
  obtain ⟨_, htable, hrows⟩ := exists_ok_of_any hbatch
  obtain rfl := of_decide_eq_true hrows
  obtain ⟨_, hevaluate, hpoint⟩ := exists_ok_of_any hpoint
  obtain rfl := of_decide_eq_true hpoint
  rw [hroster] at haccepts hyields
  obtain ⟨values, hvalues, hyield⟩ := hyields [3] rfl
  obtain rfl := Except.ok.inj (hvalues.symm.trans hevaluate)
  refine ⟨w, issued, handler, hreach, hhandler, hfree, howned, bundle, w', _, hgenerate, hcompile,
    houtputs, fun columns => ?_, htable, htabulates _ _ htable,
    fun lengths => (hparallel lengths _).trans htable, hevaluate, hyield⟩
  rw [haccepts]
  -- One column has one length.
  refine ⟨And.left, fun hlength => ⟨hlength, ?_⟩⟩
  obtain ⟨column, rfl⟩ := List.length_eq_one_iff.mp hlength
  simp

end Straightline
