import Straightline.Proofs.Generation.Succession
import Straightline.Proofs.Workspace.Programs

/-!
# Counterparts of recorded nodes

The counterpart of a recorded node in the flattened graph of a pass, in any workspace that a client
can reach. It has the value of the node unless a reader took over from the node: then the chain of
the reader, with more terms in it, is the counterpart of both.
-/

namespace Straightline

/-- Three variables and their sum, in two steps. -/
def Request.summands : List (Request ℚ) :=
  [.create { optimize := true }, .newVariable 0, .newVariable 0, .newVariable 0,
    .binary (.binary .add) (.var 0 0) (.var 0 1), .binary (.binary .add) (.var 0 3) (.var 0 2)]

/-- The sum of all three. -/
def Request.summandsOutputs : List (Symbol ℚ) := [.var 0 4]

/-- The client can ask for the sum, which takes over from the sum of the first two variables. -/
theorem Reachable.exists_summands :
    ∃ (w : Workspace ℚ) (issued : List (Symbol ℚ)) (handler : Handler ℚ), Reachable w issued ∧
      w.handler? 0 = some handler ∧ handler.held = false ∧ handler.settings.optimize = true ∧
      (∀ s ∈ Request.summandsOutputs, s.Known issued ∧ Session.Owned w 0 s) ∧
      (let args := Request.summandsOutputs.map Symbol.toArg
      (handler.graph.scheduled Policy.shared args).Heir args 3 4) ∧
      handler.graph.roster.length = 3 ∧ handler.graph.HasValue [1, 1, 1] (.node 3) 2 ∧
      ∀ bundle w', Session.generate 0 Policy.shared Naming.standard Request.summandsOutputs w =
        .ok bundle w' → bundle.graph.counterpart? 3 = some 5 ∧
          bundle.graph.HasValue [1, 1, 1] (.node 5) 3 := by
  let final := Request.runAll Request.summands {} []
  let args := Request.summandsOutputs.map Symbol.toArg
  have hallowed : Request.Allowed Request.summands {} [] := by decide +kernel
  have hstate : (final.1.handler? 0).any (fun handler =>
      let before := handler.graph.scheduled Policy.shared args
      decide (handler.held = false ∧ handler.settings.optimize = true ∧
        before.operation? 3 = some (.binary .add (.node 0) (.node 1)) ∧
        before.operation? 4 = some (.binary .add (.node 3) (.node 2)) ∧
        before.pass.refs.get 3 ≤ 1 ∧ before.slot 3 = 0 ∧ before.slot 4 ≠ 0 ∧
        handler.graph.roster.length = 3 ∧
        handler.graph.value? [1, 1, 1] 2 (.node 3) = some 2)) = true := by
    decide +kernel
  have howned : ∀ s ∈ Request.summandsOutputs, s.Known final.2 ∧ Session.Owned final.1 0 s := by
    decide +kernel
  have hgenerate : Session.succeedsWith (Session.generate 0 Policy.shared Naming.standard
      Request.summandsOutputs) final.1 (fun bundle =>
        decide (bundle.graph.counterpart? 3 = some 5 ∧
          bundle.graph.value? [1, 1, 1] 2 (.node 5) = some 3)) = true := by decide +kernel
  obtain ⟨hreach, handler, hhandler, hfacts⟩ := Request.exists_handler final rfl hallowed hstate
  obtain ⟨hfree, hoptimize, hsum, htotal, hrefs, hslot, hstored, hroster, hvalue⟩ :=
    of_decide_eq_true hfacts
  refine ⟨final.1, final.2, handler, hreach, hhandler, hfree, hoptimize, howned, ?_, hroster,
    ⟨2, hvalue⟩, fun bundle w' hok => ?_⟩
  · have hsplices : (handler.graph.scheduled Policy.shared args).Splices .additive (.node 3) 3 :=
      ⟨⟨3, rfl, hrefs, .refl⟩, hslot, .direct, _, _, hsum⟩
    have htakes : (handler.graph.scheduled Policy.shared args).TakesOver args 3 4 :=
      ⟨⟨4, by decide, .refl⟩, _, _, _, htotal, .inl hsplices⟩
    exact ⟨⟨3, .refl, Graph.isEnd_node hsplices.not_isAlias, .single htakes⟩,
      fun d hover => hstored hover.slot⟩
  · have hcheck := Session.check_of_succeedsWith hgenerate hok
    exact (of_decide_eq_true hcheck).imp_right fun hvalue => ⟨2, hvalue⟩

/-- In every workspace that a client can reach, over the arithmetic of a field, a pass that flattens
gives a counterpart to each node that the outputs reach, unless it is an alias of a constant. The
counterpart is that of the heir of the node and has the value of the heir on every input. So it has
the value of the node if the node is stored or nobody takes over from what is behind its aliases. -/
theorem generate_counterparts_have_values_of_heirs {K : Type} [Field K] [Scalar K]
    [Scalar.IsField K] {w : Workspace K} {issued : List (Symbol K)} (hreach : Reachable w issued)
    {h : HandlerId} {handler : Handler K} (hhandler : w.handler? h = some handler)
    (hfree : handler.held = false) (hoptimize : handler.settings.optimize = true)
    {outputs : List (Symbol K)} (howned : ∀ s ∈ outputs, s.Known issued ∧ Session.Owned w h s)
    (policy : Policy K) (naming : Naming) :
    let args := outputs.map Symbol.toArg
    let before := handler.graph.scheduled policy args
    ∃ bundle w', Session.generate h policy naming outputs w = .ok bundle w' ∧
      bundle.isOptimized = true ∧
      (∀ o, before.Reached args o → (∀ v, ¬ before.Resolves (.node o) (.const v)) →
        ∃ n, bundle.graph.counterpart? o = some n) ∧
      ∀ o n, bundle.graph.counterpart? o = some n →
        (∃! c, before.Heir args o c) ∧
        (∀ c, before.Heir args o c → bundle.graph.counterpart? c = some n ∧
          ∀ inputs, inputs.length = handler.graph.roster.length →
            ∃ v, bundle.graph.HasValue inputs (.node n) v ∧
              handler.graph.HasValue inputs (.node c) v) ∧
        (before.slot o ≠ 0 ∨
            (∀ t d, before.Resolves (.node o) (.node t) → ¬ before.TakesOver args t d) →
          ∀ inputs, inputs.length = handler.graph.roster.length →
            ∃ v, bundle.graph.HasValue inputs (.node n) v ∧
              handler.graph.HasValue inputs (.node o) v) := by
  intro args before
  have hgraph := hreach.wellFormed.graph h handler hhandler
  have hlive := hreach.exists_recorded hhandler howned
  obtain ⟨seen, hflattenable⟩ := hgraph.exists_flattenable policy hlive
  obtain ⟨w', hgenerate⟩ := hreach.exists_generate hhandler hfree howned policy naming
  rw [hoptimize] at hgenerate
  refine ⟨_, w', hgenerate, Graph.isSome_flat_shared .., fun o ho hvaries => ?_, fun o n hn => ?_⟩
  · rw [Graph.counterpart?_shared]
    exact hflattenable.exists_counterpart ho hvaries
  · rw [Graph.counterpart?_shared] at hn
    obtain ⟨_, c, hc⟩ := hflattenable.exists_heir hn
    have hvalue :=
      hgraph.exists_counterpart_value chainLaws_of_isField policy hlive handler.settings.reuse hn hc
    refine ⟨⟨c, hc, fun d hd => hd.unique hflattenable hc⟩, fun d hd => ?_,
      fun hkept inputs hinputs => ?_⟩
    · obtain rfl := hd.unique hflattenable hc
      rw [Graph.counterpart?_shared]
      refine ⟨hflattenable.counterpart?_heir hn hd, fun inputs hinputs => ?_⟩
      obtain ⟨v, hbuilt, hheir, _⟩ := hvalue inputs hinputs
      exact ⟨v, hbuilt, hheir⟩
    · have hspared : ∀ t d, before.Resolves (.node o) (.node t) → ¬ before.TakesOver args t d :=
        hkept.elim (fun hslot _ _ => Graph.not_takesOver_of_slot hslot) id
      obtain ⟨v, hbuilt, _, hself⟩ := hvalue inputs hinputs
      exact ⟨v, hbuilt, hself (hc.resolves hspared)⟩

/-- The heir of the sum of two variables is the sum of all three. -/
theorem generate_summands_counterparts_have_values_of_heirs :
    ∃ (w : Workspace ℚ) (issued : List (Symbol ℚ)) (handler : Handler ℚ), Reachable w issued ∧
      w.handler? 0 = some handler ∧ handler.held = false ∧ handler.settings.optimize = true ∧
      (∀ s ∈ Request.summandsOutputs, s.Known issued ∧ Session.Owned w 0 s) ∧
      let args := Request.summandsOutputs.map Symbol.toArg
      let before := handler.graph.scheduled Policy.shared args
      ∃ bundle w', Session.generate 0 Policy.shared Naming.standard Request.summandsOutputs w =
          .ok bundle w' ∧
        bundle.isOptimized = true ∧ before.Heir args 3 4 ∧ (∀ d, ¬ before.TakesOver args 4 d) ∧
        bundle.graph.counterpart? 3 = some 5 ∧ bundle.graph.counterpart? 4 = some 5 ∧
        ∀ inputs : List ℚ, inputs.length = 3 → ∃ v,
          bundle.graph.HasValue inputs (.node 5) v ∧ handler.graph.HasValue inputs (.node 4) v := by
  obtain ⟨w, issued, handler, hreach, hhandler, hfree, hoptimize, howned, hheir, hroster, _,
    hcounterpart⟩ := Reachable.exists_summands
  obtain ⟨bundle, w', hgenerate, hflat, _, hvalues⟩ :=
    generate_counterparts_have_values_of_heirs hreach hhandler hfree hoptimize howned Policy.shared
      Naming.standard
  have hsum := (hcounterpart bundle w' hgenerate).1
  obtain ⟨htotal, hvalue⟩ := (hvalues 3 5 hsum).2.1 4 hheir
  exact ⟨w, issued, handler, hreach, hhandler, hfree, hoptimize, howned, bundle, w', hgenerate,
    hflat, hheir, hheir.last, hsum, htotal, fun inputs hinputs =>
      hvalue inputs (hinputs.trans hroster.symm)⟩

/-- The counterpart of the sum of two variables has not its value. -/
theorem generate_summands_counterpart_differs :
    ∃ (w : Workspace ℚ) (issued : List (Symbol ℚ)) (handler : Handler ℚ), Reachable w issued ∧
      w.handler? 0 = some handler ∧ handler.held = false ∧ handler.settings.optimize = true ∧
      (∀ s ∈ Request.summandsOutputs, s.Known issued ∧ Session.Owned w 0 s) ∧
      ∃ bundle w', Session.generate 0 Policy.shared Naming.standard Request.summandsOutputs w =
          .ok bundle w' ∧
        bundle.isOptimized = true ∧ bundle.graph.counterpart? 3 = some 5 ∧
        bundle.graph.HasValue [1, 1, 1] (.node 5) 3 ∧
        handler.graph.HasValue [1, 1, 1] (.node 3) 2 ∧
        ¬ ∃ v, bundle.graph.HasValue [1, 1, 1] (.node 5) v ∧
          handler.graph.HasValue [1, 1, 1] (.node 3) v := by
  obtain ⟨w, issued, handler, hreach, hhandler, hfree, hoptimize, howned, _, _, hsum,
    hcounterpart⟩ := Reachable.exists_summands
  obtain ⟨w', hgenerate⟩ :=
    hreach.exists_generate hhandler hfree howned Policy.shared Naming.standard
  rw [hoptimize] at hgenerate
  obtain ⟨hfound, htotal⟩ := hcounterpart _ w' hgenerate
  refine ⟨w, issued, handler, hreach, hhandler, hfree, hoptimize, howned, _, w', hgenerate,
    Graph.isSome_flat_shared .., hfound, htotal, hsum, ?_⟩
  rintro ⟨v, hv, hv'⟩
  obtain rfl := hv.unique htotal
  exact absurd (hv'.unique hsum) (by decide)

end Straightline
