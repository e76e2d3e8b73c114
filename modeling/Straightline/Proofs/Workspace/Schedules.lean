import Straightline.Proofs.Generation.LastUses
import Straightline.Proofs.Generation.Partition
import Straightline.Proofs.Workspace.Programs

/-!
# Schedules of reachable handlers

What a client finds in the bundle of a pass over symbols of a handler, in any workspace that it can
reach: an order in which every value is computed before it is read, slots that keep every value
until it was read for the last time, and last uses that say when that is.
-/

namespace Straightline

variable {α : Type} [Scalar α] {w : Workspace α} {issued : List (Symbol α)} {h : HandlerId}
  {handler : Handler α} {outputs : List (Symbol α)}

/-- With any settings, the recorded nodes of a bundle are in a valid order for the requested
outputs, and so are the nodes of the final order for the outputs of the bundle, which stand for
them. When the pass has scheduled, it has issued one slot for every queued node and for every
independent variable. -/
theorem generate_schedule_valid (hreach : Reachable w issued)
    (hhandler : w.handler? h = some handler) (hfree : handler.held = false)
    (howned : ∀ s ∈ outputs, s.Known issued ∧ Session.Owned w h s) (policy : Policy α)
    (naming : Naming) :
    ∃ bundle w', Session.generate h policy naming outputs w = .ok bundle w' ∧
      bundle.graph.StandsFor handler.settings.optimize (outputs.map Symbol.toArg) bundle.outputs ∧
      bundle.graph.IsSchedule bundle.graph.pass.order (outputs.map Symbol.toArg) ∧
      bundle.graph.IsSchedule bundle.graph.order bundle.outputs ∧
      let args := outputs.map Symbol.toArg
      let g := handler.graph.beginPass
      let reserved := Reservation.make g.roster args
      let s := Schedule.run g policy (g.countReferences args).2 reserved.slots reserved.lastId args
      bundle.graph.pass.order = s.queue.toList ∧ s.lastId = s.queue.size + g.roster.length := by
  have hgraph := hreach.wellFormed.graph h handler hhandler
  have hlive := hreach.exists_recorded hhandler howned
  obtain ⟨w', hgenerate⟩ := hreach.exists_generate hhandler hfree howned policy naming
  obtain ⟨hrecorded, hfinal⟩ := hgraph.isSchedule_shared handler.settings.optimize
    handler.settings.reuse policy hlive
  have hstands := (hgraph.standsFor_prepared handler.settings.optimize policy hlive).shared
    handler.settings.reuse
  have horder := handler.graph.passOrder_shared handler.settings.optimize handler.settings.reuse
    policy (outputs.map Symbol.toArg)
  refine ⟨_, w', hgenerate, hstands, ?_, hfinal, horder, hgraph.lastId_scheduled policy hlive⟩
  rw [horder]
  exact hrecorded

/-- The sum and the eliminated variable are stored, the variable first, since the sum reads it. -/
theorem generate_elimination_schedule_valid :
    ∃ (w : Workspace ℚ) (issued : List (Symbol ℚ)) (handler : Handler ℚ), Reachable w issued ∧
      w.handler? 0 = some handler ∧ handler.held = false ∧ handler.settings.optimize = true ∧
      (∀ s ∈ Request.eliminationOutputs, s.Known issued ∧ Session.Owned w 0 s) ∧
      ∃ bundle w', Session.generate 0 Policy.shared Naming.standard Request.eliminationOutputs w =
          .ok bundle w' ∧
        bundle.graph.StandsFor true (Request.eliminationOutputs.map Symbol.toArg) bundle.outputs ∧
        bundle.graph.IsSchedule bundle.graph.pass.order
          (Request.eliminationOutputs.map Symbol.toArg) ∧
        bundle.graph.IsSchedule bundle.graph.order bundle.outputs ∧
        (let args := Request.eliminationOutputs.map Symbol.toArg
        let g := handler.graph.beginPass
        let reserved := Reservation.make g.roster args
        let s := Schedule.run g Policy.shared (g.countReferences args).2 reserved.slots
          reserved.lastId args
        bundle.graph.pass.order = s.queue.toList ∧ s.lastId = s.queue.size + g.roster.length) ∧
        handler.graph.roster = [0] ∧ bundle.graph.pass.order = [1, 4] ∧
        bundle.graph.order = [6, 7] ∧
        bundle.outputs = [.node 7, .node 6, .node 0, .node 7, .const 7] := by
  obtain ⟨w, issued, handler, hreach, hhandler, hfree, hoptimize, hroster, howned, hrun⟩ :=
    Reachable.exists_elimination true
  have horders : Session.succeedsWith (Session.generate 0 Policy.shared Naming.standard
      Request.eliminationOutputs) (Request.runAll (Request.elimination true) {} []).1 (fun bundle =>
        decide (bundle.graph.pass.order = [1, 4] ∧ bundle.graph.order = [6, 7] ∧
          bundle.outputs = [.node 7, .node 6, .node 0, .node 7, .const 7])) = true := by
    decide +kernel
  rw [hrun] at horders
  obtain ⟨bundle, w', hgenerate, hstands, hrecorded, hfinal, hissued⟩ :=
    generate_schedule_valid hreach hhandler hfree howned Policy.shared Naming.standard
  rw [hoptimize] at hstands
  have hfacts := Session.check_of_succeedsWith horders hgenerate
  exact ⟨w, issued, handler, hreach, hhandler, hfree, hoptimize, howned, bundle, w', hgenerate,
    hstands, hrecorded, hfinal, hissued, hroster, of_decide_eq_true hfacts⟩

/-- Where temporaries share slots, no value is overwritten before its last reader, and no input or
output at all. -/
theorem generate_slots_safe (hreach : Reachable w issued)
    (hhandler : w.handler? h = some handler) (hfree : handler.held = false)
    (hreuse : handler.settings.reuse = true)
    (howned : ∀ s ∈ outputs, s.Known issued ∧ Session.Owned w h s) (policy : Policy α)
    (naming : Naming) :
    ∃ bundle w', Session.generate h policy naming outputs w = .ok bundle w' ∧
      bundle.graph.SlotSafe := by
  have hgraph := hreach.wellFormed.graph h handler hhandler
  have hprepares := hgraph.prepares handler.settings.optimize policy
    (hreach.exists_recorded hhandler howned)
  obtain ⟨w', hgenerate⟩ := hreach.exists_generate hhandler hfree howned policy naming
  refine ⟨_, w', hgenerate, ?_⟩
  rw [hreuse]
  exact hprepares.toScheduled.slotSafe_reuseSlots

/-- A client records the sine of the sine of the sine of the sine of a variable. -/
def Request.tower : List (Request ℚ) :=
  let sine : Opcode := .unary (.call .sin)
  [.create {}, .newVariable 0, .unary sine (.var 0 0), .unary sine (.var 0 1),
    .unary sine (.var 0 2), .unary sine (.var 0 3)]

/-- Where every value is stored, the first sine and the third one share a slot. -/
theorem generate_tower_slots_safe :
    ∃ (w : Workspace ℚ) (issued : List (Symbol ℚ)) (handler : Handler ℚ), Reachable w issued ∧
      w.handler? 0 = some handler ∧ handler.held = false ∧ handler.settings.reuse = true ∧
      (∀ s ∈ [Symbol.var 0 4], s.Known issued ∧ Session.Owned w 0 s) ∧
      ∃ bundle w', Session.generate 0 Policy.everything Naming.standard [.var 0 4] w =
          .ok bundle w' ∧
        bundle.graph.SlotSafe ∧ bundle.graph.order.map bundle.graph.slot = [3, 4, 3, 2] := by
  let final := Request.runAll Request.tower {} []
  have hallowed : Request.Allowed Request.tower {} [] := by decide +kernel
  have hstate : (final.1.handler? 0).any (fun handler => !handler.held &&
      handler.settings.reuse) = true := by decide +kernel
  have howned : ∀ s ∈ [Symbol.var 0 4], s.Known final.2 ∧ Session.Owned final.1 0 s := by
    decide +kernel
  have hshares : Session.succeedsWith (Session.generate 0 Policy.everything Naming.standard
      [.var 0 4]) final.1 (fun bundle =>
        bundle.graph.order.map bundle.graph.slot == [3, 4, 3, 2]) = true := by decide +kernel
  obtain ⟨hreach, handler, hhandler, hfacts⟩ := Request.exists_handler final rfl hallowed hstate
  obtain ⟨hfree, hreuse⟩ : handler.held = false ∧ handler.settings.reuse = true := by
    simpa using hfacts
  obtain ⟨bundle, w', hgenerate, hsafe⟩ :=
    generate_slots_safe hreach hhandler hfree hreuse howned Policy.everything Naming.standard
  have hslots := Session.check_of_succeedsWith hshares hgenerate
  exact ⟨final.1, final.2, handler, hreach, hhandler, hfree, hreuse, howned, bundle, w', hgenerate,
    hsafe, eq_of_beq hslots⟩

/-- Where temporaries share slots, the last use of every value is the rank of its last reader. Every
temporary is read behind its own rank, so its slot is kept until the noted last use and no
longer. -/
theorem generate_last_uses_exact (hreach : Reachable w issued)
    (hhandler : w.handler? h = some handler) (hfree : handler.held = false)
    (hreuse : handler.settings.reuse = true)
    (howned : ∀ s ∈ outputs, s.Known issued ∧ Session.Owned w h s) (policy : Policy α)
    (naming : Naming) :
    ∃ bundle w', Session.generate h policy naming outputs w = .ok bundle w' ∧
      bundle.isOptimized = handler.settings.optimize ∧ bundle.graph.LastUsesExact := by
  have hgraph := hreach.wellFormed.graph h handler hhandler
  have hlive := hreach.exists_recorded hhandler howned
  obtain ⟨w', hgenerate⟩ := hreach.exists_generate hhandler hfree howned policy naming
  refine ⟨_, w', hgenerate, Graph.isSome_flat_shared .., ?_⟩
  rw [hreuse]
  exact hgraph.lastUsesExact_shared handler.settings.optimize policy hlive

/-- A client eliminates a variable in favour of the product of two others, and records the
difference of its sum with one of them and the sine of the product. -/
def Request.product : List (Request ℚ) :=
  [.create {}, .newVariable 0, .newVariable 0, .newVariable 0,
    .binary (.binary .mul) (.var 0 0) (.var 0 1), .binary (.binary .sub) (.var 0 2) (.var 0 3),
    .eliminate 0 (.var 0 2) (.var 0 4), .binary (.binary .add) (.var 0 2) (.var 0 0),
    .unary (.unary (.call .sin)) (.var 0 3), .binary (.binary .sub) (.var 0 5) (.var 0 6)]

/-- The product is a temporary. The difference reads it through an alias in a sum that is spliced,
and through a sine that is inlined. -/
theorem generate_product_last_uses_exact :
    ∃ (w : Workspace ℚ) (issued : List (Symbol ℚ)) (handler : Handler ℚ), Reachable w issued ∧
      w.handler? 0 = some handler ∧ handler.held = false ∧ handler.settings.reuse = true ∧
      (∀ s ∈ [Symbol.var 0 7], s.Known issued ∧ Session.Owned w 0 s) ∧
      ∃ bundle w', Session.generate 0 Policy.shared Naming.standard [.var 0 7] w =
          .ok bundle w' ∧
        bundle.isOptimized = handler.settings.optimize ∧ bundle.graph.LastUsesExact ∧
        bundle.isOptimized = true ∧
        bundle.graph.order.map bundle.graph.isTemporary = [true, false] ∧
        bundle.graph.order.map bundle.graph.pass.lastUses.get = [2, 0] ∧
        bundle.graph.roster.map bundle.graph.pass.lastUses.get = [2, 1] := by
  let final := Request.runAll Request.product {} []
  have hallowed : Request.Allowed Request.product {} [] := by decide +kernel
  have hstate : (final.1.handler? 0).any (fun handler => !handler.held &&
      handler.settings.reuse) = true := by decide +kernel
  have howned : ∀ s ∈ [Symbol.var 0 7], s.Known final.2 ∧ Session.Owned final.1 0 s := by
    decide +kernel
  have huses : Session.succeedsWith (Session.generate 0 Policy.shared Naming.standard [.var 0 7])
      final.1 (fun bundle => decide (bundle.isOptimized = true ∧
        bundle.graph.order.map bundle.graph.isTemporary = [true, false] ∧
        bundle.graph.order.map bundle.graph.pass.lastUses.get = [2, 0] ∧
        bundle.graph.roster.map bundle.graph.pass.lastUses.get = [2, 1])) = true := by
    decide +kernel
  obtain ⟨hreach, handler, hhandler, hfacts⟩ := Request.exists_handler final rfl hallowed hstate
  obtain ⟨hfree, hreuse⟩ : handler.held = false ∧ handler.settings.reuse = true := by
    simpa using hfacts
  obtain ⟨bundle, w', hgenerate, hoptimized, hexact⟩ :=
    generate_last_uses_exact hreach hhandler hfree hreuse howned Policy.shared Naming.standard
  have hfacts := Session.check_of_succeedsWith huses hgenerate
  exact ⟨final.1, final.2, handler, hreach, hhandler, hfree, hreuse, howned, bundle, w', hgenerate,
    hoptimized, hexact, of_decide_eq_true hfacts⟩

end Straightline
