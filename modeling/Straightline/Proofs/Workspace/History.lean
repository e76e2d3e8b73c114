import Straightline.Proofs.Generation.Regeneration
import Straightline.Proofs.Workspace.Growth
import Straightline.Proofs.Workspace.Programs

/-!
# Passes do not depend on earlier passes

A pass starts from the recorded nodes alone. Whatever passes were run before, with or without
success, and whatever was recorded in the meantime, a pass over the same outputs with the same
settings hands out the same bundle, up to the identifiers of the nodes that flattening built.
-/

namespace Straightline

namespace Bundle

variable {α : Type} {ρ : NodeId → NodeId} {b b' : Bundle α}

/-- Two bundles agree up to the identifiers of the built nodes. -/
structure Renames (ρ : NodeId → NodeId) (b b' : Bundle α) : Prop
    extends b.graph.Renames ρ b'.graph where
  /-- The outputs are the same. -/
  outputs : b'.outputs = b.outputs.map (Arg.rename ρ)
  /-- The names are the same. -/
  naming : b'.naming = b.naming
  /-- The slots of the nodes were reserved for the same output positions. -/
  dependentIndex : ∀ id, b.graph.contains id = true →
    b'.dependentIndex? (ρ id) = b.dependentIndex? id

theorem renames_of_graph (h : b.graph.Renames ρ b'.graph)
    (houtputs : b'.outputs = b.outputs.map (Arg.rename ρ)) (hnaming : b'.naming = b.naming) :
    b.Renames ρ b' where
  toRenames := h
  outputs := houtputs
  naming := hnaming
  dependentIndex id hid := by
    rw [dependentIndex?, dependentIndex?, if_pos hid, if_pos (h.contains hid), h.owners,
      h.slot id hid]

end Bundle

variable {α : Type} {w w' : Workspace α} {issued : List (Symbol α)} {h : HandlerId}
  {handler : Handler α} {outputs : List (Symbol α)}

/-- Run a pass with given settings. -/
def Session.generateWith (h : HandlerId) (settings : Settings) (policy : Policy α)
    (naming : Naming) (outputs : List (Symbol α)) : Session α (Bundle α) := do
  Session.configure h fun _ => settings
  Session.generate h policy naming outputs

/-- Symbols of a handler whose graph grows stay symbols of it. -/
theorem Session.Owned.of_grows {s : Symbol α} (howned : Session.Owned w h s) (hsafe : w.Safe s)
    (hchanges : w.Changes h Graph.Grows w') : Session.Owned w' h s := by
  cases s with
  | param v => trivial
  | var k id =>
    obtain ⟨rfl, handler, hhandler, hlive⟩ := Session.owned_var.mp howned
    obtain ⟨handler', hhandler', hgrows⟩ := hchanges handler hhandler
    obtain ⟨node, hnode⟩ := hsafe.exists_recorded hhandler hlive
    have hkept := Graph.contains_of_recorded (hgrows.recorded id node hnode)
    exact Session.owned_var.mpr ⟨rfl, handler', hhandler', hkept⟩

/-- Requests in turn that neither clear a handler nor alter its variables let its graph grow. -/
theorem Request.grows_runAll [Scalar α] (hreach : Reachable w issued) {rs : List (Request α)}
    (hallowed : Request.Allowed rs w issued)
    (hkeeps : ∀ r ∈ rs, ¬ r.Clears h ∧ ¬ r.Alters h) :
    w.Changes h Graph.Grows (Request.runAll rs w issued).1 :=
  Request.changes_runAll Graph.admissible_grows hreach hallowed (fun r hr => (hkeeps r hr).1)
    fun r hr halters => absurd halters (hkeeps r hr).2

/-- Let a client run passes over a handler, with any outputs, policies and settings and with or
without success, and record nodes other than independent variables, in any order. For outputs that
it could ask for before, a pass with any settings and any policy gives the bundle that it would have
given then, up to the identifiers of the built nodes. -/
theorem generate_history_independent [Scalar α] (hreach : Reachable w issued)
    (hhandler : w.handler? h = some handler) (hfree : handler.held = false)
    (howned : ∀ s ∈ outputs, s.Known issued ∧ Session.Owned w h s) {rs : List (Request α)}
    (hallowed : Request.Allowed rs w issued) (hkeeps : ∀ r ∈ rs, ¬ r.Clears h ∧ ¬ r.Alters h)
    {handler' : Handler α} (hhandler' : (Request.runAll rs w issued).1.handler? h = some handler')
    (hfree' : handler'.held = false) (settings : Settings) (policy : Policy α) (naming : Naming) :
    ∃ bundle bundle' w₁ w₂ ρ,
      Session.generateWith h settings policy naming outputs w = .ok bundle w₁ ∧
      Session.generateWith h settings policy naming outputs (Request.runAll rs w issued).1 =
        .ok bundle' w₂ ∧
      bundle.Renames ρ bundle' := by
  have hchanges := Request.grows_runAll hreach hallowed hkeeps
  have hevolves := Request.evolves_runAll hreach hallowed
  obtain ⟨later, hlater, hgrows⟩ := hchanges handler hhandler
  obtain rfl : handler' = later := Option.some.inj (hhandler'.symm.trans hlater)
  have hgraph := hreach.wellFormed.graph h handler hhandler
  have hgraph' := hevolves.graph h handler handler' hhandler hhandler'
  have hlive := hreach.exists_recorded hhandler howned
  obtain ⟨w₁, hbefore⟩ := Session.generate_of_configure hhandler hfree hgraph
    (fun s hs => (howned s hs).2) hlive (fun _ => settings) policy naming
  obtain ⟨w₂, hafter⟩ := Session.generate_of_configure hhandler' hfree' hgraph'.wellFormed
    (fun s hs => (howned s hs).2.of_grows (hreach.safe (howned s hs).1) hchanges)
    (fun id hid => hgrows.exists_recorded (hlive id hid)) (fun _ => settings) policy naming
  obtain ⟨hrenames, houtputs⟩ := hgrows.renames_shared hgraph hgraph'.wellFormed hgraph'.next_le
    settings.optimize settings.reuse policy hlive
  exact ⟨_, _, w₁, w₂, _, hbefore, hafter, Bundle.renames_of_graph hrenames houtputs rfl⟩

/-- A client runs a pass, asks in vain for another one while it holds the bundle, lets go of it and
records a sum. -/
def Request.passes : List (Request ℚ) :=
  [.generate 0 Policy.everything Naming.standard [.var 0 4],
    .generate 0 Policy.everything Naming.standard [.var 0 1], .release 0,
    .binary (.binary .add) (.var 0 4) (.var 0 0)]

/-- A flattened graph with an eliminated variable among the outputs, before and after. The built
nodes have other identifiers. -/
theorem generate_elimination_history_independent :
    ∃ (w : Workspace ℚ) (issued : List (Symbol ℚ)) (handler handler' : Handler ℚ),
      Reachable w issued ∧ w.handler? 0 = some handler ∧ handler.held = false ∧
      (∀ s ∈ Request.eliminationOutputs, s.Known issued ∧ Session.Owned w 0 s) ∧
      Request.Allowed Request.passes w issued ∧
      (∀ r ∈ Request.passes, ¬ r.Clears 0 ∧ ¬ r.Alters 0) ∧
      (Request.runAll Request.passes w issued).1.handler? 0 = some handler' ∧
      handler'.held = false ∧
      ∃ bundle bundle' w₁ w₂ ρ,
        Session.generateWith 0 {} Policy.shared Naming.standard Request.eliminationOutputs w =
          .ok bundle w₁ ∧
        Session.generateWith 0 {} Policy.shared Naming.standard Request.eliminationOutputs
          (Request.runAll Request.passes w issued).1 = .ok bundle' w₂ ∧
        bundle.Renames ρ bundle' ∧ bundle.graph.order = [6, 7] ∧
        bundle'.graph.order = [10, 11] := by
  let first := Request.runAll (Request.elimination true) {} []
  have hstart : Request.Allowed (Request.elimination true) {} [] := by decide +kernel
  have hstate : (first.1.handler? 0).any (fun handler => !handler.held) = true := by
    decide +kernel
  have hstate' : ((Request.runAll Request.passes first.1 first.2).1.handler? 0).any
      (fun handler => !handler.held) = true := by decide +kernel
  have howned : ∀ s ∈ Request.eliminationOutputs,
      s.Known first.2 ∧ Session.Owned first.1 0 s := by decide +kernel
  have hallowed : Request.Allowed Request.passes first.1 first.2 := by decide +kernel
  have hkeeps : ∀ r ∈ Request.passes, ¬ r.Clears 0 ∧ ¬ r.Alters 0 := by
    simp [Request.passes, Request.Clears, Request.Alters]
  have horder : Session.succeedsWith (Session.generateWith 0 {} Policy.shared Naming.standard
      Request.eliminationOutputs) first.1 (·.graph.order == [6, 7]) = true := by decide +kernel
  have horder' : Session.succeedsWith (Session.generateWith 0 {} Policy.shared Naming.standard
      Request.eliminationOutputs) (Request.runAll Request.passes first.1 first.2).1
        (·.graph.order == [10, 11]) = true := by decide +kernel
  obtain ⟨hreach, handler, hhandler, hheld⟩ := Request.exists_handler first rfl hstart hstate
  obtain ⟨handler', hhandler', hheld'⟩ := (Option.any_eq_true ..).mp hstate'
  have hfree : handler.held = false := by simpa using hheld
  have hfree' : handler'.held = false := by simpa using hheld'
  obtain ⟨bundle, bundle', w₁, w₂, ρ, hbefore, hafter, hrenames⟩ :=
    generate_history_independent hreach hhandler hfree howned hallowed hkeeps hhandler' hfree' {}
      Policy.shared Naming.standard
  have hnodes := Session.check_of_succeedsWith horder hbefore
  have hnodes' := Session.check_of_succeedsWith horder' hafter
  exact ⟨first.1, first.2, handler, handler', hreach, hhandler, hfree, howned, hallowed, hkeeps,
    hhandler', hfree', bundle, bundle', w₁, w₂, ρ, hbefore, hafter, hrenames, eq_of_beq hnodes,
    eq_of_beq hnodes'⟩

end Straightline
