import Straightline.Proofs.Workspace.Growth

/-!
# Elimination of variables of reachable handlers

A client that eliminates a variable can go on using every expression it has recorded. In the graph
after the elimination an expression means what it meant before with the variable replaced by the
solved expression, and it keeps that meaning over all further requests, more eliminations among
them, until the handler is cleared.
-/

namespace Straightline

variable {α : Type} [Scalar α] {w w' : Workspace α} {issued : List (Symbol α)} {h : HandlerId}
  {handler : Handler α}

/-- What was recorded in a handler means the same after any requests that do not clear it. -/
theorem Reachable.exists_means (hreach : Reachable w issued)
    (hhandler : w.handler? h = some handler) {rs : List (Request α)}
    (hallowed : Request.Allowed rs w issued) (hclears : ∀ r ∈ rs, ¬ r.Clears h) :
    ∃ later, (Request.runAll rs w issued).1.handler? h = some later ∧
      handler.graph.Means later.graph := by
  obtain ⟨later, hlater, hpreserves⟩ := Request.changes_runAll Graph.admissible_preserves hreach
    hallowed hclears (fun _ _ _ _ _ hg _ => hg) handler hhandler
  have hgraph := hreach.wellFormed.graph h handler hhandler
  have hgraph' := (hreach.runAll rs hallowed).wellFormed.graph h later hlater
  exact ⟨later, hlater, hpreserves.means hgraph hgraph'⟩

/-- Eliminating a variable by inversion takes it out of the roster and makes it a copy of the
solved expression, which does not reach it. All other recorded nodes stay as they are, and every
recorded node has the values it had with the variable replaced by the solved expression. This goes
on over all further requests, until the handler is cleared. -/
theorem eliminate_substitutes_solved (hreach : Reachable w issued)
    (hhandler : w.handler? h = some handler) {independent residual : Symbol α}
    (hindependent : independent.Known issued) (hresidual : residual.Known issued)
    (hok : Session.eliminate h Solver.inversion independent residual w = .ok () w') :
    ∃ index target solved handler', independent = .var h target ∧
      w'.handler? h = some handler' ∧
      (∃ g, Solver.inversion.solve handler.graph residual.toArg target = .ok (solved, g)) ∧
      handler.graph.Eliminates handler'.graph index target solved ∧
      handler.graph.Substitutes handler'.graph index solved ∧
      ∀ rs, Request.Allowed rs w' issued → (∀ r ∈ rs, ¬ r.Clears h) →
        ∃ later, (Request.runAll rs w' issued).1.handler? h = some later ∧
          handler.graph.Means later.graph := by
  have heffect := Session.ensures_eliminate hreach.wellFormed h (hreach.safe hindependent)
    (hreach.safe hresidual)
  rw [Session.Ensures, hok] at heffect
  obtain ⟨target, found, index, solved, g, g', rfl, hfound, hsolve, hevolves, heliminates, hw'⟩ :=
    heffect
  rw [hhandler, Option.some_inj] at hfound
  subst hfound
  have hgraph := hreach.wellFormed.graph h handler hhandler
  have hhandler' : w'.handler? h = some { handler with graph := g' } := by
    rw [hw', Workspace.handler?_put, if_pos rfl]
  refine ⟨index, target, solved, { handler with graph := g' }, rfl, hhandler', ⟨g, hsolve⟩,
    heliminates, heliminates.substitutes hgraph hevolves.wellFormed, fun rs hallowed hclears => ?_⟩
  -- The elimination itself is the first of the requests.
  let r : Request α := .eliminate h (.var h target) residual
  have hafter : r.after w = (w', []) := by
    have hrun : r.run w = .ok [] w' := Session.bind_of_ok hok
    rw [Request.after, hrun]
  have hsame : Request.runAll (r :: rs) w issued = Request.runAll rs w' issued := by
    rw [Request.runAll, hafter, List.append_nil]
  rw [← hsame]
  refine hreach.exists_means hhandler ⟨?_, ?_⟩ ?_
  · intro s hs
    obtain rfl | rfl : s = .var h target ∨ s = residual := by simpa [r, Request.symbols] using hs
    · exact hindependent
    · exact hresidual
  · rwa [hafter, List.append_nil]
  · intro s hs
    rcases List.mem_cons.mp hs with rfl | hs
    · exact id
    · exact hclears s hs

/-- A client creates `x`, `y` and `z`, and records the residuals `y - x * x` and `z - y`. -/
def Request.equations : List (Request ℚ) :=
  [.create {}, .newVariable 0, .newVariable 0, .newVariable 0,
    .binary (.binary .mul) (.var 0 0) (.var 0 0), .binary (.binary .sub) (.var 0 1) (.var 0 3),
    .binary (.binary .sub) (.var 0 2) (.var 0 1)]

/-- After `y` is eliminated by `y - x * x = 0`, also `z` is eliminated, by `z - y = 0`. -/
theorem eliminate_substitutes_square :
    ∃ (w w' : Workspace ℚ) (issued : List (Symbol ℚ)) (handler : Handler ℚ),
      Reachable w issued ∧ w.handler? 0 = some handler ∧ handler.graph.roster = [0, 1, 2] ∧
      Session.eliminate 0 Solver.inversion (.var 0 1) (.var 0 4) w = .ok () w' ∧
      ∃ index solved handler', w'.handler? 0 = some handler' ∧
        handler.graph.Eliminates handler'.graph index 1 solved ∧
        handler.graph.Substitutes handler'.graph index solved ∧
        ∃ later, (Request.runAll [.eliminate 0 (.var 0 2) (.var 0 5)] w' issued).1.handler? 0 =
            some later ∧
          handler.graph.Means later.graph ∧ later.graph.roster = [0] := by
  let final := Request.runAll Request.equations {} []
  let first : Request ℚ := .eliminate 0 (.var 0 1) (.var 0 4)
  let second : Request ℚ := .eliminate 0 (.var 0 2) (.var 0 5)
  have hallowed : Request.Allowed Request.equations {} [] := by decide +kernel
  have hknown : Symbol.Known final.2 (.var 0 1) ∧ Symbol.Known final.2 (.var 0 4) := by
    decide +kernel
  have hroster : (final.1.handler? 0).map (·.graph.roster) = some [0, 1, 2] := by decide +kernel
  have hsecond : Request.Allowed [second] (first.after final.1).1 final.2 := by decide +kernel
  have hlast : ((Request.runAll [second] (first.after final.1).1 final.2).1.handler? 0).map
      (·.graph.roster) = some [0] := by decide +kernel
  obtain ⟨handler, hhandler, hlist⟩ := Option.map_eq_some_iff.mp hroster
  cases hresult : Session.eliminate 0 Solver.inversion (.var 0 1) (.var 0 4) final.1 with
  | error e w' =>
    have hok : (Session.eliminate 0 Solver.inversion (.var 0 1) (.var 0 4) final.1 matches
        .ok ..) = true := by decide +kernel
    rw [hresult] at hok
    cases hok
  | ok _ w' =>
    have hafter : (first.after final.1).1 = w' := by
      have hrun : first.run final.1 = .ok [] w' := Session.bind_of_ok hresult
      rw [Request.after, hrun]
    rw [hafter] at hsecond hlast
    have hreach : Reachable final.1 final.2 := Reachable.start.runAll _ hallowed
    obtain ⟨index, target, solved, handler', htarget, hhandler', _, heliminates, hsubstitutes,
      hmeans⟩ := eliminate_substitutes_solved hreach hhandler hknown.1 hknown.2 hresult
    obtain rfl : 1 = target := by simpa using htarget
    obtain ⟨later, hlater, hmeaning⟩ := hmeans [second] hsecond (by simp [second, Request.Clears])
    rw [hlater, Option.map_some, Option.some_inj] at hlast
    exact ⟨final.1, w', final.2, handler, hreach, hhandler, hlist, hresult, index, solved,
      handler', hhandler', heliminates, hsubstitutes, later, hlater, hmeaning, hlast⟩

end Straightline
