import Straightline.Proofs.Workspace.Session

/-!
# Reachable workspaces

A client starts from an empty workspace and makes requests, in any order and with any success. It
holds the symbols that requests have answered with, however long ago, and can make parameters, but
it cannot make up a symbol of a node. In every workspace that can be reached in this way the graphs
of all handlers are well formed.
-/

namespace Straightline

/-- What a client can ask for. -/
inductive Request (α : Type) where
  /-- Create a handler. -/
  | create (settings : Settings)
  /-- Change the settings of a handler. -/
  | configure (h : HandlerId) (change : Settings → Settings)
  /-- Release every node of a handler. -/
  | reset (h : HandlerId)
  /-- Drop a handler. -/
  | drop (h : HandlerId)
  /-- Create an independent variable. -/
  | newVariable (h : HandlerId)
  /-- Record a binary operation. -/
  | binary (op : Opcode) (l r : Symbol α)
  /-- Record a unary operation. -/
  | unary (op : Opcode) (x : Symbol α)
  /-- Record a choice by comparison. -/
  | select (c : Comparison) (l r t f : Symbol α)
  /-- Give a display name to a variable. -/
  | setName (s : Symbol α) (name : String)
  /-- Solve an equation for a node by inversion. -/
  | solve (h : HandlerId) (residual target : Symbol α)
  /-- Eliminate an independent variable by inversion. -/
  | eliminate (h : HandlerId) (independent residual : Symbol α)
  /-- Run a generation pass. -/
  | generate (h : HandlerId) (policy : Policy α) (naming : Naming) (outputs : List (Symbol α))
  /-- Let go of the bundle of a pass. -/
  | release (h : HandlerId)
  /-- Run a generation pass and render its text. -/
  | generateText (h : HandlerId) (renderer : Renderer α) (naming : Naming)
      (outputs : List (Symbol α))

namespace Request

variable {α : Type}

/-- The symbols that a request is about. -/
def symbols : Request α → List (Symbol α)
  | create _ | configure _ _ | reset _ | drop _ | newVariable _ | release _ => []
  | binary _ l r => [l, r]
  | unary _ x => [x]
  | select _ l r t f => [l, r, t, f]
  | setName s _ => [s]
  | solve _ residual target => [residual, target]
  | eliminate _ independent residual => [independent, residual]
  | generate _ _ _ outputs | generateText _ _ _ outputs => outputs

variable [Scalar α]

/-- Carry out a request. The answer holds the symbols that the client is given. -/
def run : Request α → Session α (List (Symbol α))
  | create settings => do let _ ← Session.create settings; return []
  | configure h change => do Session.configure h change; return []
  | reset h => do Session.reset h; return []
  | drop h => do Session.drop h; return []
  | newVariable h => do return [← Session.newVariable h]
  | binary op l r => do return [← Session.applyBinary op l r]
  | unary op x => do return [← Session.applyUnary op x]
  | select c l r t f => do return [← Session.select c l r t f]
  | setName s name => do Session.setName s name; return []
  | solve h residual target => do return [← Session.solve h Solver.inversion residual target]
  | eliminate h independent residual => do
    Session.eliminate h Solver.inversion independent residual
    return []
  | generate h policy naming outputs => do
    let _ ← Session.generate h policy naming outputs
    return []
  | release h => do Session.release h; return []
  | generateText h renderer naming outputs => do
    let _ ← Session.generateText h renderer naming outputs
    return []

/-- The workspace after a request, and the symbols that the client is given. A request that fails
gives none. -/
def after (r : Request α) (w : Workspace α) : Workspace α × List (Symbol α) :=
  match r.run w with
  | .ok issued w' => (w', issued)
  | .error _ w' => (w', [])

/-- On safe symbols every request lets the workspace evolve and answers with safe symbols. -/
theorem serves_run {w : Workspace α} (hw : w.WellFormed) (r : Request α)
    (hsafe : ∀ s ∈ r.symbols, w.Safe s) : Session.Serves w (fun issued => issued) r.run := by
  cases r with
  | create settings => exact (Session.serves_create hw settings).answer
  | configure h change => exact (Session.serves_configure hw h change).answer
  | reset h => exact (Session.serves_reset hw h).answer
  | drop h => exact (Session.serves_drop hw h).answer
  | newVariable h => exact (Session.serves_newVariable hw h).answer
  | binary op l r =>
    exact (Session.serves_applyBinary hw op (hsafe l (by simp [symbols]))
      (hsafe r (by simp [symbols]))).answer
  | unary op x => exact (Session.serves_applyUnary hw op (hsafe x (by simp [symbols]))).answer
  | select c l r t f =>
    exact (Session.serves_select hw c (hsafe l (by simp [symbols])) (hsafe r (by simp [symbols]))
      (hsafe t (by simp [symbols])) (hsafe f (by simp [symbols]))).answer
  | setName s name => exact (Session.serves_setName hw s name).answer
  | solve h residual target =>
    exact (Session.serves_solve hw h (hsafe residual (by simp [symbols]))
      (hsafe target (by simp [symbols]))).answer
  | eliminate h independent residual =>
    exact (Session.serves_eliminate hw h (hsafe independent (by simp [symbols]))
      (hsafe residual (by simp [symbols]))).answer
  | generate h policy naming outputs =>
    exact (Session.serves_generate hw h policy naming hsafe).answer
  | release h => exact (Session.serves_release hw h).answer
  | generateText h renderer naming outputs =>
    exact (Session.serves_generateText hw h renderer naming hsafe).answer

/-- One request keeps the workspace well formed and its symbols safe. -/
theorem evolves_after {w : Workspace α} (hw : w.WellFormed) (r : Request α)
    (hsafe : ∀ s ∈ r.symbols, w.Safe s) :
    w.Evolves (r.after w).1 ∧ ∀ s ∈ (r.after w).2, (r.after w).1.Safe s := by
  have hserves := serves_run hw r hsafe
  unfold Session.Serves Session.Ensures at hserves
  unfold after
  cases hresult : r.run w with
  | ok issued w' =>
    rw [hresult] at hserves
    exact hserves
  | error e w' =>
    rw [hresult] at hserves
    exact ⟨hserves, by simp⟩

end Request

/-- A symbol that a client can use: a parameter, or one that it was given. -/
def Symbol.Known {α : Type} (issued : List (Symbol α)) : Symbol α → Prop
  | param _ => True
  | var h id => .var h id ∈ issued

instance {α : Type} [DecidableEq α] (issued : List (Symbol α)) : DecidablePred (Symbol.Known issued)
  | .param _ => .isTrue trivial
  | .var h id => inferInstanceAs (Decidable (.var h id ∈ issued))

/-- Known symbols are safe if the given ones are. -/
theorem Symbol.Known.safe {α : Type} {w : Workspace α} {issued : List (Symbol α)} {s : Symbol α}
    (hs : s.Known issued) (hsafe : ∀ t ∈ issued, w.Safe t) : w.Safe s := by
  cases s with
  | param v => exact Workspace.safe_param w v
  | var h id => exact hsafe _ hs

/-- The workspaces that a client can reach, with the symbols that it was given on the way. -/
inductive Reachable {α : Type} [Scalar α] : Workspace α → List (Symbol α) → Prop where
  /-- At first there is no handler. -/
  | start : Reachable {} []
  /-- The client makes a request with symbols that it knows. -/
  | request {w : Workspace α} {issued : List (Symbol α)} (hreach : Reachable w issued)
      (r : Request α) (hknown : ∀ s ∈ r.symbols, s.Known issued) :
      Reachable (r.after w).1 (issued ++ (r.after w).2)

namespace Reachable

variable {α : Type} [Scalar α] {w : Workspace α} {issued : List (Symbol α)}

/-- Every reachable workspace is well formed, and all symbols that were given are safe. -/
theorem invariant (h : Reachable w issued) : w.WellFormed ∧ ∀ s ∈ issued, w.Safe s := by
  induction h with
  | start => exact ⟨.empty, by simp⟩
  | @request w issued _ r hknown ih =>
    obtain ⟨hw, hsafe⟩ := ih
    obtain ⟨hevolves, hnew⟩ := r.evolves_after hw fun s hs => (hknown s hs).safe hsafe
    refine ⟨hevolves.wellFormed, fun s hs => ?_⟩
    rcases List.mem_append.mp hs with hs | hs
    · exact (hsafe s hs).mono hevolves
    · exact hnew s hs

theorem wellFormed (h : Reachable w issued) : w.WellFormed := h.invariant.1

theorem safe (h : Reachable w issued) {s : Symbol α} (hs : s.Known issued) : w.Safe s :=
  hs.safe h.invariant.2

end Reachable

/-- The workspace after requests in turn, and all symbols that the client was given. -/
def Request.runAll {α : Type} [Scalar α] :
    List (Request α) → Workspace α → List (Symbol α) → Workspace α × List (Symbol α)
  | [], w, issued => (w, issued)
  | r :: rs, w, issued => runAll rs (r.after w).1 (issued ++ (r.after w).2)

/-- The client knows the symbols of every request when it makes it. -/
def Request.Allowed {α : Type} [Scalar α] :
    List (Request α) → Workspace α → List (Symbol α) → Prop
  | [], _, _ => True
  | r :: rs, w, issued =>
    (∀ s ∈ r.symbols, s.Known issued) ∧ Allowed rs (r.after w).1 (issued ++ (r.after w).2)

instance Request.decidableAllowed {α : Type} [Scalar α] [DecidableEq α] :
    (rs : List (Request α)) → (w : Workspace α) → (issued : List (Symbol α)) →
      Decidable (Request.Allowed rs w issued)
  | [], _, _ => .isTrue trivial
  | r :: rs, w, issued =>
    have := decidableAllowed rs (r.after w).1 (issued ++ (r.after w).2)
    inferInstanceAs (Decidable ((∀ s ∈ r.symbols, s.Known issued) ∧ _))

/-- Allowed requests lead to reachable workspaces. -/
theorem Reachable.runAll {α : Type} [Scalar α] {w : Workspace α} {issued : List (Symbol α)}
    (h : Reachable w issued) (rs : List (Request α)) (hallowed : Request.Allowed rs w issued) :
    Reachable (Request.runAll rs w issued).1 (Request.runAll rs w issued).2 := by
  induction rs generalizing w issued with
  | nil => exact h
  | cons r rs ih => exact ih (h.request r hallowed.1) hallowed.2

section Checks

variable {α β ε : Type}

/-- What was checked of a handler after allowed requests. -/
theorem Request.exists_handler [Scalar α] {rs : List (Request α)} {check : Handler α → Bool}
    (final : Workspace α × List (Symbol α)) (hfinal : final = Request.runAll rs {} [])
    (hallowed : Request.Allowed rs {} []) (hstate : (final.1.handler? 0).any check = true) :
    Reachable final.1 final.2 ∧
      ∃ handler, final.1.handler? 0 = some handler ∧ check handler = true :=
  ⟨hfinal ▸ Reachable.start.runAll rs hallowed, (Option.any_eq_true ..).mp hstate⟩

/-- Whether a session succeeds with an answer that passes a check. -/
def Session.succeedsWith (m : Session α β) (w : Workspace α) (check : β → Bool) : Bool :=
  match m w with
  | .ok b _ => check b
  | .error _ _ => false

/-- What was checked of the answer of a session. -/
theorem Session.check_of_succeedsWith {m : Session α β} {w w' : Workspace α} {check : β → Bool}
    {b : β} (hcheck : Session.succeedsWith m w check = true) (hok : m w = .ok b w') :
    check b = true := by
  rwa [Session.succeedsWith, hok] at hcheck

/-- What was checked of a result. -/
theorem exists_ok_of_any {x : Except ε β} {check : β → Bool} (h : x.toOption.any check = true) :
    ∃ b, x = .ok b ∧ check b = true := by
  cases x with
  | error e => cases h
  | ok b => exact ⟨b, rfl, h⟩

end Checks

/-- A client creates two variables `x` and `y`, eliminates `y` by `y - x * x = 0`, and records the
sum of both. -/
def Request.elimination (optimize : Bool) : List (Request ℚ) :=
  [.create { optimize := optimize }, .newVariable 0, .newVariable 0,
    .binary (.binary .mul) (.var 0 0) (.var 0 0), .binary (.binary .sub) (.var 0 1) (.var 0 2),
    .eliminate 0 (.var 0 1) (.var 0 3), .binary (.binary .add) (.var 0 1) (.var 0 0)]

/-- The sum twice, the eliminated variable, the other one and a parameter. -/
def Request.eliminationOutputs : List (Symbol ℚ) :=
  [.var 0 4, .var 0 1, .var 0 0, .var 0 4, .param 7]

/-- After the elimination one variable is left, and the client can ask for the outputs. -/
theorem Reachable.exists_elimination (optimize : Bool) :
    ∃ (w : Workspace ℚ) (issued : List (Symbol ℚ)) (handler : Handler ℚ), Reachable w issued ∧
      w.handler? 0 = some handler ∧ handler.held = false ∧ handler.settings.optimize = optimize ∧
      handler.graph.roster = [0] ∧
      (∀ s ∈ Request.eliminationOutputs, s.Known issued ∧ Session.Owned w 0 s) ∧
      (Request.runAll (Request.elimination optimize) {} []).1 = w := by
  let final := Request.runAll (Request.elimination optimize) {} []
  have hallowed : Request.Allowed (Request.elimination optimize) {} [] := by
    cases optimize <;> decide +kernel
  have hstate : (final.1.handler? 0).any (fun handler => !handler.held &&
      handler.settings.optimize == optimize && handler.graph.roster == [0]) = true := by
    cases optimize <;> decide +kernel
  have howned : ∀ s ∈ Request.eliminationOutputs, s.Known final.2 ∧ Session.Owned final.1 0 s := by
    cases optimize <;> decide +kernel
  obtain ⟨hreach, handler, hhandler, hfacts⟩ := Request.exists_handler final rfl hallowed hstate
  obtain ⟨⟨hfree, hoptimize⟩, hroster⟩ :
      (handler.held = false ∧ handler.settings.optimize = optimize) ∧
        handler.graph.roster = [0] := by
    simpa using hfacts
  exact ⟨final.1, final.2, handler, hreach, hhandler, hfree, hoptimize, hroster, howned, rfl⟩

/-- In every workspace that a client can reach, by requests that succeed or fail, the graph of
every handler is well formed. -/
theorem reachable_graph_wellFormed {α : Type} [Scalar α] {w : Workspace α}
    {issued : List (Symbol α)} (hreach : Reachable w issued) {h : HandlerId} {handler : Handler α}
    (hhandler : w.handler? h = some handler) : handler.graph.WellFormed :=
  hreach.wellFormed.graph h handler hhandler

/-- The graph is well formed after a variable was eliminated. -/
theorem reachable_elimination_wellFormed :
    ∃ (w : Workspace ℚ) (issued : List (Symbol ℚ)) (handler : Handler ℚ), Reachable w issued ∧
      w.handler? 0 = some handler ∧ handler.graph.roster = [0] ∧ handler.graph.WellFormed := by
  obtain ⟨w, issued, handler, hreach, hhandler, _, _, hroster, _, _⟩ :=
    Reachable.exists_elimination true
  exact ⟨w, issued, handler, hreach, hhandler, hroster,
    reachable_graph_wellFormed hreach hhandler⟩

end Straightline
