import Straightline.Proofs.Workspace.Reachable

/-!
# Refused requests

A request is refused before anything is done. The causes are errors of usage and equations that
cannot be solved, never a defect of the data: a pass over a reachable workspace does not fail once
it has begun. So a refused request leaves the graphs of all handlers as they were, with their nodes,
rosters and the state of their last passes.
-/

namespace Straightline

/-- The causes for which a request is refused. -/
def Error.isRefusal : Error → Bool
  | crossGraph | handlerDropped | foreignNode | graphInUse | notIndependent | solve _
  | unsupported _ => true
  | _ => false

/-- The inversion of a path fails only where the equation cannot be solved. -/
theorem Solver.isRefusal_inversion {α : Type} [Scalar α] {g : Graph α} (h : g.WellFormed)
    {residual : Arg α} {target : NodeId}
    (hresidual : ∀ k, residual = .node k → ∃ m, g.recorded.get k = some m) {e : Error}
    (hfail : Solver.inversion.solve g residual target = .error e) : e.isRefusal = true := by
  cases residual with
  | const v =>
    obtain rfl : Error.solve .notPresent = e := by simpa [inversion] using hfail
    rfl
  | node root =>
    have hpath : Inversion.path g root target = .error e := by
      cases hpath : Inversion.path g root target with
      | error e' => simpa [inversion, hpath, bind, Except.bind] using hfail
      | ok steps => simp [inversion, hpath, bind, Except.bind, pure, Except.pure] at hfail
    -- the residual is live, so the only fault of a search does not occur
    obtain ⟨m, hm⟩ := hresidual root rfl
    obtain ⟨cause, rfl⟩ :=
      Inversion.exists_cause_of_error h.proper (Graph.contains_of_recorded hm) hpath
    rfl

namespace Session

variable {α β γ : Type} {w : Workspace α} {h : HandlerId} {m : Session α β}
  {f : β → Session α γ}

/-- A computation that fails only with a refusal, and has done nothing then. -/
def Refuses (m : Session α β) (w : Workspace α) : Prop :=
  ∀ e w', m w = .error e w' → w' = w ∧ e.isRefusal = true

theorem refuses_of_ok {b : β} {w' : Workspace α} (hm : m w = .ok b w') : Refuses m w := by
  intro e w'' hfail
  rw [hm] at hfail
  cases hfail

theorem refuses_pure (b : β) : Refuses (pure b) w := by
  have hok : (pure b : Session α β) w = .ok b w := rfl
  exact refuses_of_ok hok

theorem refuses_throw {e : Error} (he : e.isRefusal = true) :
    Refuses (throw e : Session α β) w := by
  intro e' w' hfail
  cases hfail
  exact ⟨rfl, he⟩

/-- A computation after another one, which only reads. -/
theorem Refuses.read {P : β → Prop} (hm : Refuses m w)
    (hread : Ensures m w (fun b w' => w' = w ∧ P b) (· = w)) (hf : ∀ b, P b → Refuses (f b) w) :
    Refuses (m >>= f) w := by
  intro e w' hfail
  unfold Ensures at hread
  cases hresult : m w with
  | ok b w₁ =>
    rw [hresult] at hread
    obtain ⟨rfl, hb⟩ := hread
    rw [bind_of_ok hresult] at hfail
    exact hf b hb e w' hfail
  | error e₁ w₁ =>
    rw [bind_of_error hresult] at hfail
    cases hfail
    exact hm _ _ hresult

/-- Answering with something else. -/
theorem Refuses.answer (hm : Refuses m w) (answer : β → γ) :
    Refuses (do return answer (← m)) w := by
  intro e w' hfail
  cases hresult : m w with
  | ok b w₁ =>
    rw [bind_of_ok hresult] at hfail
    cases hfail
  | error e₁ w₁ =>
    rw [bind_of_error hresult] at hfail
    cases hfail
    exact hm _ _ hresult

theorem refuses_live (h : HandlerId) : Refuses (live h) w := by
  have hok : (get : Session α (Workspace α)) w = .ok w w := rfl
  have hget : Ensures get w (fun b w' => w' = w ∧ b = w) (· = w) := ensures_get ⟨rfl, rfl⟩
  refine (refuses_of_ok hok).read hget ?_
  rintro _ rfl
  split
  · apply refuses_pure
  · exact refuses_throw rfl

theorem refuses_writable (h : HandlerId) : Refuses (writable h) w := by
  refine (refuses_live h).read (ensures_live w h) fun handler _ => ?_
  by_cases hheld : handler.held = true
  · rw [if_pos hheld]
    exact refuses_throw rfl
  · rw [if_neg hheld]
    apply refuses_pure

theorem refuses_ownNode (h : HandlerId) (s : Symbol α) : Refuses (ownNode h s) w := by
  cases s with
  | param v => exact refuses_throw rfl
  | var owner id =>
    simp only [ownNode]
    split
    · exact refuses_throw rfl
    · refine (refuses_live h).read (ensures_live w h) fun handler _ => ?_
      by_cases hlive : handler.graph.contains id = true
      · rw [if_pos hlive]
        apply refuses_pure
      · rw [if_neg hlive]
        exact refuses_throw rfl

theorem refuses_ownArg (h : HandlerId) (s : Symbol α) : Refuses (ownArg h s) w := by
  cases s with
  | param v => exact refuses_pure _
  | var owner id => exact (refuses_ownNode h (.var owner id)).answer _

theorem refuses_ownArgs (h : HandlerId) (symbols : List (Symbol α)) :
    Refuses (symbols.mapM (ownArg h)) w := by
  induction symbols with
  | nil => exact refuses_pure _
  | cons s rest ih =>
    rw [List.mapM_cons]
    refine (refuses_ownArg h s).read (ensures_ownArg w h s) fun x _ => ?_
    exact ih.answer _

theorem refuses_independentIndex (h : HandlerId) (s : Symbol α) :
    Refuses (independentIndex h s) w := by
  refine (refuses_ownNode h s).read (ensures_ownNode w h s) fun id _ => ?_
  refine (refuses_live h).read (ensures_live w h) fun handler _ => ?_
  split
  · apply refuses_pure
  · exact refuses_throw rfl

/-- The handler of the operands is not found if they belong to different ones, or if there is no
variable among them. -/
theorem isRefusal_commonHandler {found : Option HandlerId} {symbols : List (Symbol α)} {e : Error}
    (hfail : commonHandler found symbols = .error e) : e.isRefusal = true := by
  induction symbols generalizing found with
  | nil =>
    cases found with
    | some k => cases hfail
    | none =>
      cases hfail
      rfl
  | cons s rest ih =>
    cases s with
    | param v => exact ih (by simpa [commonHandler] using hfail)
    | var k id =>
      cases found with
      | none => exact ih hfail
      | some j =>
        unfold commonHandler at hfail
        by_cases heq : j = k
        · rw [if_pos heq] at hfail
          exact ih hfail
        · rw [if_neg heq] at hfail
          cases hfail
          rfl

theorem refuses_record (op : Operation (Symbol α)) : Refuses (record op) w := by
  unfold record
  cases hcommon : commonHandler none op.operands with
  | error e => exact refuses_throw (isRefusal_commonHandler hcommon)
  | ok h =>
    refine (refuses_writable h).read (ensures_writable w h) fun handler _ => ?_
    dsimp only
    split
    · exact refuses_throw rfl
    · exact refuses_of_ok rfl

theorem refuses_configure (h : HandlerId) (change : Settings → Settings) :
    Refuses (configure h change) w :=
  (refuses_live h).read (ensures_live w h) fun _ _ => refuses_of_ok rfl

theorem refuses_release (h : HandlerId) : Refuses (release h) w :=
  (refuses_live h).read (ensures_live w h) fun _ _ => refuses_of_ok rfl

theorem refuses_reset (h : HandlerId) : Refuses (reset h) w :=
  (refuses_writable h).read (ensures_writable w h) fun _ _ => refuses_of_ok rfl

theorem refuses_drop (h : HandlerId) : Refuses (drop h) w :=
  (refuses_writable h).read (ensures_writable w h) fun _ _ => refuses_of_ok rfl

theorem refuses_newVariable (h : HandlerId) : Refuses (newVariable h) w :=
  (refuses_writable h).read (ensures_writable w h) fun _ _ => refuses_of_ok rfl

theorem refuses_setName (s : Symbol α) (name : String) : Refuses (setName s name) w := by
  cases s with
  | param v => exact refuses_throw rfl
  | var h id =>
    refine (refuses_writable h).read (ensures_writable w h) fun handler _ => ?_
    split
    · exact refuses_throw rfl
    · exact refuses_of_ok rfl

/-- A pass over safe symbols is refused or succeeds. -/
theorem refuses_generate (hw : w.WellFormed) (h : HandlerId) (policy : Policy α) (naming : Naming)
    {outputs : List (Symbol α)} (hsafe : ∀ s ∈ outputs, w.Safe s) :
    Refuses (generate h policy naming outputs) w := by
  refine (refuses_ownArgs h outputs).read (ensures_ownArgs w h outputs) ?_
  rintro _ ⟨rfl, howned⟩
  refine (refuses_writable h).read (ensures_writable w h) fun handler hwritable => ?_
  have hlive : ∀ id, Arg.node id ∈ outputs.map Symbol.toArg →
      ∃ node, handler.graph.recorded.get id = some node := by
    intro id hid
    obtain ⟨s, hs, heq⟩ := List.mem_map.mp hid
    exact (howned s hs).exists_recorded (hsafe s hs) hwritable.1 heq
  simp only [(hw.graph h handler hwritable.1).generate_eq_prepared handler.settings policy hlive]
  exact refuses_of_ok rfl

variable [Scalar α]

theorem refuses_applyBinary (op : Opcode) (l r : Symbol α) : Refuses (applyBinary op l r) w := by
  unfold applyBinary
  split
  · unfold binary
    split
    · apply refuses_pure
    · apply refuses_pure
    · apply refuses_pure
    · apply refuses_record
  · exact refuses_throw rfl

theorem refuses_applyUnary (op : Opcode) (x : Symbol α) : Refuses (applyUnary op x) w := by
  unfold applyUnary
  split
  · next op =>
    cases x with
    | param v => exact refuses_pure _
    | var h id => exact refuses_record (.unary op (.var h id))
  · exact refuses_throw rfl

theorem refuses_select (c : Comparison) (l r t f : Symbol α) : Refuses (select c l r t f) w := by
  unfold select
  split
  · apply refuses_pure
  · apply refuses_record

/-- An inversion on the graph of a handler. -/
theorem refuses_runSolver (hw : w.WellFormed) {handler : Handler α}
    (hhandler : w.handler? h = some handler) {residual : Symbol α} (hresidual : w.Safe residual)
    (howned : Owned w h residual) (target : NodeId) :
    Refuses (runSolver handler Solver.inversion residual.toArg target) w := by
  unfold runSolver
  split
  · apply refuses_pure
  · next e hfail =>
    refine refuses_throw (Solver.isRefusal_inversion (hw.graph h handler hhandler) ?_ hfail)
    intro k hk
    exact howned.exists_recorded hresidual hhandler hk

theorem refuses_solve (hw : w.WellFormed) (h : HandlerId) {residual : Symbol α}
    (hresidual : w.Safe residual) (target : Symbol α) :
    Refuses (solve h Solver.inversion residual target) w := by
  refine (refuses_ownNode h target).read (ensures_ownNode w h target) fun id _ => ?_
  refine (refuses_ownArg h residual).read (ensures_ownArg w h residual) ?_
  rintro _ ⟨rfl, howned⟩
  refine (refuses_writable h).read (ensures_writable w h) fun handler hwritable => ?_
  refine (refuses_runSolver hw hwritable.1 hresidual howned id).read
    (ensures_runSolver w handler _ _ _) fun p _ => refuses_of_ok rfl

theorem refuses_eliminate (hw : w.WellFormed) (h : HandlerId) (independent : Symbol α)
    {residual : Symbol α} (hresidual : w.Safe residual) :
    Refuses (eliminate h Solver.inversion independent residual) w := by
  refine (refuses_independentIndex h independent).read (ensures_independentIndex w h independent)
    fun index _ => ?_
  refine (refuses_ownNode h independent).read (ensures_ownNode w h independent) fun id _ => ?_
  refine (refuses_ownArg h residual).read (ensures_ownArg w h residual) ?_
  rintro _ ⟨rfl, howned⟩
  refine (refuses_writable h).read (ensures_writable w h) fun handler hwritable => ?_
  refine (refuses_runSolver hw hwritable.1 hresidual howned id).read
    (ensures_runSolver w handler _ _ _) fun p _ => refuses_of_ok rfl

end Session

namespace Request

variable {α : Type}

/-- A request whose pass is followed by a renderer, which may fail in its own ways. -/
def Renders : Request α → Prop
  | generateText _ _ _ _ => True
  | _ => False

instance : DecidablePred (Renders : Request α → Prop)
  | generateText _ _ _ _ => .isTrue trivial
  | create _ | configure _ _ | reset _ | drop _ | newVariable _ | binary _ _ _ | unary _ _
  | select _ _ _ _ _ | setName _ _ | solve _ _ _ | eliminate _ _ _ | generate _ _ _ _
  | release _ => .isFalse id

/-- On safe symbols every request but those that render is refused or succeeds. -/
theorem refuses_run [Scalar α] {w : Workspace α} (hw : w.WellFormed) (r : Request α)
    (hsafe : ∀ s ∈ r.symbols, w.Safe s) (hrenders : ¬ r.Renders) : Session.Refuses r.run w := by
  cases r with
  | create settings => exact Session.refuses_of_ok rfl
  | configure h change => exact (Session.refuses_configure h change).answer _
  | reset h => exact (Session.refuses_reset h).answer _
  | drop h => exact (Session.refuses_drop h).answer _
  | newVariable h => exact (Session.refuses_newVariable h).answer _
  | binary op l r => exact (Session.refuses_applyBinary op l r).answer _
  | unary op x => exact (Session.refuses_applyUnary op x).answer _
  | select c l r t f => exact (Session.refuses_select c l r t f).answer _
  | setName s name => exact (Session.refuses_setName s name).answer _
  | solve h residual target =>
    exact (Session.refuses_solve hw h (hsafe residual (by simp [symbols])) target).answer _
  | eliminate h independent residual =>
    exact (Session.refuses_eliminate hw h independent (hsafe residual (by simp [symbols]))).answer _
  | generate h policy naming outputs =>
    exact (Session.refuses_generate hw h policy naming hsafe).answer _
  | release h => exact (Session.refuses_release h).answer _
  | generateText h renderer naming outputs => exact absurd trivial hrenders

end Request

/-- In a reachable workspace a request that fails, other than in a renderer, and a look-up of a
roster position that fails are refused: the workspace is the same as before, with all its
handlers. -/
theorem refused_request_changes_nothing {α : Type} [Scalar α] {w : Workspace α}
    {issued : List (Symbol α)} (hreach : Reachable w issued) :
    (∀ r : Request α, (∀ s ∈ r.symbols, s.Known issued) → ¬ r.Renders →
      ∀ e w', r.run w = .error e w' → w' = w ∧ e.isRefusal = true) ∧
    ∀ h s e w', Session.independentIndex h s w = .error e w' → w' = w ∧ e.isRefusal = true := by
  constructor
  · intro r hknown hrenders
    exact r.refuses_run hreach.wellFormed (fun s hs => hreach.safe (hknown s hs)) hrenders
  · intro h s
    exact Session.refuses_independentIndex h s

/-- A workspace with a handler in use, one that is held, one that was reset and one that was
dropped. -/
def Request.refusalSetup : List (Request ℚ) :=
  [.create {}, .create {}, .create {}, .create {}, .newVariable 0, .newVariable 1, .newVariable 2,
    .newVariable 3, .binary (.binary .mul) (.var 0 0) (.var 0 0), .newVariable 0,
    .binary (.binary .sub) (.var 0 1) (.var 0 2), .unary (.unary (.call .sin)) (.var 0 0),
    .generate 1 .shared .standard [.var 1 0], .reset 2, .drop 3]

/-- Requests that are refused there, with their causes. -/
def Request.refusals : List (Request ℚ × Error) :=
  [(.newVariable 1, .graphInUse), (.newVariable 3, .handlerDropped),
    (.binary (.binary .add) (.var 0 0) (.var 1 0), .crossGraph),
    (.unary (.binary .add) (.var 0 0), .notUnary (.binary .add)),
    (.select .lt (.var 2 0) (.param 1) (.param 2) (.param 3), .foreignNode),
    (.setName (.param 1) "one", .parameterName),
    (.solve 0 (.var 0 4) (.var 0 0), .solve (.unsolvable (.unary (.call .sin)))),
    (.eliminate 0 (.var 0 0) (.var 0 3), .solve .multipleOccurrences),
    (.eliminate 0 (.var 0 1) (.var 0 3), .notIndependent),
    (.generate 0 .shared .standard [.var 0 3, .var 1 0], .crossGraph),
    (.generate 1 .shared .standard [.var 1 0], .graphInUse)]

/-- All of these requests are refused for these causes, and change nothing. -/
theorem refusals_change_nothing :
    ∃ (w : Workspace ℚ) (issued : List (Symbol ℚ)), Reachable w issued ∧
      ∀ p ∈ Request.refusals, ∃ w', p.1.run w = .error p.2 w' ∧ w' = w := by
  let final := Request.runAll Request.refusalSetup {} []
  have hreach : Reachable final.1 final.2 := Reachable.start.runAll _ (by decide +kernel)
  have hknown : ∀ p ∈ Request.refusals, ¬ p.1.Renders ∧ ∀ s ∈ p.1.symbols, s.Known final.2 := by
    decide +kernel
  have hcause : ∀ p ∈ Request.refusals,
      (match p.1.run final.1 with | .ok _ _ => none | .error e _ => some e) = some p.2 := by
    decide +kernel
  refine ⟨final.1, final.2, hreach, fun p hp => ?_⟩
  have hp' := hcause p hp
  cases hresult : p.1.run final.1 with
  | ok issued w' =>
    rw [hresult] at hp'
    cases hp'
  | error e w' =>
    rw [hresult, Option.some_inj] at hp'
    subst hp'
    refine ⟨w', rfl, ?_⟩
    obtain ⟨hrenders, hsymbols⟩ := hknown p hp
    exact ((refused_request_changes_nothing hreach).1 p.1 hsymbols hrenders _ w' hresult).1

end Straightline
