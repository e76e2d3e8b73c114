import Straightline.Proofs.Workspace.Reachable

/-!
# What requests do to recorded nodes

No request takes a recorded node away, unless it clears the handler, and no request changes an
expression. A request that does not alter the variables of a handler lets its graph grow. Both are
shown for one request and then for requests in turn, whether they succeed or fail.
-/

namespace Straightline

namespace Workspace

variable {α : Type} {w w' w'' : Workspace α} {h k : HandlerId} {P : Graph α → Graph α → Prop}

/-- A handler stays, and its graph changes in a given way. -/
def Changes (w : Workspace α) (h : HandlerId) (P : Graph α → Graph α → Prop)
    (w' : Workspace α) : Prop :=
  ∀ handler, w.handler? h = some handler →
    ∃ handler', w'.handler? h = some handler' ∧ P handler.graph handler'.graph

theorem Changes.of_handler? (hP : Graph.Admissible P) (hsame : w'.handler? h = w.handler? h) :
    w.Changes h P w' :=
  fun handler hhandler => ⟨handler, hsame.trans hhandler, hP.refl _⟩

theorem Changes.refl (hP : Graph.Admissible P) (w : Workspace α) : w.Changes h P w :=
  .of_handler? hP rfl

theorem Changes.trans (hP : Graph.Admissible P) (hw : w.Changes h P w')
    (hw' : w'.Changes h P w'') : w.Changes h P w'' := by
  intro handler hhandler
  obtain ⟨handler', hhandler', hfirst⟩ := hw handler hhandler
  obtain ⟨handler'', hhandler'', hsecond⟩ := hw' handler' hhandler'
  exact ⟨handler'', hhandler'', hP.trans hfirst hsecond⟩

/-- Replacing a handler changes no other one. -/
theorem Changes.put (hP : Graph.Admissible P) {handler handler' : Handler α}
    (hhandler : w.handler? k = some handler) (hgraph : k = h → P handler.graph handler'.graph) :
    w.Changes h P (w.put k handler') := by
  by_cases heq : h = k
  · subst heq
    intro found hfound
    rw [hhandler, Option.some_inj] at hfound
    subst hfound
    exact ⟨handler', by rw [handler?_put, if_pos rfl], hgraph rfl⟩
  · exact .of_handler? hP (by rw [handler?_put, if_neg heq])

end Workspace

namespace Session

variable {α β : Type} {w : Workspace α} {h k : HandlerId} {P : Graph α → Graph α → Prop}

/-- A computation changes the graph of a handler in a given way, if it succeeds and if it fails. -/
def Affects (h : HandlerId) (P : Graph α → Graph α → Prop) (w : Workspace α)
    (m : Session α β) : Prop :=
  Ensures m w (fun _ => w.Changes h P) (w.Changes h P)

theorem Affects.answer {γ : Type} {m : Session α β} (hm : Affects h P w m) (f : β → γ) :
    Affects h P w (do return f (← m)) :=
  hm.bind fun _ _ hchanges => ensures_pure hchanges

variable (hP : Graph.Admissible P)
include hP

theorem affects_create (hw : w.WellFormed) (settings : Settings) :
    Affects h P w (create settings) := by
  intro handler hhandler
  have hne : h ≠ w.next := Nat.ne_of_lt (hw.lt_next hhandler)
  refine ⟨handler, ?_, hP.refl _⟩
  exact (Workspace.handler?_put w w.next h _).trans ((if_neg hne).trans hhandler)

theorem affects_configure (k : HandlerId) (change : Settings → Settings) :
    Affects h P w (configure k change) :=
  (ensures_live w k).read (.refl hP w) fun _ hhandler =>
    ensures_modify (.put hP hhandler fun _ => hP.refl _)

theorem affects_release (k : HandlerId) : Affects h P w (release k) :=
  (ensures_live w k).read (.refl hP w) fun _ hhandler =>
    ensures_modify (.put hP hhandler fun _ => hP.refl _)

theorem affects_reset (hne : k ≠ h) : Affects h P w (reset k) :=
  (ensures_writable w k).read (.refl hP w) fun _ hwritable =>
    ensures_putGraph (.put hP hwritable.1 fun heq => absurd heq hne)

theorem affects_drop (hne : k ≠ h) : Affects h P w (drop k) := by
  refine (ensures_writable w k).read (.refl hP w) fun handler _ => ensures_modify ?_
  refine .of_handler? hP ?_
  exact (Table.get_set ..).trans (if_neg (Ne.symm hne))

theorem affects_newVariable (hw : w.WellFormed)
    (hvariables : k = h → ∀ g g', g.Appends g' → P g g') :
    Affects h P w (newVariable k) := by
  refine (ensures_writable w k).read (.refl hP w) fun handler hwritable => ?_
  refine Workspace.Changes.put hP hwritable.1 fun heq => hvariables heq _ _ ?_
  exact (hw.graph k handler hwritable.1).appends_addIndependent

theorem affects_setName (s : Symbol α) (name : String)
    (hvariables : ∀ id, s = .var h id → ∀ g g', g.Appends g' → P g g') :
    Affects h P w (setName s name) := by
  cases s with
  | param v => exact ensures_throw (.refl hP w)
  | var k id =>
    refine (ensures_writable w k).read (.refl hP w) fun handler hwritable => ?_
    split
    · exact ensures_throw_bind (.refl hP w)
    · refine ensures_putGraph (.put hP hwritable.1 ?_)
      rintro rfl
      exact hvariables id rfl _ _ (Graph.appends_setName _ id name)

theorem affects_record (hw : w.WellFormed) (op : Operation (Symbol α)) :
    Affects h P w (record op) := by
  unfold record
  cases commonHandler none op.operands with
  | error e => exact ensures_throw_bind (.refl hP w)
  | ok k =>
    refine (ensures_writable w k).read (.refl hP w) fun handler hwritable => ?_
    simp only
    split
    · exact ensures_throw_bind (.refl hP w)
    · refine Workspace.Changes.put hP hwritable.1 fun _ => hP.of_grows ?_
      exact (hw.graph k handler hwritable.1).grows_record _

theorem affects_generate (k : HandlerId) (policy : Policy α) (naming : Naming)
    (outputs : List (Symbol α)) : Affects h P w (generate k policy naming outputs) := by
  refine (ensures_ownArgs w k outputs).read (.refl hP w) ?_
  rintro args _
  refine (ensures_writable w k).read (.refl hP w) fun handler hwritable => ?_
  have hgrows := Graph.grows_generate handler.graph handler.settings policy args
  simp only
  split
  · exact Workspace.Changes.put hP hwritable.1 fun _ => hP.of_grows hgrows
  · exact Workspace.Changes.put hP hwritable.1 fun _ => hP.of_grows hgrows

theorem affects_generateText (k : HandlerId) (renderer : Renderer α) (naming : Naming)
    (outputs : List (Symbol α)) : Affects h P w (generateText k renderer naming outputs) := by
  refine (affects_generate hP k renderer.policy naming outputs).bind fun bundle w₁ hfirst => ?_
  have hrelease : Ensures (release k) w₁ (fun _ => w.Changes h P) (w.Changes h P) :=
    (affects_release hP k).imp (fun _ _ => hfirst.trans hP) fun _ => hfirst.trans hP
  refine hrelease.bind fun _ w₂ hsecond => ?_
  split
  · exact ensures_pure hsecond
  · exact ensures_throw hsecond

variable [Scalar α]

theorem affects_applyBinary (hw : w.WellFormed) (op : Opcode) (l r : Symbol α) :
    Affects h P w (applyBinary op l r) := by
  unfold applyBinary
  split
  · unfold binary
    split
    · exact ensures_pure (.refl hP w)
    · exact ensures_pure (.refl hP w)
    · exact ensures_pure (.refl hP w)
    · exact affects_record hP hw _
  · exact ensures_throw (.refl hP w)

theorem affects_applyUnary (hw : w.WellFormed) (op : Opcode) (x : Symbol α) :
    Affects h P w (applyUnary op x) := by
  unfold applyUnary
  split
  · next op =>
    cases x with
    | param v => exact ensures_pure (.refl hP w)
    | var k id => exact affects_record hP hw (.unary op (.var k id))
  · exact ensures_throw (.refl hP w)

theorem affects_select (hw : w.WellFormed) (c : Comparison) (l r t f : Symbol α) :
    Affects h P w (select c l r t f) := by
  unfold select
  split
  · exact ensures_pure (.refl hP w)
  · exact affects_record hP hw _

theorem affects_solve (hw : w.WellFormed) (k : HandlerId) {residual target : Symbol α}
    (hresidual : w.Safe residual) (htarget : w.Safe target) :
    Affects h P w (solve k Solver.inversion residual target) := by
  refine (ensures_solve hw k hresidual htarget).imp ?_ (by rintro _ rfl; exact .refl hP _)
  rintro s _ ⟨id, handler, solved, g, hhandler, hextends, _, _, rfl⟩
  exact .put hP hhandler fun _ => hP.of_grows hextends.toGrows

theorem affects_eliminate (hw : w.WellFormed) {independent residual : Symbol α}
    (hindependent : w.Safe independent) (hresidual : w.Safe residual)
    (hvariables : k = h → ∀ g g', g.Preserves g' → P g g') :
    Affects h P w (eliminate k Solver.inversion independent residual) := by
  refine (ensures_eliminate hw k hindependent hresidual).imp ?_
    (by rintro _ rfl; exact .refl hP _)
  rintro _ _ ⟨target, handler, index, solved, g, g', _, hhandler, _, _, heliminates, rfl⟩
  refine .put hP hhandler fun heq => hvariables heq _ _ ?_
  exact heliminates.preserves (hw.graph k handler hhandler)

end Session

namespace Request

variable {α : Type} {h : HandlerId}

/-- A request that releases every node of a handler. -/
def Clears (h : HandlerId) : Request α → Prop
  | reset k | drop k => k = h
  | _ => False

/-- A request that creates, names or eliminates a variable of a handler. -/
def Alters (h : HandlerId) : Request α → Prop
  | newVariable k | eliminate k _ _ => k = h
  | setName (.var k _) _ => k = h
  | _ => False

/-- A request that eliminates a variable of a handler. -/
def Eliminates (h : HandlerId) : Request α → Prop
  | eliminate k _ _ => k = h
  | _ => False

variable [Scalar α] {w : Workspace α} {issued : List (Symbol α)} {P : Graph α → Graph α → Prop}

/-- What one request does to the graph of a handler that it does not clear. -/
theorem affects_run (hP : Graph.Admissible P) (hw : w.WellFormed) (r : Request α)
    (hsafe : ∀ s ∈ r.symbols, w.Safe s) (hclears : ¬ r.Clears h)
    (halters : r.Alters h → ∀ g g', g.Preserves g' →
      (¬ r.Eliminates h → g.roster <+: g'.roster) → P g g') : Session.Affects h P w r.run := by
  cases r with
  | create settings => exact (Session.affects_create hP hw settings).answer _
  | configure k change => exact (Session.affects_configure hP k change).answer _
  | reset k => exact (Session.affects_reset hP hclears).answer _
  | drop k => exact (Session.affects_drop hP hclears).answer _
  | newVariable k =>
    refine (Session.affects_newVariable hP hw fun heq g g' happends => ?_).answer _
    exact halters heq g g' happends.preserves fun _ => happends.roster
  | binary op l r => exact (Session.affects_applyBinary hP hw op l r).answer _
  | unary op x => exact (Session.affects_applyUnary hP hw op x).answer _
  | select c l r t f => exact (Session.affects_select hP hw c l r t f).answer _
  | setName s name =>
    refine (Session.affects_setName hP s name ?_).answer _
    rintro id rfl g g' happends
    exact halters rfl g g' happends.preserves fun _ => happends.roster
  | solve k residual target =>
    exact (Session.affects_solve hP hw k (hsafe residual (by simp [symbols]))
      (hsafe target (by simp [symbols]))).answer _
  | eliminate k independent residual =>
    refine (Session.affects_eliminate hP hw (hsafe independent (by simp [symbols]))
      (hsafe residual (by simp [symbols])) fun heq g g' hpreserves => ?_).answer _
    exact halters heq g g' hpreserves fun hkeeps => absurd heq hkeeps
  | generate k policy naming outputs =>
    exact (Session.affects_generate hP k policy naming outputs).answer _
  | release k => exact (Session.affects_release hP k).answer _
  | generateText k renderer naming outputs =>
    exact (Session.affects_generateText hP k renderer naming outputs).answer _

theorem changes_after (hP : Graph.Admissible P) (hw : w.WellFormed) (r : Request α)
    (hsafe : ∀ s ∈ r.symbols, w.Safe s) (hclears : ¬ r.Clears h)
    (halters : r.Alters h → ∀ g g', g.Preserves g' →
      (¬ r.Eliminates h → g.roster <+: g'.roster) → P g g') : w.Changes h P (r.after w).1 := by
  have haffects := affects_run hP hw r hsafe hclears halters
  unfold Session.Affects Session.Ensures at haffects
  unfold after
  cases hresult : r.run w with
  | ok issued w' => simpa only [hresult] using haffects
  | error e w' => simpa only [hresult] using haffects

/-- What requests in turn do to the graph of a handler that they do not clear. -/
theorem changes_runAll (hP : Graph.Admissible P) (hreach : Reachable w issued)
    {rs : List (Request α)} (hallowed : Allowed rs w issued) (hclears : ∀ r ∈ rs, ¬ r.Clears h)
    (halters : ∀ r ∈ rs, r.Alters h → ∀ g g', g.Preserves g' →
      (¬ r.Eliminates h → g.roster <+: g'.roster) → P g g') :
    w.Changes h P (runAll rs w issued).1 := by
  induction rs generalizing w issued with
  | nil => exact .refl hP w
  | cons r rs ih =>
    have hstep : w.Changes h P (r.after w).1 :=
      changes_after hP hreach.wellFormed r (fun s hs => hreach.safe (hallowed.1 s hs))
        (hclears r List.mem_cons_self) (halters r List.mem_cons_self)
    exact hstep.trans hP <| ih (hreach.request r hallowed.1) hallowed.2
      (fun r hr => hclears r (List.mem_cons_of_mem _ hr))
      fun r hr => halters r (List.mem_cons_of_mem _ hr)

/-- Requests in turn that neither clear a handler nor eliminate a variable of it leave its variables
at their positions in the roster. -/
theorem appends_runAll (hreach : Reachable w issued) {rs : List (Request α)}
    (hallowed : Allowed rs w issued) (hkeeps : ∀ r ∈ rs, ¬ r.Clears h ∧ ¬ r.Eliminates h) :
    w.Changes h Graph.Appends (runAll rs w issued).1 :=
  changes_runAll Graph.admissible_appends hreach hallowed (fun r hr => (hkeeps r hr).1)
    fun r hr _ _ _ hpreserves hroster => ⟨hpreserves, hroster (hkeeps r hr).2⟩

/-- Requests in turn let the workspace evolve. -/
theorem evolves_runAll (hreach : Reachable w issued) {rs : List (Request α)}
    (hallowed : Allowed rs w issued) : w.Evolves (runAll rs w issued).1 := by
  induction rs generalizing w issued with
  | nil => exact .refl hreach.wellFormed
  | cons r rs ih =>
    have hstep := (r.evolves_after hreach.wellFormed fun s hs => hreach.safe (hallowed.1 s hs)).1
    exact hstep.trans (ih (hreach.request r hallowed.1) hallowed.2) hreach.wellFormed

end Request

end Straightline
