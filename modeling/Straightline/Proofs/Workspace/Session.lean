import Straightline.Proofs.Solver.Elimination
import Straightline.Proofs.Workspace.Evolution
import Straightline.Workspace.Generation
import Straightline.Workspace.Recording

/-!
# What requests do

The effect of a computation of a session is stated for success and for failure alike, since what
was done before a failure is kept. On safe symbols every request lets the workspace evolve, and the
symbols that it answers with are safe.
-/

namespace Straightline

namespace Session

variable {α β γ : Type} {w : Workspace α} {h : HandlerId}

/-- What holds after a computation, if it succeeds and if it fails. -/
def Ensures (m : Session α β) (w : Workspace α) (post : β → Workspace α → Prop)
    (fail : Workspace α → Prop) : Prop :=
  match m w with
  | .ok b w' => post b w'
  | .error _ w' => fail w'

variable {m : Session α β} {f : β → Session α γ} {post : β → Workspace α → Prop}
  {goal : γ → Workspace α → Prop} {fail : Workspace α → Prop}

theorem ensures_pure {b : β} (hpost : post b w) : Ensures (pure b) w post fail := hpost

theorem ensures_get {post : Workspace α → Workspace α → Prop} (hpost : post w w) :
    Ensures get w post fail := hpost

theorem ensures_throw {e : Error} (hfail : fail w) : Ensures (throw e) w post fail := hfail

/-- Nothing follows a failure. -/
theorem ensures_throw_bind {e : Error} (hfail : fail w) :
    Ensures ((throw e : Session α β) >>= f) w goal fail := hfail

/-- Computations in a row. -/
theorem Ensures.bind (hm : Ensures m w post fail)
    (hf : ∀ b w', post b w' → Ensures (f b) w' goal fail) : Ensures (m >>= f) w goal fail := by
  have hbind : (m >>= f) w = match m w with
      | .ok b w' => f b w'
      | .error e w' => .error e w' := by
    change EStateM.bind m f w = _
    unfold EStateM.bind
    cases m w <;> rfl
  unfold Ensures at hm ⊢
  rw [hbind]
  cases hresult : m w with
  | ok b w' =>
    rw [hresult] at hm
    exact hf b w' hm
  | error e w' =>
    rw [hresult] at hm
    exact hm

theorem Ensures.imp {post' : β → Workspace α → Prop} {fail' : Workspace α → Prop}
    (hm : Ensures m w post fail) (hpost : ∀ b w', post b w' → post' b w')
    (hfail : ∀ w', fail w' → fail' w') : Ensures m w post' fail' := by
  unfold Ensures at hm ⊢
  cases hresult : m w with
  | ok b w' =>
    rw [hresult] at hm
    exact hpost b w' hm
  | error e w' =>
    rw [hresult] at hm
    exact hfail w' hm

/-- A computation in a row with one that leaves the workspace as it is. -/
theorem Ensures.read {P : β → Prop} (hm : Ensures m w (fun b w' => w' = w ∧ P b) (· = w))
    (hfail : fail w) (hf : ∀ b, P b → Ensures (f b) w goal fail) :
    Ensures (m >>= f) w goal fail := by
  have hkept : Ensures m w (fun b w' => w' = w ∧ P b) fail :=
    hm.imp (fun _ _ hb => hb) fun _ hw => hw ▸ hfail
  refine hkept.bind ?_
  rintro b w' ⟨rfl, hb⟩
  exact hf b hb

theorem ensures_live (w : Workspace α) (h : HandlerId) :
    Ensures (live h) w (fun handler w' => w' = w ∧ w.handler? h = some handler) (· = w) := by
  have hget : Ensures get w (fun b w' => w' = w ∧ b = w) (· = w) := ensures_get ⟨rfl, rfl⟩
  refine hget.read rfl ?_
  rintro _ rfl
  split
  · next handler hfound => exact ensures_pure ⟨rfl, hfound⟩
  · exact ensures_throw rfl

theorem ensures_writable (w : Workspace α) (h : HandlerId) :
    Ensures (writable h) w
      (fun handler w' => w' = w ∧ w.handler? h = some handler ∧ handler.held = false) (· = w) := by
  refine (ensures_live w h).read rfl fun handler hhandler => ?_
  by_cases hheld : handler.held = true
  · rw [if_pos hheld]
    exact ensures_throw rfl
  · rw [if_neg hheld]
    exact ensures_pure ⟨rfl, hhandler, by simpa using hheld⟩

/-- A symbol that belongs to a handler: a parameter, or a live node of its graph. -/
def Owned (w : Workspace α) (h : HandlerId) : Symbol α → Prop
  | .param _ => True
  | .var k id => k = h ∧ (w.node? (.var k id)).isSome = true

instance (w : Workspace α) (h : HandlerId) : DecidablePred (Owned w h)
  | .param _ => .isTrue trivial
  | .var k id => inferInstanceAs (Decidable (k = h ∧ (w.node? (.var k id)).isSome = true))

theorem owned_var {k : HandlerId} {id : NodeId} : Owned w h (.var k id) ↔
    k = h ∧ ∃ handler, w.handler? h = some handler ∧ handler.graph.contains id = true := by
  refine and_congr_right ?_
  rintro rfl
  rw [Workspace.node?]
  cases w.handler? k with
  | none => simp
  | some handler => simp [Graph.contains]

theorem ensures_ownNode (w : Workspace α) (h : HandlerId) (s : Symbol α) :
    Ensures (ownNode h s) w (fun id w' => w' = w ∧ s = .var h id ∧ Owned w h s) (· = w) := by
  cases s with
  | param v => exact ensures_throw rfl
  | var owner id =>
    simp only [ownNode]
    split
    · exact ensures_throw_bind rfl
    · next howner =>
      obtain rfl : owner = h := by simpa using howner
      refine (ensures_live w owner).read rfl fun handler hhandler => ?_
      split
      · next hlive => exact ensures_pure ⟨rfl, rfl, owned_var.mpr ⟨rfl, handler, hhandler, hlive⟩⟩
      · exact ensures_throw rfl

theorem ensures_ownArg (w : Workspace α) (h : HandlerId) (s : Symbol α) :
    Ensures (ownArg h s) w (fun x w' => w' = w ∧ x = s.toArg ∧ Owned w h s) (· = w) := by
  cases s with
  | param v => exact ensures_pure ⟨rfl, rfl, trivial⟩
  | var owner id =>
    refine (ensures_ownNode w h (.var owner id)).read rfl ?_
    rintro k ⟨heq, howned⟩
    obtain ⟨_, rfl⟩ : owner = h ∧ id = k := by simpa using heq
    exact ensures_pure ⟨rfl, rfl, howned⟩

theorem ensures_ownArgs (w : Workspace α) (h : HandlerId) (symbols : List (Symbol α)) :
    Ensures (symbols.mapM (ownArg h)) w
      (fun xs w' => w' = w ∧ xs = symbols.map Symbol.toArg ∧ ∀ s ∈ symbols, Owned w h s)
      (· = w) := by
  induction symbols with
  | nil => exact ensures_pure ⟨rfl, rfl, by simp⟩
  | cons s rest ih =>
    rw [List.mapM_cons]
    refine (ensures_ownArg w h s).read rfl ?_
    rintro x ⟨rfl, hs⟩
    refine ih.read rfl ?_
    rintro xs ⟨rfl, hrest⟩
    refine ensures_pure ⟨rfl, rfl, ?_⟩
    intro t ht
    rcases List.mem_cons.mp ht with rfl | ht
    · exact hs
    · exact hrest t ht

/-- A safe symbol that belongs to a handler contributes a recorded node. -/
theorem Owned.exists_recorded {s : Symbol α} (howned : Owned w h s) (hsafe : w.Safe s)
    {handler : Handler α} (hhandler : w.handler? h = some handler) {id : NodeId}
    (hid : s.toArg = .node id) : ∃ node, handler.graph.recorded.get id = some node := by
  cases s with
  | param v => simp [Symbol.toArg] at hid
  | var k j =>
    obtain rfl : j = id := by simpa [Symbol.toArg] using hid
    obtain ⟨rfl, found, hfound, hlive⟩ := owned_var.mp howned
    rw [hhandler, Option.some_inj] at hfound
    subst hfound
    exact hsafe.exists_recorded hhandler hlive

/-- A computation that follows one that succeeds. -/
theorem bind_of_ok {b : β} {w' : Workspace α} (hm : m w = .ok b w') : (m >>= f) w = f b w' := by
  change EStateM.bind m f w = _
  unfold EStateM.bind
  rw [hm]

/-- Nothing follows a computation that fails. -/
theorem bind_of_error {e : Error} {w' : Workspace α} (hm : m w = .error e w') :
    (m >>= f) w = .error e w' := by
  change EStateM.bind m f w = _
  unfold EStateM.bind
  rw [hm]

theorem live_of_handler {handler : Handler α} (hhandler : w.handler? h = some handler) :
    live h w = .ok handler w := by
  have hget : (get : Session α (Workspace α)) w = .ok w w := rfl
  unfold live
  rw [bind_of_ok hget, hhandler]
  rfl

theorem writable_of_handler {handler : Handler α} (hhandler : w.handler? h = some handler)
    (hfree : handler.held = false) : writable h w = .ok handler w := by
  unfold writable
  rw [bind_of_ok (live_of_handler hhandler), hfree]
  rfl

/-- A symbol that belongs to a handler is accepted. -/
theorem Owned.ownArg_eq {s : Symbol α} (howned : Owned w h s) : ownArg h s w = .ok s.toArg w := by
  cases s with
  | param v => rfl
  | var owner id =>
    obtain ⟨rfl, handler, hhandler, hlive⟩ := owned_var.mp howned
    have hnode : ownNode owner (.var owner id) w = .ok id w := by
      simp only [ownNode, ne_eq, not_true_eq_false, if_false]
      rw [bind_of_ok (live_of_handler hhandler), if_pos hlive]
      rfl
    exact bind_of_ok hnode

theorem ownArgs_eq {symbols : List (Symbol α)} (howned : ∀ s ∈ symbols, Owned w h s) :
    symbols.mapM (ownArg h) w = .ok (symbols.map Symbol.toArg) w := by
  induction symbols with
  | nil => rfl
  | cons s rest ih =>
    rw [List.mapM_cons, bind_of_ok (howned s List.mem_cons_self).ownArg_eq,
      bind_of_ok (ih fun t ht => howned t (List.mem_cons_of_mem _ ht))]
    rfl

/-- A pass over symbols that belong to a handler answers with a bundle if the pass over its graph
succeeds. -/
theorem generate_of_ok {handler : Handler α} (hhandler : w.handler? h = some handler)
    (hfree : handler.held = false) (policy : Policy α) (naming : Naming)
    {outputs : List (Symbol α)} (howned : ∀ s ∈ outputs, Owned w h s) {results : List (Arg α)}
    {g : Graph α}
    (hgenerate : handler.graph.generate handler.settings policy (outputs.map Symbol.toArg) =
      (.ok results, g)) :
    generate h policy naming outputs w =
      .ok { graph := g, outputs := results, naming := naming }
        (w.put h { handler with graph := g, held := true }) := by
  unfold generate
  rw [bind_of_ok (ownArgs_eq howned), bind_of_ok (writable_of_handler hhandler hfree)]
  simp only [hgenerate]
  rfl

/-- A pass that succeeds answers with the text of its bundle. -/
theorem generateText_of_ok {handler : Handler α} (hhandler : w.handler? h = some handler)
    (hfree : handler.held = false) (renderer : Renderer α) (naming : Naming)
    {outputs : List (Symbol α)} (howned : ∀ s ∈ outputs, Owned w h s) {results : List (Arg α)}
    {g : Graph α}
    (hgenerate : handler.graph.generate handler.settings renderer.policy
      (outputs.map Symbol.toArg) = (.ok results, g)) {text : String}
    (hrender : renderer.render { graph := g, outputs := results, naming := naming } = .ok text) :
    ∃ w', generateText h renderer naming outputs w = .ok text w' := by
  let holder : Handler α := { handler with graph := g, held := true }
  have hput : (w.put h holder).handler? h = some holder := by
    rw [Workspace.handler?_put, if_pos rfl]
  have hrelease : release h (w.put h holder) =
      .ok () ((w.put h holder).put h { holder with held := false }) :=
    bind_of_ok (live_of_handler hput)
  refine ⟨(w.put h holder).put h { holder with held := false }, ?_⟩
  unfold generateText
  rw [bind_of_ok (generate_of_ok hhandler hfree renderer.policy naming howned hgenerate),
    bind_of_ok hrelease, hrender]
  rfl

theorem configure_of_handler {handler : Handler α} (hhandler : w.handler? h = some handler)
    (change : Settings → Settings) :
    configure h change w = .ok () (w.put h { handler with settings := change handler.settings }) :=
  bind_of_ok (live_of_handler hhandler)

/-- Symbols belong to a handler whatever its settings are. -/
theorem Owned.configure {s : Symbol α} (howned : Owned w h s) {handler : Handler α}
    (hhandler : w.handler? h = some handler) (settings : Settings) :
    Owned (w.put h { handler with settings := settings }) h s := by
  cases s with
  | param v => trivial
  | var owner id =>
    obtain ⟨rfl, found, hfound, hlive⟩ := owned_var.mp howned
    rw [hhandler, Option.some_inj] at hfound
    subst hfound
    refine owned_var.mpr ⟨rfl, { handler with settings := settings }, ?_, hlive⟩
    rw [Workspace.handler?_put, if_pos rfl]

/-- A request lets the workspace evolve, and answers with safe symbols. -/
def Serves (w : Workspace α) (symbols : β → List (Symbol α)) (m : Session α β) : Prop :=
  Ensures m w (fun b w' => w.Evolves w' ∧ ∀ s ∈ symbols b, w'.Safe s) w.Evolves

/-- Answering with the symbols themselves. -/
theorem Serves.answer {symbols : β → List (Symbol α)} (hm : Serves w symbols m) :
    Serves w (fun issued => issued) (do return symbols (← m)) :=
  hm.bind fun _ _ hb => ensures_pure hb

theorem ensures_modify {f : Workspace α → Workspace α} {goal : Unit → Workspace α → Prop}
    (hgoal : goal () (f w)) : Ensures (modify f) w goal fail := hgoal

theorem ensures_putGraph {handler : Handler α} {g : Graph α} {goal : Unit → Workspace α → Prop}
    (hgoal : goal () (w.put h { handler with graph := g })) :
    Ensures (putGraph h handler g) w goal fail := hgoal

theorem serves_create (hw : w.WellFormed) (settings : Settings) :
    Serves w (fun _ => []) (create settings) :=
  ⟨hw.evolves_create settings, by simp⟩

theorem serves_configure (hw : w.WellFormed) (h : HandlerId) (change : Settings → Settings) :
    Serves w (fun _ => []) (configure h change) := by
  refine (ensures_live w h).read (.refl hw) fun handler hhandler => ensures_modify ⟨?_, by simp⟩
  exact hw.evolves_put hhandler (.refl (hw.graph h handler hhandler))

theorem serves_release (hw : w.WellFormed) (h : HandlerId) :
    Serves w (fun _ => []) (release h) := by
  refine (ensures_live w h).read (.refl hw) fun handler hhandler => ensures_modify ⟨?_, by simp⟩
  exact hw.evolves_put hhandler (.refl (hw.graph h handler hhandler))

theorem serves_reset (hw : w.WellFormed) (h : HandlerId) : Serves w (fun _ => []) (reset h) := by
  refine (ensures_writable w h).read (.refl hw) fun handler hwritable => ensures_putGraph ?_
  exact ⟨hw.evolves_put hwritable.1 (Graph.evolves_reset _), by simp⟩

theorem serves_drop (hw : w.WellFormed) (h : HandlerId) : Serves w (fun _ => []) (drop h) := by
  refine (ensures_writable w h).read (.refl hw) fun handler _ => ensures_modify ?_
  exact ⟨hw.evolves_drop h, by simp⟩

theorem serves_setName (hw : w.WellFormed) (s : Symbol α) (name : String) :
    Serves w (fun _ => []) (setName s name) := by
  cases s with
  | param v => exact ensures_throw (.refl hw)
  | var h id =>
    refine (ensures_writable w h).read (.refl hw) fun handler hwritable => ?_
    split
    · exact ensures_throw_bind (.refl hw)
    · refine ensures_putGraph ⟨?_, by simp⟩
      exact hw.evolves_put hwritable.1 ((hw.graph h handler hwritable.1).evolves_setName id name)

/-- Recording a node lets the workspace evolve, and the symbol of the node is safe. -/
theorem evolves_recorded (hw : w.WellFormed) {handler : Handler α}
    (hhandler : w.handler? h = some handler) {g : Graph α} (hgraph : handler.graph.Evolves g)
    {id : NodeId} {node : Node α} (hnode : g.recorded.get id = some node) :
    w.Evolves (w.put h { handler with graph := g }) ∧
      (w.put h { handler with graph := g }).Safe (.var h id) := by
  have hevolves : w.Evolves (w.put h { handler with graph := g }) := hw.evolves_put hhandler hgraph
  have hget : (w.put h { handler with graph := g }).handler? h =
      some { handler with graph := g } := by
    rw [Workspace.handler?_put, if_pos rfl]
  exact ⟨hevolves, hevolves.wellFormed.safe_of_recorded hget hnode⟩

theorem serves_newVariable (hw : w.WellFormed) (h : HandlerId) :
    Serves w (fun s => [s]) (newVariable h) := by
  refine (ensures_writable w h).read (.refl hw) fun handler hwritable => ?_
  obtain ⟨hevolves, hsafe⟩ := evolves_recorded hw hwritable.1
    (hw.graph h handler hwritable.1).evolves_addIndependent (Table.get_set_self ..)
  exact ⟨hevolves, fun s hs => List.mem_singleton.mp hs ▸ hsafe⟩

/-- The variables among the operands belong to the common handler, and there is one. -/
theorem commonHandler_eq_ok {found : Option HandlerId} {symbols : List (Symbol α)}
    (hcommon : commonHandler found symbols = .ok h) :
    (∀ k id, .var k id ∈ symbols → k = h) ∧ (∀ k, found = some k → k = h) ∧
      (found = none → ∃ id, .var h id ∈ symbols) := by
  have hcons : ∀ {id : NodeId} {rest : List (Symbol α)}, (∀ k j, .var k j ∈ rest → k = h) →
      ∀ k j, .var k j ∈ Symbol.var h id :: rest → k = h := by
    intro id rest hrest k j hmem
    rcases List.mem_cons.mp hmem with heq | hmem
    · simp only [Symbol.var.injEq] at heq
      exact heq.1
    · exact hrest k j hmem
  induction symbols generalizing found with
  | nil =>
    cases found with
    | none => simp [commonHandler] at hcommon
    | some k =>
      obtain rfl : k = h := by simpa [commonHandler] using hcommon
      exact ⟨by simp, by simp, by simp⟩
  | cons s rest ih =>
    cases s with
    | param v =>
      have hrest : commonHandler found rest = .ok h := by simpa [commonHandler] using hcommon
      obtain ⟨hvars, hfound, hexists⟩ := ih hrest
      refine ⟨by simpa using hvars, hfound, fun hnone => ?_⟩
      obtain ⟨id, hid⟩ := hexists hnone
      exact ⟨id, List.mem_cons_of_mem _ hid⟩
    | var k id =>
      cases found with
      | none =>
        have hrest : commonHandler (some k) rest = .ok h := hcommon
        obtain ⟨hvars, hfound, _⟩ := ih hrest
        obtain rfl := hfound k rfl
        exact ⟨hcons hvars, by simp, fun _ => ⟨id, List.mem_cons_self⟩⟩
      | some j =>
        simp only [commonHandler] at hcommon
        split at hcommon
        · next heq =>
          subst heq
          obtain ⟨hvars, hfound, _⟩ := ih hcommon
          obtain rfl := hfound j rfl
          exact ⟨hcons hvars, hfound, by simp⟩
        · cases hcommon

/-- Recording an operation on safe symbols. -/
theorem serves_record (hw : w.WellFormed) {op : Operation (Symbol α)}
    (hsafe : ∀ s ∈ op.operands, w.Safe s) (hchain : op.opcode.isChain = false)
    (hnot : op.opcode ≠ .independent) : Serves w (fun s => [s]) (record op) := by
  unfold record
  cases hcommon : commonHandler none op.operands with
  | error e => exact ensures_throw_bind (.refl hw)
  | ok h =>
    obtain ⟨hvars, _, hexists⟩ := commonHandler_eq_ok hcommon
    refine (ensures_writable w h).read (.refl hw) fun handler hwritable => ?_
    have hgraph := hw.graph h handler hwritable.1
    simp only
    split
    · exact ensures_throw_bind (.refl hw)
    · next hlive =>
      have hoperand : ∀ k ∈ (op.map Symbol.toArg).references, .var h k ∈ op.operands := by
        intro k hk
        rw [Operation.mem_references, Operation.operands_map, List.mem_map] at hk
        obtain ⟨s, hs, heq⟩ := hk
        cases s with
        | param v => simp [Symbol.toArg] at heq
        | var owner id =>
          obtain rfl : id = k := by simpa [Symbol.toArg] using heq
          exact hvars owner id hs ▸ hs
      have hrefs : ∀ k ∈ (op.map Symbol.toArg).references,
          ∃ m, handler.graph.recorded.get k = some m := by
        intro k hk
        refine (hsafe _ (hoperand k hk)).exists_recorded hwritable.1 ?_
        by_contra hdead
        exact hlive (List.any_eq_true.mpr ⟨k, hk, by simpa using hdead⟩)
      have hground : (op.map Symbol.toArg).references ≠ [] := by
        obtain ⟨id, hid⟩ := hexists rfl
        refine List.ne_nil_of_mem (a := id) (Operation.mem_references.mpr ?_)
        rw [Operation.operands_map]
        exact List.mem_map_of_mem (f := Symbol.toArg) hid
      have hevolves := hgraph.evolves_record hrefs (by rwa [Operation.opcode_map])
        (by rwa [Operation.opcode_map]) fun _ => hground
      obtain ⟨hput, hnew⟩ := evolves_recorded hw hwritable.1 hevolves (Table.get_set_self ..)
      exact ⟨hput, fun s hs => List.mem_singleton.mp hs ▸ hnew⟩

theorem ensures_independentIndex (w : Workspace α) (h : HandlerId) (s : Symbol α) :
    Ensures (independentIndex h s) w
      (fun index w' => w' = w ∧ ∃ id handler, s = .var h id ∧ w.handler? h = some handler ∧
        handler.graph.rosterIndex? id = some index) (· = w) := by
  refine (ensures_ownNode w h s).read rfl ?_
  rintro id ⟨rfl, _⟩
  refine (ensures_live w h).read rfl fun handler hhandler => ?_
  split
  · next index hindex => exact ensures_pure ⟨rfl, id, handler, rfl, hhandler, hindex⟩
  · exact ensures_throw rfl

theorem ensures_runSolver (w : Workspace α) (handler : Handler α) (solver : Solver α)
    (residual : Arg α) (target : NodeId) :
    Ensures (runSolver handler solver residual target) w
      (fun p w' => w' = w ∧ solver.solve handler.graph residual target = .ok p) (· = w) := by
  unfold runSolver
  split
  · next p hp => exact ensures_pure ⟨rfl, hp⟩
  · exact ensures_throw rfl

/-- A pass over safe symbols. -/
theorem serves_generate (hw : w.WellFormed) (h : HandlerId) (policy : Policy α) (naming : Naming)
    {outputs : List (Symbol α)} (hsafe : ∀ s ∈ outputs, w.Safe s) :
    Serves w (fun _ => []) (generate h policy naming outputs) := by
  refine (ensures_ownArgs w h outputs).read (.refl hw) ?_
  rintro _ ⟨rfl, howned⟩
  refine (ensures_writable w h).read (.refl hw) fun handler hwritable => ?_
  have hlive : ∀ id, Arg.node id ∈ outputs.map Symbol.toArg →
      ∃ node, handler.graph.recorded.get id = some node := by
    intro id hid
    obtain ⟨s, hs, heq⟩ := List.mem_map.mp hid
    exact (howned s hs).exists_recorded (hsafe s hs) hwritable.1 heq
  obtain ⟨result, g, hresult, hevolves⟩ :=
    (hw.graph h handler hwritable.1).evolves_generate handler.settings policy hlive
  simp only [hresult]
  exact ⟨hw.evolves_put hwritable.1 hevolves, by simp⟩

/-- A pass with its text, after which the graph is not held. -/
theorem serves_generateText (hw : w.WellFormed) (h : HandlerId) (renderer : Renderer α)
    (naming : Naming) {outputs : List (Symbol α)} (hsafe : ∀ s ∈ outputs, w.Safe s) :
    Serves w (fun _ => []) (generateText h renderer naming outputs) := by
  refine (serves_generate hw h renderer.policy naming hsafe).bind ?_
  rintro bundle w₁ ⟨hfirst, _⟩
  have hrelease : Ensures (release h) w₁ (fun _ => w.Evolves) w.Evolves :=
    (serves_release hfirst.wellFormed h).imp (fun _ _ hsecond => hfirst.trans hsecond.1 hw)
      fun _ hsecond => hfirst.trans hsecond hw
  refine hrelease.bind fun _ w₂ hsecond => ?_
  split
  · exact ensures_pure ⟨hsecond, by simp⟩
  · exact ensures_throw hsecond

variable [Scalar α]

theorem serves_binary (hw : w.WellFormed) (op : Binary) {l r : Symbol α} (hl : w.Safe l)
    (hr : w.Safe r) : Serves w (fun s => [s]) (binary op l r) := by
  unfold binary
  split
  · exact ensures_pure ⟨.refl hw, by simp⟩
  · exact ensures_pure ⟨.refl hw, by simpa using hl⟩
  · exact ensures_pure ⟨.refl hw, by simpa using hr⟩
  · refine serves_record hw ?_ rfl (by simp [Operation.opcode])
    intro s hs
    obtain rfl | rfl : s = l ∨ s = r := by simpa [Operation.operands] using hs
    · exact hl
    · exact hr

theorem serves_unary (hw : w.WellFormed) (op : Unary) {x : Symbol α} (hx : w.Safe x) :
    Serves w (fun s => [s]) (unary op x) := by
  cases x with
  | param v => exact ensures_pure ⟨.refl hw, by simp⟩
  | var h id =>
    change Serves w _ (record (.unary op (.var h id)))
    refine serves_record hw ?_ rfl (by simp [Operation.opcode])
    intro s hs
    obtain rfl : s = .var h id := by simpa [Operation.operands] using hs
    exact hx

theorem serves_applyBinary (hw : w.WellFormed) (op : Opcode) {l r : Symbol α} (hl : w.Safe l)
    (hr : w.Safe r) : Serves w (fun s => [s]) (applyBinary op l r) := by
  unfold applyBinary
  split
  · exact serves_binary hw _ hl hr
  · exact ensures_throw (.refl hw)

theorem serves_applyUnary (hw : w.WellFormed) (op : Opcode) {x : Symbol α} (hx : w.Safe x) :
    Serves w (fun s => [s]) (applyUnary op x) := by
  unfold applyUnary
  split
  · exact serves_unary hw _ hx
  · exact ensures_throw (.refl hw)

theorem serves_select (hw : w.WellFormed) (c : Comparison) {l r t f : Symbol α} (hl : w.Safe l)
    (hr : w.Safe r) (ht : w.Safe t) (hf : w.Safe f) :
    Serves w (fun s => [s]) (select c l r t f) := by
  unfold select
  split
  · refine ensures_pure ⟨.refl hw, ?_⟩
    split
    · simpa using ht
    · simpa using hf
  · refine serves_record hw ?_ rfl (by simp [Operation.opcode])
    intro s hs
    obtain rfl | rfl | rfl | rfl : s = l ∨ s = r ∨ s = t ∨ s = f := by
      simpa [Operation.operands] using hs
    · exact hl
    · exact hr
    · exact ht
    · exact hf

/-- Solving by inversion adds nodes that do not reach the target, or changes nothing. -/
theorem ensures_solve (hw : w.WellFormed) (h : HandlerId) {residual target : Symbol α}
    (hresidual : w.Safe residual) (htarget : w.Safe target) :
    Ensures (solve h Solver.inversion residual target) w
      (fun s w' => ∃ id handler solved g, w.handler? h = some handler ∧
        handler.graph.Extends g id ∧ g.Clear id solved ∧ s = .ofArg h solved ∧
        w' = w.put h { handler with graph := g }) (· = w) := by
  refine (ensures_ownNode w h target).read rfl ?_
  rintro id ⟨rfl, htargetOwned⟩
  refine (ensures_ownArg w h residual).read rfl ?_
  rintro _ ⟨rfl, hresidualOwned⟩
  refine (ensures_writable w h).read rfl fun handler hwritable => ?_
  refine (ensures_runSolver w handler _ _ _).read rfl ?_
  rintro ⟨solved, g⟩ hsolve
  obtain ⟨hextends, hclear⟩ := Solver.extends_inversion (hw.graph h handler hwritable.1)
    (fun k hk => hresidualOwned.exists_recorded hresidual hwritable.1 hk)
    (htargetOwned.exists_recorded htarget hwritable.1 rfl) hsolve
  exact ⟨id, handler, solved, g, hwritable.1, hextends, hclear, rfl, rfl⟩

theorem serves_solve (hw : w.WellFormed) (h : HandlerId) {residual target : Symbol α}
    (hresidual : w.Safe residual) (htarget : w.Safe target) :
    Serves w (fun s => [s]) (solve h Solver.inversion residual target) := by
  refine (ensures_solve hw h hresidual htarget).imp ?_ (by rintro _ rfl; exact .refl hw)
  rintro s _ ⟨id, handler, solved, g, hhandler, hextends, hclear, rfl, rfl⟩
  refine ⟨hw.evolves_put hhandler hextends.toEvolves, fun s hs => ?_⟩
  obtain rfl := List.mem_singleton.mp hs
  cases solved with
  | const v => exact Workspace.safe_param _ v
  | node k =>
    obtain ⟨m, hm⟩ := (hclear k rfl).1
    exact (evolves_recorded hw hhandler hextends.toEvolves hm).2

/-- Eliminating an independent variable by inversion replaces it by the solved expression, or
changes nothing. -/
theorem ensures_eliminate (hw : w.WellFormed) (h : HandlerId) {independent residual : Symbol α}
    (hindependent : w.Safe independent) (hresidual : w.Safe residual) :
    Ensures (eliminate h Solver.inversion independent residual) w
      (fun _ w' => ∃ target handler index solved g g', independent = .var h target ∧
        w.handler? h = some handler ∧
        Solver.inversion.solve handler.graph residual.toArg target = .ok (solved, g) ∧
        handler.graph.Evolves g' ∧ handler.graph.Eliminates g' index target solved ∧
        w' = w.put h { handler with graph := g' }) (· = w) := by
  refine (ensures_independentIndex w h independent).read rfl ?_
  rintro index ⟨target, found, rfl, hfound, hindex⟩
  refine (ensures_ownNode w h _).read rfl ?_
  rintro id ⟨heq, htargetOwned⟩
  obtain rfl : target = id := by simpa using heq
  refine (ensures_ownArg w h residual).read rfl ?_
  rintro _ ⟨rfl, hresidualOwned⟩
  refine (ensures_writable w h).read rfl fun handler hwritable => ?_
  refine (ensures_runSolver w handler _ _ _).read rfl ?_
  rintro ⟨solved, g⟩ hsolve
  obtain ⟨hextends, hclear⟩ := Solver.extends_inversion (hw.graph h handler hwritable.1)
    (fun k hk => hresidualOwned.exists_recorded hresidual hwritable.1 hk)
    (htargetOwned.exists_recorded hindependent hwritable.1 rfl) hsolve
  rw [hwritable.1, Option.some_inj] at hfound
  subst hfound
  have hroster : g.rosterIndex? target = some index := by
    rw [Graph.rosterIndex?, hextends.roster]
    exact hindex
  have heliminate : g.Evolves (g.eliminate index target solved) :=
    hextends.wellFormed.evolves_eliminate hroster fun k hk => hclear k (Arg.node?_eq_some.mp hk)
  exact ⟨target, handler, index, solved, g, _, rfl, hwritable.1, hsolve,
    hextends.toEvolves.trans heliminate, hextends.eliminates hindex hclear, rfl⟩

theorem serves_eliminate (hw : w.WellFormed) (h : HandlerId) {independent residual : Symbol α}
    (hindependent : w.Safe independent) (hresidual : w.Safe residual) :
    Serves w (fun _ => []) (eliminate h Solver.inversion independent residual) := by
  refine (ensures_eliminate hw h hindependent hresidual).imp ?_ (by rintro _ rfl; exact .refl hw)
  rintro _ _ ⟨target, handler, index, solved, g, g', _, hhandler, _, hevolves, _, rfl⟩
  exact ⟨hw.evolves_put hhandler hevolves, by simp⟩

end Session

end Straightline
