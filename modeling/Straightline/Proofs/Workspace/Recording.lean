import Straightline.Proofs.Recording.Shortcut
import Straightline.Proofs.Workspace.Growth

/-!
# Recording is a homomorphism

A script is a straight-line program over registers. Recorded in a handler it gives a symbol for
every register; carried out on the elements of an ordered field it gives a number for every
register. The symbols have these numbers as their values on all inputs, and they keep them whatever
is recorded later.
-/

namespace Straightline

namespace Script

/-- A step of a script, over the registers that are there before it. -/
inductive Step (α : Type) (n : Nat) where
  /-- A new input. -/
  | input
  /-- A constant. -/
  | constant (v : α)
  /-- A unary operation. -/
  | unary (op : Unary) (x : Fin n)
  /-- A binary operation. -/
  | binary (op : Binary) (l r : Fin n)
  /-- A choice by comparison. -/
  | select (c : Comparison) (l r t f : Fin n)

end Script

/-- A straight-line program, each step of which writes the next register. -/
inductive Script (α : Type) : Nat → Type where
  /-- The program without steps. -/
  | nil : Script α 0
  /-- A program with one more step. -/
  | snoc {n : Nat} (p : Script α n) (step : Script.Step α n) : Script α (n + 1)

namespace Script

variable {α : Type} {n : Nat}

/-- How many inputs a step reads. -/
def Step.inputCount : Step α n → Nat
  | input => 1
  | _ => 0

/-- How many inputs a program reads. -/
def inputCount : {n : Nat} → Script α n → Nat
  | _, nil => 0
  | _, snoc p step => p.inputCount + step.inputCount

section Record

variable [Scalar α]

/-- Record a step in a handler. -/
def Step.record (h : HandlerId) (regs : Fin n → Symbol α) : Step α n → Session α (Symbol α)
  | input => Session.newVariable h
  | constant v => return .param v
  | unary op x => Session.unary op (regs x)
  | binary op l r => Session.binary op (regs l) (regs r)
  | select c l r t f => Session.select c (regs l) (regs r) (regs t) (regs f)

/-- Record the steps of a program in turn. The answer holds the symbols of the registers. -/
def record (h : HandlerId) : {n : Nat} → Script α n → Session α (Fin n → Symbol α)
  | _, nil => return Fin.elim0
  | _, snoc p step => do
    let regs ← p.record h
    let s ← step.record h regs
    return Fin.snoc regs s

end Record

section Compute

variable {K : Type} [Field K] [LinearOrder K] [Scalar K]

/-- Carry out a step on elements of a field; a new input has a given value. -/
def Step.compute (input : K) (regs : Fin n → K) : Step K n → K
  | .input => input
  | constant v => v
  | unary op x => op.exact (regs x)
  | binary op l r => op.exact (regs l) (regs r)
  | select c l r t f => if c.Holds (regs l) (regs r) then regs t else regs f

/-- Carry out a program on elements of a field. New inputs take their values from a list. -/
def compute (inputs : List K) : {n : Nat} → Script K n → Fin n → K
  | _, nil => Fin.elim0
  | _, snoc p step =>
    Fin.snoc (p.compute inputs) (step.compute (inputs.getD p.inputCount 0) (p.compute inputs))

/-- A program reads no more inputs than it has. -/
theorem compute_take (p : Script K n) {inputs : List K} {m : Nat} (hm : p.inputCount ≤ m) :
    p.compute (inputs.take m) = p.compute inputs := by
  induction p with
  | nil => rfl
  | snoc p step ih =>
    have hle : p.inputCount + step.inputCount ≤ m := hm
    have hfront := ih (Nat.le_trans (Nat.le_add_right ..) hle)
    unfold compute
    rw [hfront]
    cases step with
    | input =>
      have hlt : p.inputCount < m := by
        simp only [Step.inputCount] at hle
        omega
      simp only [Step.compute, List.getD_eq_getElem?_getD, List.getElem?_take_of_lt hlt]
    | _ => rfl

end Compute

end Script

namespace Graph

variable {α : Type} [Scalar α] {g g' : Graph α} {inputs : List α} {val : NodeId → α}

/-- Values of a later graph are values of an earlier one, on the inputs that were there before. -/
theorem Appends.isValuation (h : g.Appends g') (hg : g.WellFormed) (hg' : g'.WellFormed)
    (hval : g'.beginPass.IsValuation inputs val) (hinputs : inputs.length = g'.roster.length) :
    g.beginPass.IsValuation (inputs.take g.roster.length) val := by
  have hroster : g.roster.map val = inputs.take g.roster.length := by
    obtain ⟨added, hadded⟩ := h.roster
    rw [← hg'.map_roster hval hinputs, ← hadded, List.map_append,
      List.take_left' (List.length_map val)]
  rw [← hroster]
  exact h.preserves.isValuation hg hval

/-- The value of a node that was just recorded is that of its operation. -/
theorem value?_of_record {op : Operation (Arg α)} (hne : op ≠ .independent)
    (hval : (g.record op).2.beginPass.IsValuation inputs val) :
    (op.map (Arg.eval val)).value? = some (val g.next) := by
  have hop : (g.record op).2.beginPass.operation? g.next = some op := by
    rw [operation?_beginPass]
    exact congrArg (Option.map Node.operation) (Table.get_set_self ..)
  rw [← required?_of_ne inputs val g.next hne]
  exact hval g.next op hop

/-- The value of a variable that was just created is the last input. -/
theorem WellFormed.value_of_addIndependent (h : g.WellFormed)
    (hval : g.addIndependent.2.beginPass.IsValuation inputs val)
    (hinputs : inputs.length = g.addIndependent.2.roster.length) :
    inputs[g.roster.length]? = some (val g.next) := by
  have hroster := h.addIndependent.map_roster hval hinputs
  rw [← hroster]
  change ((g.roster ++ [g.next]).map val)[g.roster.length]? = _
  simp

end Graph

namespace Symbol

variable {α : Type} {w w' : Workspace α} {h : HandlerId} {handler : Handler α} {g g' : Graph α}

/-- A parameter, or a node that is recorded in the graph of a handler. -/
def Within (h : HandlerId) (g : Graph α) : Symbol α → Prop
  | param _ => True
  | var k id => k = h ∧ ∃ node, g.recorded.get id = some node

theorem Within.mono {s : Symbol α} (hs : s.Within h g) (hpreserves : g.Preserves g') :
    s.Within h g' := by
  cases s with
  | param v => trivial
  | var k id =>
    obtain ⟨rfl, node, hnode⟩ := hs
    obtain ⟨node', hnode', _⟩ := hpreserves id node hnode
    exact ⟨rfl, node', hnode'⟩

/-- A symbol of a handler that is no parameter is a variable of it. -/
theorem Within.eq_var {s : Symbol α} (hs : s.Within h g) (hvalue : s.value? = none) :
    ∃ id, s = .var h id := by
  cases s with
  | param v => cases hvalue
  | var k id => exact ⟨id, hs.1 ▸ rfl⟩

/-- The value of a symbol that is a parameter. -/
theorem eval_of_value? {s : Symbol α} (val : NodeId → α) :
    ∀ v ∈ s.value?, v = s.toArg.eval val := by
  cases s with
  | param a =>
    rintro v ⟨⟩
    rfl
  | var k id =>
    rintro v ⟨⟩

theorem Within.owned {s : Symbol α} (hs : s.Within h handler.graph)
    (hhandler : w.handler? h = some handler) : Session.Owned w h s := by
  cases s with
  | param v => trivial
  | var k id =>
    obtain ⟨rfl, node, hnode⟩ := hs
    exact Session.owned_var.mpr ⟨rfl, handler, hhandler, Graph.contains_of_recorded hnode⟩

/-- The value of a symbol: that of the parameter, or that of its node by plain recursion on the
graph of its handler. -/
def HasValue [Scalar α] (w : Workspace α) (inputs : List α) : Symbol α → α → Prop
  | param a, v => a = v
  | var h id, v =>
    ∃ handler, w.handler? h = some handler ∧ handler.graph.HasValue inputs (.node id) v

/-- A valuation of the recorded nodes gives the values of the symbols. -/
theorem Within.hasValue [Scalar α] {s : Symbol α} (hs : s.Within h handler.graph)
    (hhandler : w.handler? h = some handler) (hg : handler.graph.WellFormed) {inputs : List α}
    {val : NodeId → α} (hval : handler.graph.beginPass.IsValuation inputs val) :
    s.HasValue w inputs (s.toArg.eval val) := by
  cases s with
  | param v => rfl
  | var k id =>
    obtain ⟨rfl, node, hnode⟩ := hs
    refine ⟨handler, hhandler, hg.hasValue_of_recorded hval ?_⟩
    rintro _ ⟨⟩
    exact ⟨node, hnode⟩

end Symbol

namespace Session

variable {α : Type} {w : Workspace α} {h : HandlerId} {handler : Handler α}

/-- The common handler of symbols of one handler. -/
theorem commonHandler_of_within {g : Graph α} {symbols : List (Symbol α)}
    (hwithin : ∀ s ∈ symbols, s.Within h g) {found : Option HandlerId}
    (hfound : ∀ k, found = some k → k = h)
    (hsome : found = none → ∃ id, .var h id ∈ symbols) : commonHandler found symbols = .ok h := by
  induction symbols generalizing found with
  | nil =>
    cases found with
    | none => simp at hsome
    | some k => rw [commonHandler, hfound k rfl]
  | cons s rest ih =>
    have hrest : ∀ t ∈ rest, t.Within h g := fun t ht => hwithin t (List.mem_cons_of_mem _ ht)
    cases s with
    | param v =>
      have hskip : commonHandler found (.param v :: rest) = commonHandler found rest := by
        cases found <;> rfl
      rw [hskip]
      exact ih hrest hfound (by simpa using hsome)
    | var k id =>
      obtain ⟨rfl, _⟩ := hwithin (.var k id) List.mem_cons_self
      cases found with
      | none => exact ih hrest (by simp) (by simp)
      | some j =>
        obtain rfl := hfound j rfl
        rw [commonHandler, if_pos rfl]
        exact ih hrest (by simp) (by simp)

/-- Recording an operation on symbols of a handler, one of which is a variable. -/
theorem record_of_within (hhandler : w.handler? h = some handler) (hfree : handler.held = false)
    {op : Operation (Symbol α)} (hwithin : ∀ s ∈ op.operands, s.Within h handler.graph)
    (hvar : ∃ id, .var h id ∈ op.operands) :
    record op w = .ok (.var h handler.graph.next)
      (w.put h { handler with graph := (handler.graph.record (op.map Symbol.toArg)).2 }) := by
  have hlive : (op.map Symbol.toArg).references.any
      (fun id => !handler.graph.contains id) = false := by
    rw [List.any_eq_false]
    intro id hid
    rw [Operation.mem_references, Operation.operands_map, List.mem_map] at hid
    obtain ⟨s, hs, heq⟩ := hid
    cases s with
    | param v => simp [Symbol.toArg] at heq
    | var k j =>
      obtain rfl : j = id := by simpa [Symbol.toArg] using heq
      obtain ⟨_, node, hnode⟩ := hwithin _ hs
      simp [Graph.contains_of_recorded hnode]
  have hpure : (pure h : Session α HandlerId) w = .ok h w := rfl
  unfold record
  rw [commonHandler_of_within hwithin (by simp) fun _ => hvar]
  refine (bind_of_ok hpure).trans ((bind_of_ok (writable_of_handler hhandler hfree)).trans ?_)
  simp only [hlive, Bool.false_eq_true, if_false]
  rfl

theorem newVariable_of_handler (hhandler : w.handler? h = some handler)
    (hfree : handler.held = false) :
    newVariable h w = .ok (.var h handler.graph.next)
      (w.put h { handler with graph := handler.graph.addIndependent.2 }) := by
  unfold newVariable
  rw [bind_of_ok (writable_of_handler hhandler hfree)]
  rfl

end Session

namespace Request

variable {α : Type} [Scalar α] {w w' : Workspace α} {issued : List (Symbol α)} {s : Symbol α}

/-- The client is given the symbol of a request that succeeds. -/
theorem reachable_of_run (hreach : Reachable w issued) (r : Request α)
    (hknown : ∀ t ∈ r.symbols, t.Known issued) (hrun : r.run w = .ok [s] w') :
    Reachable w' (issued ++ [s]) := by
  have hafter : r.after w = (w', [s]) := by rw [after, hrun]
  have hnext := hreach.request r hknown
  rwa [hafter] at hnext

end Request

theorem Symbol.Known.mono {α : Type} {issued : List (Symbol α)} {s : Symbol α}
    (hs : s.Known issued) (more : List (Symbol α)) : s.Known (issued ++ more) := by
  cases s with
  | param v => trivial
  | var h id => exact List.mem_append_left _ hs

theorem Symbol.known_last {α : Type} (issued : List (Symbol α)) (s : Symbol α) :
    s.Known (issued ++ [s]) := by
  cases s with
  | param v => trivial
  | var h id => exact List.mem_append_right _ List.mem_cons_self

namespace Script

variable {K : Type} [Field K] [LinearOrder K] [Scalar K] {n : Nat} {h : HandlerId} {start : Nat}
  {regs : Fin n → Symbol K} {w w' : Workspace K} {issued issued' : List (Symbol K)}
  {handler handler' : Handler K}

/-- A client has recorded a program in a handler: the symbols of the registers belong to it, and on
all inputs they have the values that the program computes from the inputs behind the first ones. -/
structure Recorded (p : Script K n) (h : HandlerId) (start : Nat) (regs : Fin n → Symbol K)
    (w : Workspace K) (issued : List (Symbol K)) (handler : Handler K) : Prop where
  /-- The workspace is reachable. -/
  reachable : Reachable w issued
  /-- The handler exists. -/
  found : w.handler? h = some handler
  /-- Its graph can be changed. -/
  free : handler.held = false
  /-- The client knows the symbols. -/
  known : ∀ i, (regs i).Known issued
  /-- The symbols belong to the handler. -/
  within : ∀ i, (regs i).Within h handler.graph
  /-- The inputs of the program are the last ones. -/
  roster : handler.graph.roster.length = start + p.inputCount
  /-- The symbols have the values that the program computes. -/
  values : ∀ inputs val, inputs.length = handler.graph.roster.length →
    handler.graph.beginPass.IsValuation inputs val →
      ∀ i, (regs i).toArg.eval val = p.compute (inputs.drop start) i

/-- What a step that was carried out adds to a recorded program. -/
structure Advances (step : Step K n) (h : HandlerId) (regs : Fin n → Symbol K) (s : Symbol K)
    (handler : Handler K) (w' : Workspace K) (handler' : Handler K) : Prop where
  /-- The handler stays. -/
  found : w'.handler? h = some handler'
  /-- Its graph can still be changed. -/
  free : handler'.held = false
  /-- Its graph keeps what was recorded. -/
  appends : handler.graph.Appends handler'.graph
  /-- The symbol belongs to the handler. -/
  within : s.Within h handler'.graph
  /-- A new input joins the roster. -/
  roster : handler'.graph.roster.length = handler.graph.roster.length + step.inputCount
  /-- The symbol has the value of the step on the values of the registers. -/
  value : ∀ inputs val, inputs.length = handler'.graph.roster.length →
    handler'.graph.beginPass.IsValuation inputs val →
      s.toArg.eval val = step.compute (inputs.getD handler.graph.roster.length 0)
        fun i => (regs i).toArg.eval val

/-- A program that is recorded, and one more step. -/
theorem Recorded.snoc {p : Script K n} (hp : p.Recorded h start regs w issued handler)
    {step : Step K n} {s : Symbol K} (hstep : Advances step h regs s handler w' handler')
    (hreach : Reachable w' issued') (hissued : ∀ t : Symbol K, t.Known issued → t.Known issued')
    (hs : s.Known issued') :
    (p.snoc step).Recorded h start (Fin.snoc regs s) w' issued' handler' where
  reachable := hreach
  found := hstep.found
  free := hstep.free
  known i := by
    cases i using Fin.lastCases with
    | last => simpa using hs
    | cast i => simpa using hissued _ (hp.known i)
  within i := by
    cases i using Fin.lastCases with
    | last => simpa using hstep.within
    | cast i => simpa using (hp.within i).mono hstep.appends.preserves
  roster := by
    rw [hstep.roster, hp.roster, Nat.add_assoc]
    rfl
  values := by
    intro inputs val hinputs hval
    have hgraph := hp.reachable.wellFormed.graph h handler hp.found
    have hgraph' := hreach.wellFormed.graph h handler' hstep.found
    have hlength : (inputs.take handler.graph.roster.length).length =
        handler.graph.roster.length := by
      rw [List.length_take, hinputs, hstep.roster]
      omega
    have hold : ∀ i, (regs i).toArg.eval val = p.compute (inputs.drop start) i := by
      intro i
      rw [hp.values _ val hlength (hstep.appends.isValuation hgraph hgraph' hval hinputs) i,
        hp.roster, List.drop_take, Nat.add_sub_cancel_left, p.compute_take (Nat.le_refl _)]
    intro i
    cases i using Fin.lastCases with
    | last =>
      rw [Fin.snoc_last, hstep.value inputs val hinputs hval]
      simp only [hold, compute, Fin.snoc_last, hp.roster, List.getD_eq_getElem?_getD,
        List.getElem?_drop]
    | cast i => simpa [compute] using hold i

/-- A step that is resolved without a node. -/
theorem advances_resolved (hfound : w.handler? h = some handler) (hfree : handler.held = false)
    {step : Step K n} (hstep : step.inputCount = 0) {s : Symbol K} (hs : s.Within h handler.graph)
    (hvalue : ∀ val : NodeId → K, ∀ v,
      s.toArg.eval val = step.compute v fun i => (regs i).toArg.eval val) :
    Advances step h regs s handler w handler where
  found := hfound
  free := hfree
  appends := (Graph.Grows.refl _).appends
  within := hs
  roster := by rw [hstep, Nat.add_zero]
  value _ val _ _ := hvalue val _

/-- A step that records a node: an operation on symbols of the handler, one of which is a
variable. -/
theorem exists_advances_record (hreach : Reachable w issued)
    (hfound : w.handler? h = some handler) (hfree : handler.held = false) {step : Step K n}
    (hstep : step.inputCount = 0) (op : Operation (Symbol K)) (hne : op.opcode ≠ .independent)
    (hwithin : ∀ s ∈ op.operands, s.Within h handler.graph) (hvar : ∃ id, .var h id ∈ op.operands)
    (hvalue : ∀ val : NodeId → K, ∀ v, (op.map fun s => s.toArg.eval val).value? =
      some (step.compute v fun i => (regs i).toArg.eval val)) :
    ∃ s w' handler', Session.record op w = .ok s w' ∧
      Advances step h regs s handler w' handler' := by
  refine ⟨_, _, { handler with graph := (handler.graph.record (op.map Symbol.toArg)).2 },
    Session.record_of_within hfound hfree hwithin hvar, ?_, hfree, ?_, ?_, ?_, ?_⟩
  · rw [Workspace.handler?_put, if_pos rfl]
  · exact ((hreach.wellFormed.graph h handler hfound).grows_record _).appends
  · exact ⟨rfl, _, Table.get_set_self ..⟩
  · rw [hstep]
    rfl
  · intro inputs val _ hval
    have hnode : op.map Symbol.toArg ≠ .independent := by
      intro heq
      rw [← Operation.opcode_map Symbol.toArg op, heq] at hne
      exact hne rfl
    have hrecorded := Graph.value?_of_record hnode hval
    rw [Operation.map_map, hvalue val (inputs.getD handler.graph.roster.length 0),
      Option.some_inj] at hrecorded
    exact hrecorded.symm

/-- A step that creates a variable. -/
theorem advances_input (hreach : Reachable w issued) (hfound : w.handler? h = some handler)
    (hfree : handler.held = false) :
    Advances (.input : Step K n) h regs (.var h handler.graph.next) handler
      (w.put h { handler with graph := handler.graph.addIndependent.2 })
      { handler with graph := handler.graph.addIndependent.2 } where
  found := by rw [Workspace.handler?_put, if_pos rfl]
  free := hfree
  appends := (hreach.wellFormed.graph h handler hfound).appends_addIndependent
  within := ⟨rfl, _, Table.get_set_self ..⟩
  roster := List.length_append
  value inputs val hinputs hval := by
    have hlast := (hreach.wellFormed.graph h handler hfound).value_of_addIndependent hval hinputs
    rw [Step.compute, List.getD_eq_getElem?_getD, hlast]
    rfl

/-- A step that a client asks for. -/
theorem Recorded.request {p : Script K n} (hp : p.Recorded h start regs w issued handler)
    {step : Step K n} {s : Symbol K} (hstep : Advances step h regs s handler w' handler')
    {m : Session K (Symbol K)} (hm : m w = .ok s w') {r : Request K}
    (hr : r.run = do return [← m]) (hknown : ∀ t ∈ r.symbols, t.Known issued) :
    ∃ s w' issued' handler', m w = .ok s w' ∧
      (p.snoc step).Recorded h start (Fin.snoc regs s) w' issued' handler' := by
  have hrun : r.run w = .ok [s] w' := by
    rw [hr, Session.bind_of_ok hm]
    rfl
  have hreach := Request.reachable_of_run hp.reachable r hknown hrun
  exact ⟨s, w', _, handler', hm,
    hp.snoc hstep hreach (fun t ht => ht.mono [s]) (Symbol.known_last issued s)⟩

/-- The symbols of a recorded program keep their values in all workspaces where the handler still
has what was recorded. -/
theorem Recorded.hasValue {p : Script K n} (hp : p.Recorded h start regs w issued handler)
    (hw : w'.WellFormed) (hfound : w'.handler? h = some handler')
    (happends : handler.graph.Appends handler'.graph) {inputs : List K}
    (extra : List K) (hinputs : inputs.length = handler.graph.roster.length)
    (hextra : (inputs ++ extra).length = handler'.graph.roster.length) (i : Fin n) :
    (regs i).HasValue w' (inputs ++ extra) (p.compute (inputs.drop start) i) := by
  have hgraph := hp.reachable.wellFormed.graph h handler hp.found
  have hgraph' := hw.graph h handler' hfound
  obtain ⟨val, hval, _⟩ := hgraph'.exists_recorded_values hextra
  have hearlier := happends.isValuation hgraph hgraph' hval hextra
  rw [← hinputs, List.take_left] at hearlier
  rw [← hp.values inputs val hinputs hearlier i]
  exact ((hp.within i).mono happends.preserves).hasValue hfound hgraph' hval

variable [Scalar.IsOrderedField K]

/-- Recording a unary operation on a register. -/
theorem Recorded.exists_unary {p : Script K n} (hp : p.Recorded h start regs w issued handler)
    (op : Unary) (x : Fin n) :
    ∃ s w' handler', Session.unary op (regs x) w = .ok s w' ∧
      Advances (.unary op x) h regs s handler w' handler' := by
  have hwithin := hp.within x
  cases hx : regs x with
  | param v =>
    refine ⟨_, w, handler, rfl, advances_resolved hp.found hp.free rfl trivial fun val _ => ?_⟩
    simp only [Step.compute, hx]
    exact op.apply_eq_exact v
  | var k id =>
    rw [hx] at hwithin
    obtain rfl : k = h := hwithin.1
    refine exists_advances_record hp.reachable hp.found hp.free rfl (.unary op (.var k id))
      (by simp [Operation.opcode]) ?_ ⟨id, List.mem_cons_self⟩ fun val _ => ?_
    · intro s hs
      obtain rfl := List.mem_singleton.mp hs
      exact hwithin
    · simp only [Step.compute, hx, ← op.apply_eq_exact]
      rfl

/-- Recording a binary operation on registers. -/
theorem Recorded.exists_binary {p : Script K n} (hp : p.Recorded h start regs w issued handler)
    (op : Binary) (l r : Fin n) :
    ∃ s w' handler', Session.binary op (regs l) (regs r) w = .ok s w' ∧
      Advances (.binary op l r) h regs s handler w' handler' := by
  cases hs : op.shortcut? (regs l).value? (regs r).value? with
  | some s =>
    have hresolved : ∀ val : NodeId → K,
        s.resolve ((regs l).toArg.eval val) ((regs r).toArg.eval val) =
          op.exact ((regs l).toArg.eval val) ((regs r).toArg.eval val) := fun val =>
      op.resolve_shortcut? hs (Symbol.eval_of_value? val) (Symbol.eval_of_value? val)
    simp only [Session.binary, hs]
    cases s with
    | value v =>
      exact ⟨_, w, handler, rfl,
        advances_resolved hp.found hp.free rfl trivial fun val _ => hresolved val⟩
    | left =>
      exact ⟨_, w, handler, rfl,
        advances_resolved hp.found hp.free rfl (hp.within l) fun val _ => hresolved val⟩
    | right =>
      exact ⟨_, w, handler, rfl,
        advances_resolved hp.found hp.free rfl (hp.within r) fun val _ => hresolved val⟩
  | none =>
    have hvar : ∃ id, .var h id ∈ [regs l, regs r] := by
      cases hl : (regs l).value? with
      | none =>
        obtain ⟨id, hid⟩ := (hp.within l).eq_var hl
        exact ⟨id, by simp [hid]⟩
      | some a =>
        cases hr : (regs r).value? with
        | none =>
          obtain ⟨id, hid⟩ := (hp.within r).eq_var hr
          exact ⟨id, by simp [hid]⟩
        | some b => simp [hl, hr, Binary.shortcut?] at hs
    simp only [Session.binary, hs]
    refine exists_advances_record hp.reachable hp.found hp.free rfl _ (by simp [Operation.opcode])
      ?_ hvar fun val _ => ?_
    · intro s hs
      obtain rfl | rfl : s = regs l ∨ s = regs r := by simpa [Operation.operands] using hs
      · exact hp.within l
      · exact hp.within r
    · simp only [Step.compute, ← op.apply_eq_exact]
      rfl

/-- Recording a choice between registers. -/
theorem Recorded.exists_select {p : Script K n} (hp : p.Recorded h start regs w issued handler)
    (c : Comparison) (l r t f : Fin n) :
    ∃ s w' handler', Session.select c (regs l) (regs r) (regs t) (regs f) w = .ok s w' ∧
      Advances (.select c l r t f) h regs s handler w' handler' := by
  by_cases hconst : ∃ a b, regs l = .param a ∧ regs r = .param b
  · obtain ⟨a, b, hl, hr⟩ := hconst
    have hiff := Scalar.IsOrderedField.compare_eq_true c a b
    simp only [hl, hr, Session.select]
    by_cases hholds : c.Holds a b
    · refine ⟨regs t, w, handler, ?_, advances_resolved hp.found hp.free rfl (hp.within t) ?_⟩
      · rw [if_pos (hiff.mpr hholds)]
        rfl
      · intro val _
        simp only [Step.compute, hl, hr, Symbol.toArg, Arg.eval, if_pos hholds]
    · refine ⟨regs f, w, handler, ?_, advances_resolved hp.found hp.free rfl (hp.within f) ?_⟩
      · rw [if_neg fun h => hholds (hiff.mp h)]
        rfl
      · intro val _
        simp only [Step.compute, hl, hr, Symbol.toArg, Arg.eval, if_neg hholds]
  · have hrecord : Session.select c (regs l) (regs r) (regs t) (regs f) =
        Session.record (.select c (regs l) (regs r) (regs t) (regs f)) := by
      unfold Session.select
      split
      · next a b hl hr => exact absurd ⟨a, b, hl, hr⟩ hconst
      · rfl
    have hvar : ∃ id, .var h id ∈ [regs l, regs r, regs t, regs f] := by
      cases hl : regs l with
      | var k id =>
        have hwithin := hp.within l
        rw [hl] at hwithin
        exact ⟨id, by simp [hwithin.1]⟩
      | param a =>
        cases hr : regs r with
        | var k id =>
          have hwithin := hp.within r
          rw [hr] at hwithin
          exact ⟨id, by simp [hwithin.1]⟩
        | param b => exact absurd ⟨a, b, hl, hr⟩ hconst
    rw [hrecord]
    refine exists_advances_record hp.reachable hp.found hp.free rfl _ (by simp [Operation.opcode])
      ?_ hvar fun val _ => ?_
    · intro s hs
      obtain rfl | rfl | rfl | rfl : s = regs l ∨ s = regs r ∨ s = regs t ∨ s = regs f := by
        simpa [Operation.operands] using hs
      · exact hp.within l
      · exact hp.within r
      · exact hp.within t
      · exact hp.within f
    · simp only [Step.compute, ← c.choose_eq_ite]
      rfl

/-- Recording one more step. -/
theorem Recorded.exists_snoc {p : Script K n} (hp : p.Recorded h start regs w issued handler)
    (step : Step K n) :
    ∃ s w' issued' handler', step.record h regs w = .ok s w' ∧
      (p.snoc step).Recorded h start (Fin.snoc regs s) w' issued' handler' := by
  cases step with
  | input =>
    exact hp.request (advances_input hp.reachable hp.found hp.free)
      (Session.newVariable_of_handler hp.found hp.free) (r := .newVariable h) rfl
      (by simp [Request.symbols])
  | constant v =>
    exact ⟨.param v, w, issued, handler, rfl,
      hp.snoc (advances_resolved hp.found hp.free rfl trivial fun _ _ => rfl) hp.reachable
        (fun _ ht => ht) trivial⟩
  | unary op x =>
    obtain ⟨s, w', handler', hm, hstep⟩ := hp.exists_unary op x
    refine hp.request hstep hm (r := .unary (.unary op) (regs x)) rfl ?_
    simpa [Request.symbols] using hp.known x
  | binary op l r =>
    obtain ⟨s, w', handler', hm, hstep⟩ := hp.exists_binary op l r
    refine hp.request hstep hm (r := .binary (.binary op) (regs l) (regs r)) rfl ?_
    simpa [Request.symbols] using ⟨hp.known l, hp.known r⟩
  | select c l r t f =>
    obtain ⟨s, w', handler', hm, hstep⟩ := hp.exists_select c l r t f
    refine hp.request hstep hm (r := .select c (regs l) (regs r) (regs t) (regs f)) rfl ?_
    simpa [Request.symbols] using ⟨hp.known l, hp.known r, hp.known t, hp.known f⟩

/-- Recording a program in a handler whose graph can be changed. -/
theorem exists_recorded (hreach : Reachable w issued) (hfound : w.handler? h = some handler)
    (hfree : handler.held = false) {n : Nat} (p : Script K n) :
    ∃ regs w' issued' handler', p.record h w = .ok regs w' ∧
      p.Recorded h handler.graph.roster.length regs w' issued' handler' := by
  induction p with
  | nil =>
    exact ⟨Fin.elim0, w, issued, handler, rfl, hreach, hfound, hfree, fun i => i.elim0,
      fun i => i.elim0, rfl, fun _ _ _ _ i => i.elim0⟩
  | snoc p step ih =>
    obtain ⟨regs, w₁, issued₁, handler₁, hfront, hp⟩ := ih
    obtain ⟨s, w₂, issued₂, handler₂, hlast, hsnoc⟩ := hp.exists_snoc step
    refine ⟨Fin.snoc regs s, w₂, issued₂, handler₂, ?_, hsnoc⟩
    unfold record
    rw [Session.bind_of_ok hfront, Session.bind_of_ok hlast]
    rfl

end Script

/-- Recording a straight-line program in a handler succeeds, and for all inputs from an ordered
field the symbol of every register has the value that the program computes in the field. After any
later requests, other than those that clear the handler or eliminate one of its variables, it has
the same value, whatever inputs have been added. -/
theorem recording_homomorphism {K : Type} [Field K] [LinearOrder K] [Scalar K]
    [Scalar.IsOrderedField K] {w : Workspace K} {issued : List (Symbol K)}
    (hreach : Reachable w issued) {h : HandlerId} {handler : Handler K}
    (hhandler : w.handler? h = some handler) (hfree : handler.held = false) {n : Nat}
    (p : Script K n) :
    ∃ regs w' issued' recorded, p.record h w = .ok regs w' ∧ Reachable w' issued' ∧
      w'.handler? h = some recorded ∧
      recorded.graph.roster.length = handler.graph.roster.length + p.inputCount ∧
      (∀ i, (regs i).Known issued' ∧ Session.Owned w' h (regs i)) ∧
      ∀ inputs : List K, inputs.length = recorded.graph.roster.length →
        ∀ i, ∃ v, v = p.compute (inputs.drop handler.graph.roster.length) i ∧
          (regs i).HasValue w' inputs v ∧
          ∀ rs, Request.Allowed rs w' issued' →
            (∀ r ∈ rs, ¬ r.Clears h ∧ ¬ r.Eliminates h) →
              ∃ later added, (Request.runAll rs w' issued').1.handler? h = some later ∧
                later.graph.roster = recorded.graph.roster ++ added ∧
                ∀ extra : List K, extra.length = added.length →
                  (regs i).HasValue (Request.runAll rs w' issued').1 (inputs ++ extra) v := by
  obtain ⟨regs, w', issued', recorded, hrecord, hp⟩ :=
    Script.exists_recorded hreach hhandler hfree p
  refine ⟨regs, w', issued', recorded, hrecord, hp.reachable, hp.found, hp.roster,
    fun i => ⟨hp.known i, (hp.within i).owned hp.found⟩, fun inputs hinputs i => ⟨_, rfl, ?_, ?_⟩⟩
  · have hsame : recorded.graph.Appends recorded.graph := (Graph.Grows.refl _).appends
    have hvalue := hp.hasValue hp.reachable.wellFormed hp.found hsame [] hinputs
      (by simpa using hinputs) i
    rwa [List.append_nil] at hvalue
  · intro rs hallowed hkeeps
    obtain ⟨later, hlater, happends⟩ :=
      Request.appends_runAll hp.reachable hallowed hkeeps recorded hp.found
    obtain ⟨added, hadded⟩ := happends.roster
    refine ⟨later, added, hlater, hadded.symm, fun extra hextra => ?_⟩
    apply hp.hasValue (hp.reachable.runAll rs hallowed).wellFormed hlater happends extra hinputs
    rw [← hadded, List.length_append, List.length_append, hinputs, hextra]

/-- With `x` for the new input: `2`, `x / 2`, `0`, `x / 2 * 0`, which is resolved without a node,
and `x` where `x / 2 < 2` or else the product. -/
def Script.sample : Script ℚ 6 :=
  .snoc (.snoc (.snoc (.snoc (.snoc (.snoc .nil .input) (.constant 2)) (.binary .div 0 1))
    (.constant 0)) (.binary .mul 2 3)) (.select .lt 2 1 0 4)

/-- The sample is recorded after a variable was eliminated, and its last register has the value that
is computed for the last input. -/
theorem recording_sample_homomorphism :
    ∃ (w : Workspace ℚ) (issued : List (Symbol ℚ)) (handler : Handler ℚ), Reachable w issued ∧
      w.handler? 0 = some handler ∧ handler.held = false ∧ handler.graph.roster = [0] ∧
      ∃ regs w', Script.sample.record 0 w = .ok regs w' ∧
        (regs 5).HasValue w' [5, 3] (3 : ℚ) := by
  obtain ⟨w, issued, handler, hreach, hhandler, hfree, _, hroster, _, _⟩ :=
    Reachable.exists_elimination true
  obtain ⟨regs, w', issued', recorded, hrecord, _, _, hlength, _, hvalues⟩ :=
    recording_homomorphism hreach hhandler hfree Script.sample
  rw [hroster] at hlength hvalues
  obtain ⟨v, hv, hvalue, _⟩ := hvalues [5, 3] hlength.symm 5
  have hthree : v = 3 := hv.trans (by decide +kernel)
  exact ⟨w, issued, handler, hreach, hhandler, hfree, hroster, regs, w', hrecord, hthree ▸ hvalue⟩

end Straightline
