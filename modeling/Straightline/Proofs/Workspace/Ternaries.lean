import Straightline.Proofs.Render.Ternaries
import Straightline.Proofs.Workspace.Flattening
import Straightline.Proofs.Workspace.Parsing

/-!
# Ternaries in the texts of reachable handlers

Under the policy of C, in any workspace that a client can reach and with any settings, selects are
stored and signs are of stored nodes or independent variables. So the ternary of a select is always
assigned, and that of a sign compares a variable.
-/

namespace Straightline

/-- The policy of C guards selects and signs. -/
theorem C.guards_policy {α : Type} : (C.policy : Policy α).Guards :=
  ⟨C.storesShared_policy, fun _ _ => C.stores_of_isComparison, rfl⟩

variable {α : Type} [Numeral α] {w : Workspace α} {issued : List (Symbol α)} {h : HandlerId}
  {handler : Handler α} {outputs : List (Symbol α)}

/-- In every workspace that a client can reach and with any settings, of the nodes that the stored
nodes and the outputs of a pass for C reach, every select has a slot and every sign is of a node
with a slot. In the statements a select stands at the root of what is assigned, if at all, and a
sign is of the name of a variable. -/
theorem generate_guards_ternaries (hreach : Reachable w issued)
    (hhandler : w.handler? h = some handler) (hfree : handler.held = false)
    (howned : ∀ s ∈ outputs, s.Known issued ∧ Session.Owned w h s) (style : C.Style)
    (naming : Naming) :
    ∃ bundle w' text w'' list,
      Session.generate h C.policy naming outputs w = .ok bundle w' ∧
      (∀ id op, bundle.graph.Reached (bundle.graph.order.map Arg.node ++ bundle.outputs) id →
        bundle.graph.operation? id = some op →
          (op.opcode.isComparison = true → bundle.graph.slot id ≠ 0) ∧
          ∀ x, op = .unary .sign x → ∃ k, x = .node k ∧ bundle.graph.slot k ≠ 0) ∧
      Session.generateText h (C.renderer style) naming outputs w = .ok text w'' ∧
      C.statements bundle = .ok list ∧
      text = C.declaration style bundle ++
        String.join (list.map (C.Statement.text style (C.nameOf bundle))) ∧
      ∀ s ∈ list, (∃ x, C.Assigns bundle s x) ∧ s.value.BranchesAtRoot := by
  obtain ⟨w', text, w'', list, hgenerate, htext, hlist, hlines, hassigns⟩ :=
    hreach.exists_statements hhandler hfree howned style naming
  have hguarded := (hreach.wellFormed.graph h handler hhandler).guarded_shared C.guards_policy
    (hreach.exists_recorded hhandler howned) handler.settings.optimize handler.settings.reuse
  refine ⟨_, w', text, w'', list, hgenerate, fun id op hid hop => ⟨hguarded.selects id op hid hop,
    ?_⟩, htext, hlist, hlines, fun s hs => ?_⟩
  · rintro x rfl
    exact hguarded.signs id x hid hop
  · obtain ⟨x, hx⟩ := hassigns s hs
    exact ⟨⟨x, hx⟩, hx.branchesAtRoot hguarded⟩

/-- A client eliminates a variable for the lesser of the other two, takes its sign, adds a variable,
chooses by the sum, takes the sign of the choice and multiplies it by the lesser one. -/
def Request.choices : List (Request ℚ) :=
  [.create { optimize := true }, .newVariable 0, .newVariable 0, .newVariable 0,
    .select .lt (.var 0 0) (.var 0 1) (.var 0 0) (.var 0 1),
    .binary (.binary .sub) (.var 0 2) (.var 0 3), .eliminate 0 (.var 0 2) (.var 0 4),
    .unary (.unary .sign) (.var 0 2), .binary (.binary .add) (.var 0 0) (.var 0 5),
    .select .gt (.var 0 6) (.var 0 1) (.var 0 3) (.var 0 5), .unary (.unary .sign) (.var 0 7),
    .binary (.binary .mul) (.var 0 8) (.var 0 3)]

/-- The product. -/
def Request.choicesOutputs : List (Symbol ℚ) := [.var 0 9]

/-- Its statements: the copy is stored for its sign, and both choices are stored. -/
def Request.choicesText : String :=
  "   double v[3];\n   v[0] = x[0] < x[1] ? x[0] : x[1];\n   v[1] = v[0];\n" ++
  "   v[2] = (v[1] > 0 ? 1 : (v[1] == 0 ? 0 : -1));\n" ++
  "   v[1] = (x[0] + v[2]) > x[1] ? v[0] : v[2];\n" ++
  "   y[0] = (v[1] > 0 ? 1 : (v[1] == 0 ? 0 : -1)) * v[0];\n"

/-- The signs of a copy of a select and of a select with a sign in it. -/
theorem generate_choices_guards_ternaries :
    ∃ (w : Workspace ℚ) (issued : List (Symbol ℚ)) (handler : Handler ℚ), Reachable w issued ∧
      w.handler? 0 = some handler ∧ handler.held = false ∧
      (∀ s ∈ Request.choicesOutputs, s.Known issued ∧ Session.Owned w 0 s) ∧
      ∃ bundle w' text w'' list,
        Session.generate 0 C.policy Naming.standard Request.choicesOutputs w = .ok bundle w' ∧
        (∀ id op, bundle.graph.Reached (bundle.graph.order.map Arg.node ++ bundle.outputs) id →
          bundle.graph.operation? id = some op →
            (op.opcode.isComparison = true → bundle.graph.slot id ≠ 0) ∧
            ∀ x, op = .unary .sign x → ∃ k, x = .node k ∧ bundle.graph.slot k ≠ 0) ∧
        Session.generateText 0 (C.renderer {}) Naming.standard Request.choicesOutputs w =
          .ok text w'' ∧
        text = Request.choicesText ∧ C.statements bundle = .ok list ∧
        ∀ s ∈ list, (∃ x, C.Assigns bundle s x) ∧ s.value.BranchesAtRoot := by
  let final := Request.runAll Request.choices {} []
  have hallowed : Request.Allowed Request.choices {} [] := by decide +kernel
  have hstate : (final.1.handler? 0).any (fun handler => !handler.held) = true := by
    decide +kernel
  have howned : ∀ s ∈ Request.choicesOutputs, s.Known final.2 ∧ Session.Owned final.1 0 s := by
    decide +kernel
  have hprinted : Session.succeedsWith (Session.generateText 0 (C.renderer {}) Naming.standard
      Request.choicesOutputs) final.1 (· == Request.choicesText) = true := by decide +kernel
  obtain ⟨hreach, handler, hhandler, hheld⟩ := Request.exists_handler final rfl hallowed hstate
  have hfree : handler.held = false := by simpa using hheld
  obtain ⟨bundle, w', text, w'', list, hgenerate, hguarded, htext, hlist, _, hstatements⟩ :=
    generate_guards_ternaries hreach hhandler hfree howned {} Naming.standard
  have hprinted := Session.check_of_succeedsWith hprinted htext
  exact ⟨final.1, final.2, handler, hreach, hhandler, hfree, howned, bundle, w', text, w'', list,
    hgenerate, hguarded, htext, eq_of_beq hprinted, hlist, hstatements⟩

end Straightline
