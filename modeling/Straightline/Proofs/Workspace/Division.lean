import Straightline.Proofs.Render.Types
import Straightline.Proofs.Workspace.Parsing

/-!
# Divisions of written texts

Which divisions of the C statements of a reachable handler are divisions of integers.
-/

namespace Straightline

variable {α : Type} [Numeral α] {w : Workspace α} {issued : List (Symbol α)} {h : HandlerId}
  {handler : Handler α} {outputs : List (Symbol α)}

namespace C

variable {b : Bundle α} {s : Statement α} {x : Arg α}

/-- Without signs no statement divides integers. -/
theorem Assigns.floating (h : Assigns b s x) (hunsigned : b.graph.Each Operation.Unsigned) :
    s.value.Floating := by
  rcases h.source with ⟨id, _, _, _, hexpand⟩ | ⟨i, _, _, hexpand⟩
  · exact hunsigned.floating_expandNode hexpand
  · exact hunsigned.floating_expand hexpand

end C

/-- With any settings, the C statements of any outputs are written, and each of them assigns the
expression of a stored node or an output. If the names are identifiers or elements of arrays, a
statement has a division of two integers exactly if its expression divides something built from
signs alone by something built from signs alone; so without recorded signs every division has a
floating operand. The types are those of the text, if no recorded node copies a constant. -/
theorem generateText_truncates_signs [C.Scientific α] (hreach : Reachable w issued)
    (hhandler : w.handler? h = some handler) (hfree : handler.held = false)
    (howned : ∀ s ∈ outputs, s.Known issued ∧ Session.Owned w h s) (style : C.Style)
    (naming : Naming) :
    ∃ bundle w' text w'' list,
      Session.generate h C.policy naming outputs w = .ok bundle w' ∧
      Session.generateText h (C.renderer style) naming outputs w = .ok text w'' ∧
      C.statements bundle = .ok list ∧
      text = C.declaration style bundle ++
        String.join (list.map (C.Statement.text style (C.nameOf bundle))) ∧
      ∀ place : NodeId → C.Tree,
        (∀ id ∈ bundle.graph.roster ++ bundle.graph.order,
          C.IsPlace (C.nameOf bundle id) (place id)) →
        ∀ s ∈ list, ∃ x, C.Assigns bundle s x ∧
          (handler.graph.Uncopied →
            C.parse? (C.expressionText (C.nameOf bundle) s.position s.value) =
              some (C.treeOf place s.value)) ∧
          ((∃ d ∈ (C.treeOf place s.value).divisions,
            d.1.isFloating = false ∧ d.2.isFloating = false) ↔ s.value.dividesSigns = true) ∧
          ((∀ id node, handler.graph.recorded.get id = some node →
              node.operation.opcode ≠ .unary .sign) →
            ∀ d ∈ (C.treeOf place s.value).divisions,
              d.1.isFloating = true ∨ d.2.isFloating = true) := by
  obtain ⟨w', text, w'', list, hgenerate, htext, hlist, hlines, hassigns⟩ :=
    hreach.exists_statements hhandler hfree howned style naming
  refine ⟨_, w', text, w'', list, hgenerate, htext, hlist, hlines, fun place hplaces s hs => ?_⟩
  obtain ⟨x, hx⟩ := hassigns s hs
  have htruncates := C.truncates_treeOf s.value (hreach.led_statement hhandler hx)
    (s.value.loads_mono hplaces hx.loads)
  refine ⟨x, hx, fun hcopy => hreach.parse?_statement hhandler howned hcopy hx hplaces, ?_,
    fun hsigns => ?_⟩
  · rw [← C.truncates_iff, htruncates]
  · have hgraph := hreach.wellFormed.graph h handler hhandler
    have hunsigned := Graph.each_shared Operation.lasting_unsigned
      (fun id node hnode => ⟨hgraph.led_recorded hnode, hsigns id node hnode⟩)
      handler.settings.optimize handler.settings.reuse C.policy (outputs.map Symbol.toArg)
    rw [(hx.floating hunsigned).2] at htruncates
    exact C.truncates_eq_false_iff.mp htruncates

/-- A client divides the sign of one variable by the sum of the signs of two others. -/
def Request.signs : List (Request Float) :=
  [.create {}, .newVariable 0, .newVariable 0, .newVariable 0, .unary (.unary .sign) (.var 0 0),
    .unary (.unary .sign) (.var 0 1), .unary (.unary .sign) (.var 0 2),
    .binary (.binary .add) (.var 0 4) (.var 0 5), .binary (.binary .div) (.var 0 3) (.var 0 6)]

/-- What the text assigns. -/
def Request.signsQuotient : String :=
  "(x[0] > 0 ? 1 : (x[0] == 0 ? 0 : -1)) / " ++
  "((x[1] > 0 ? 1 : (x[1] == 0 ? 0 : -1)) + (x[2] > 0 ? 1 : (x[2] == 0 ? 0 : -1)))"

/-- The quotient is one half where the variables are positive, but the text divides integers. -/
theorem generateText_signs_divides_integers :
    ∃ (w : Workspace Float) (issued : List (Symbol Float)) (handler : Handler Float),
      Reachable w issued ∧ w.handler? 0 = some handler ∧ handler.held = false ∧
      (∀ s ∈ [Symbol.var 0 7], s.Known issued ∧ Session.Owned w 0 s) ∧
      ∃ bundle w' p w'' tree,
        Session.generate 0 C.policy Naming.standard [.var 0 7] w = .ok bundle w' ∧
        bundle.compile = .ok p ∧ p.evaluate [1, 1, 1] = .ok [0.5] ∧
        Session.generateText 0 (C.renderer {}) Naming.standard [.var 0 7] w =
          .ok ("   y[0] = " ++ Request.signsQuotient ++ ";\n") w'' ∧
        C.parse? Request.signsQuotient = some tree ∧
        ∃ d ∈ tree.divisions, d.1.isFloating = false ∧ d.2.isFloating = false := by
  let final := Request.runAll Request.signs {} []
  have hallowed : Request.Allowed Request.signs {} [] := by decide +kernel
  have hstate : (final.1.handler? 0).any (fun handler => !handler.held) = true := by
    decide +kernel
  have howned : ∀ s ∈ [Symbol.var 0 7], s.Known final.2 ∧ Session.Owned final.1 0 s := by
    decide +kernel
  have hvalue : Session.succeedsWith (Session.generate 0 C.policy Naming.standard [.var 0 7])
      final.1 (fun bundle => bundle.compile.toOption.any fun p =>
        (p.evaluate [1, 1, 1]).toOption.any (· = [0.5])) = true := by decide +kernel
  have hprinted : Session.succeedsWith (Session.generateText 0 (C.renderer {}) Naming.standard
      [.var 0 7]) final.1 (· == "   y[0] = " ++ Request.signsQuotient ++ ";\n") = true := by
    decide +kernel
  have hparsed : (C.parse? Request.signsQuotient).any C.Tree.truncates = true := by
    decide +kernel
  obtain ⟨hreach, handler, hhandler, hheld⟩ := Request.exists_handler final rfl hallowed hstate
  have hfree : handler.held = false := by simpa using hheld
  obtain ⟨w', text, w'', _, hgenerate, htext, _⟩ :=
    hreach.exists_statements hhandler hfree howned {} Naming.standard
  have hvalue := Session.check_of_succeedsWith hvalue hgenerate
  obtain ⟨p, hcompile, hvalue⟩ := exists_ok_of_any hvalue
  obtain ⟨values, hevaluate, hvalues⟩ := exists_ok_of_any hvalue
  obtain ⟨tree, hparse, htree⟩ := (Option.any_eq_true ..).mp hparsed
  have hprinted := Session.check_of_succeedsWith hprinted htext
  obtain rfl := eq_of_beq hprinted
  obtain rfl := of_decide_eq_true hvalues
  exact ⟨final.1, final.2, handler, hreach, hhandler, hfree, howned, _, w', p, w'', tree, hgenerate,
    hcompile, hevaluate, htext, hparse, C.truncates_iff.mp htree⟩

/-- The only statement of the quotient has a division of integers. -/
theorem generateText_signs_truncates_signs :
    ∃ (w : Workspace Float) (issued : List (Symbol Float)) (handler : Handler Float),
      Reachable w issued ∧ w.handler? 0 = some handler ∧ handler.held = false ∧
      (∀ s ∈ [Symbol.var 0 7], s.Known issued ∧ Session.Owned w 0 s) ∧
      handler.graph.Uncopied ∧
      ∃ bundle w' list, ∃ place : NodeId → C.Tree,
        Session.generate 0 C.policy Naming.standard [.var 0 7] w = .ok bundle w' ∧
        C.statements bundle = .ok list ∧ list ≠ [] ∧
        (∀ id ∈ bundle.graph.roster ++ bundle.graph.order,
          C.IsPlace (C.nameOf bundle id) (place id)) ∧
        ∀ s ∈ list, s.value.dividesSigns = true ∧
          C.parse? (C.expressionText (C.nameOf bundle) s.position s.value) =
            some (C.treeOf place s.value) ∧
          ∃ d ∈ (C.treeOf place s.value).divisions,
            d.1.isFloating = false ∧ d.2.isFloating = false := by
  let final := Request.runAll Request.signs {} []
  have hallowed : Request.Allowed Request.signs {} [] := by decide +kernel
  have hstate : (final.1.handler? 0).any (fun handler => !handler.held &&
      handler.graph.isUncopied) = true := by
    decide +kernel
  have howned : ∀ s ∈ [Symbol.var 0 7], s.Known final.2 ∧ Session.Owned final.1 0 s := by
    decide +kernel
  have hnames : Session.succeedsWith (Session.generate 0 C.policy Naming.standard [.var 0 7])
      final.1 (fun bundle => (bundle.graph.roster ++ bundle.graph.order).all fun id =>
        C.isElement (C.nameOf bundle id)) = true := by decide +kernel
  have hdivides : Session.succeedsWith (Session.generate 0 C.policy Naming.standard [.var 0 7])
      final.1 (fun bundle => (C.statements bundle).toOption.any fun list => !list.isEmpty &&
        list.all fun s => s.value.dividesSigns) = true := by decide +kernel
  obtain ⟨hreach, handler, hhandler, hfacts⟩ := Request.exists_handler final rfl hallowed hstate
  obtain ⟨hfree, hcheck⟩ : handler.held = false ∧ handler.graph.isUncopied = true := by
    simpa using hfacts
  have hcopy := (hreach.wellFormed.graph 0 handler hhandler).uncopied hcheck
  obtain ⟨bundle, w', _, _, list, hgenerate, _, hlist, _, htyped⟩ :=
    generateText_truncates_signs hreach hhandler hfree howned {} Naming.standard
  have hnames := Session.check_of_succeedsWith hnames hgenerate
  have hdivides := Session.check_of_succeedsWith hdivides hgenerate
  obtain ⟨_, heq, hdivides⟩ := exists_ok_of_any hdivides
  obtain rfl := Except.ok.inj (heq.symm.trans hlist)
  obtain ⟨hsome, hall⟩ := Bool.and_eq_true_iff.mp hdivides
  have hplaces : ∀ id ∈ bundle.graph.roster ++ bundle.graph.order,
      C.IsPlace (C.nameOf bundle id) (C.placeOf (C.nameOf bundle id)) :=
    fun id hid => C.isPlace_placeOf (List.all_eq_true.mp hnames id hid)
  refine ⟨final.1, final.2, handler, hreach, hhandler, hfree, howned, hcopy, bundle, w', _, _,
    hgenerate, hlist, by simpa using hsome, hplaces, fun s hs => ?_⟩
  obtain ⟨x, _, hparse, hiff, _⟩ := htyped _ hplaces s hs
  have hs := List.all_eq_true.mp hall s hs
  exact ⟨hs, hparse hcopy, hiff.mpr hs⟩

end Straightline
