import Straightline.Proofs.Render.Decrement
import Straightline.Proofs.Workspace.Parsing

/-!
# Minus signs of written texts

In which C statements of a reachable handler two minus signs are adjacent.
-/

namespace Straightline

variable {α : Type}

/-- The names of a bundle have no minus sign. -/
structure Bundle.MinusFree (b : Bundle α) : Prop where
  /-- The names of the independent variables and the stored nodes. -/
  stored : ∀ id ∈ b.graph.roster ++ b.graph.order, '-' ∉ (C.nameOf b id).toList
  /-- The names of the outputs. -/
  dependent : ∀ i < b.outputs.length, '-' ∉ (b.naming.dependent i).toList

/-- The same as a check. -/
def Bundle.isMinusFree (b : Bundle α) : Bool :=
  ((b.graph.roster ++ b.graph.order).all fun id => !(C.nameOf b id).toList.contains '-') &&
    (List.range b.outputs.length).all fun i => !(b.naming.dependent i).toList.contains '-'

theorem Bundle.minusFree {b : Bundle α} (hcheck : b.isMinusFree = true) : b.MinusFree := by
  obtain ⟨hstored, hdependent⟩ := Bool.and_eq_true_iff.mp hcheck
  refine ⟨fun id hid => ?_, fun i hi => ?_⟩
  · simpa using List.all_eq_true.mp hstored id hid
  · simpa using List.all_eq_true.mp hdependent i (List.mem_range.mpr hi)

variable [Numeral α] {w : Workspace α} {issued : List (Symbol α)} {h : HandlerId}
  {handler : Handler α} {outputs : List (Symbol α)}

theorem C.Assigns.not_mem_target {b : Bundle α} {s : C.Statement α} {x : Arg α}
    (hx : C.Assigns b s x) (hnames : b.MinusFree) : '-' ∉ s.target.toList := by
  rcases hx.source with ⟨id, hid, _, htarget, _⟩ | ⟨i, hi, htarget, _⟩
  · rw [htarget]
    exact hnames.stored id (List.mem_append_right _ hid)
  · rw [htarget]
    exact hnames.dependent i (List.getElem?_eq_some_iff.mp hi).1

/-- With any settings, the C statements of any outputs are written, and each of them assigns the
expression of a stored node or an output. If the names have no minus sign, two minus signs are
adjacent in a statement exactly if its indentation has adjacent minus signs or its expression
negates a negative zero. So if no recorded node copies a negative zero, no decrement is read from
the statements, however far they are read. -/
theorem generateText_decrements_zeros [C.Written α] (hreach : Reachable w issued)
    (hhandler : w.handler? h = some handler) (hfree : handler.held = false)
    (howned : ∀ s ∈ outputs, s.Known issued ∧ Session.Owned w h s) (style : C.Style)
    (naming : Naming) :
    ∃ bundle w' text w'' list,
      Session.generate h C.policy naming outputs w = .ok bundle w' ∧
      Session.generateText h (C.renderer style) naming outputs w = .ok text w'' ∧
      C.statements bundle = .ok list ∧
      text = C.declaration style bundle ++
        String.join (list.map (C.Statement.text style (C.nameOf bundle))) ∧
      (bundle.MinusFree → ∀ s ∈ list, ∃ x, C.Assigns bundle s x ∧
        (C.Decrements (s.text style (C.nameOf bundle)) ↔
          C.Decrements style.indentation ∨ s.value.negatesZero = true) ∧
        (¬ C.Decrements style.indentation → handler.graph.Spared →
          ¬ C.Decrements (s.text style (C.nameOf bundle)) ∧
          ∀ ts rest, C.Lexes (s.text style (C.nameOf bundle)).toList ts rest →
            .symbol "--" ∉ ts)) := by
  obtain ⟨w', text, w'', list, hgenerate, htext, hlist, hlines, hassigns⟩ :=
    hreach.exists_statements hhandler hfree howned style naming
  refine ⟨_, w', text, w'', list, hgenerate, htext, hlist, hlines, fun hnames s hs => ?_⟩
  obtain ⟨x, hx⟩ := hassigns s hs
  have hiff := C.decrements_statement (hx.not_mem_target hnames)
    (hreach.led_statement hhandler hx) (s.value.loads_mono hnames.stored hx.loads) style
  refine ⟨x, hx, hiff, fun hindentation hspared => ?_⟩
  have hgraph := hreach.wellFormed.graph h handler hhandler
  have hzero := hx.negatesZero (hgraph.spares_shared hspared handler.settings.optimize
    handler.settings.reuse C.policy (outputs.map Symbol.toArg))
  have hnone : ¬ C.Decrements
      (s.text style (C.nameOf (handler.bundle C.policy naming outputs))) := by
    simp [hiff, hindentation, hzero]
  exact ⟨hnone, fun ts rest hlexes hmem => hnone (C.decrements_of_lexes hlexes hmem)⟩

/-- A client solves for the zero of a negation, which is a negative zero. -/
def Request.zero : List (Request Float) :=
  [.create {}, .newVariable 0, .unary (.unary .neg) (.var 0 0),
    .eliminate 0 (.var 0 0) (.var 0 1)]

/-- The negation is zero, but its text decrements a constant, which is no expression of C. -/
theorem generateText_zero_decrements :
    ∃ (w : Workspace Float) (issued : List (Symbol Float)) (handler : Handler Float),
      Reachable w issued ∧ w.handler? 0 = some handler ∧ handler.held = false ∧
      (∀ s ∈ [Symbol.var 0 1], s.Known issued ∧ Session.Owned w 0 s) ∧
      ∃ bundle w' p w'' ts,
        Session.generate 0 C.policy Naming.standard [.var 0 1] w = .ok bundle w' ∧
        bundle.compile = .ok p ∧ p.evaluate [] = .ok [0] ∧
        Session.generateText 0 (C.renderer {}) Naming.standard [.var 0 1] w =
          .ok "   y[0] = --0e0;\n" w'' ∧
        C.Decrements "   y[0] = --0e0;\n" ∧ C.tokens? "   y[0] = --0e0;\n" = some ts ∧
        .symbol "--" ∈ ts ∧ C.parse? "--0e0" = none := by
  let final := Request.runAll Request.zero {} []
  have hallowed : Request.Allowed Request.zero {} [] := by decide +kernel
  have hstate : (final.1.handler? 0).any (fun handler => !handler.held) = true := by
    decide +kernel
  have howned : ∀ s ∈ [Symbol.var 0 1], s.Known final.2 ∧ Session.Owned final.1 0 s := by
    decide +kernel
  have hvalue : Session.succeedsWith (Session.generate 0 C.policy Naming.standard [.var 0 1])
      final.1 (fun bundle => bundle.compile.toOption.any fun p =>
        (p.evaluate []).toOption.any (· = [0])) = true := by decide +kernel
  have hprinted : Session.succeedsWith (Session.generateText 0 (C.renderer {}) Naming.standard
      [.var 0 1]) final.1 (· == "   y[0] = --0e0;\n") = true := by decide +kernel
  have htokens : (C.tokens? "   y[0] = --0e0;\n").any (·.contains (.symbol "--")) = true := by
    decide +kernel
  obtain ⟨hreach, handler, hhandler, hheld⟩ := Request.exists_handler final rfl hallowed hstate
  have hfree : handler.held = false := by simpa using hheld
  obtain ⟨w', text, w'', _, hgenerate, htext, _⟩ :=
    hreach.exists_statements hhandler hfree howned {} Naming.standard
  have hvalue := Session.check_of_succeedsWith hvalue hgenerate
  obtain ⟨p, hcompile, hvalue⟩ := exists_ok_of_any hvalue
  obtain ⟨values, hevaluate, hvalues⟩ := exists_ok_of_any hvalue
  obtain ⟨ts, hts, hmem⟩ := (Option.any_eq_true ..).mp htokens
  have hprinted := Session.check_of_succeedsWith hprinted htext
  obtain rfl := eq_of_beq hprinted
  obtain rfl := of_decide_eq_true hvalues
  exact ⟨final.1, final.2, handler, hreach, hhandler, hfree, howned, _, w', p, w'', ts, hgenerate,
    hcompile, hevaluate, htext, by decide +kernel, hts, by simpa using hmem, by decide +kernel⟩

/-- A client solves a sum for minus two and negates the solution, and negates the difference of
another variable and a negative parameter. -/
def Request.minuses : List (Request Float) :=
  [.create {}, .newVariable 0, .newVariable 0, .binary (.binary .add) (.var 0 0) (.param 2),
    .eliminate 0 (.var 0 0) (.var 0 2), .unary (.unary .neg) (.var 0 0),
    .binary (.binary .sub) (.var 0 1) (.param (-0.5)), .unary (.unary .neg) (.var 0 4)]

/-- The text of both negations. -/
def Request.minusesText : String :=
  "   y[0] = -(-2e0);\n   y[1] = -(x[0] - (-5e-1));\n"

/-- Negative numbers other than zero are enclosed, so that no decrement is read. -/
theorem generateText_minuses_decrements_zeros :
    ∃ (w : Workspace Float) (issued : List (Symbol Float)) (handler : Handler Float),
      Reachable w issued ∧ w.handler? 0 = some handler ∧ handler.held = false ∧
      (∀ s ∈ [Symbol.var 0 3, .var 0 5], s.Known issued ∧ Session.Owned w 0 s) ∧
      handler.graph.Spared ∧ ¬ C.Decrements ({} : C.Style).indentation ∧
      ∃ bundle w' text w'' list,
        Session.generate 0 C.policy Naming.standard [.var 0 3, .var 0 5] w = .ok bundle w' ∧
        Session.generateText 0 (C.renderer {}) Naming.standard [.var 0 3, .var 0 5] w =
          .ok text w'' ∧
        C.statements bundle = .ok list ∧ text = Request.minusesText ∧ list.length = 2 ∧
        bundle.MinusFree ∧
        ∀ s ∈ list, ¬ C.Decrements (s.text {} (C.nameOf bundle)) ∧
          ∀ ts rest, C.Lexes (s.text {} (C.nameOf bundle)).toList ts rest →
            .symbol "--" ∉ ts := by
  let final := Request.runAll Request.minuses {} []
  have hallowed : Request.Allowed Request.minuses {} [] := by decide +kernel
  have hstate : (final.1.handler? 0).any (fun handler => !handler.held &&
      handler.graph.isSpared) = true := by decide +kernel
  have howned : ∀ s ∈ [Symbol.var 0 3, .var 0 5],
      s.Known final.2 ∧ Session.Owned final.1 0 s := by decide +kernel
  have hprinted : Session.succeedsWith (Session.generateText 0 (C.renderer {}) Naming.standard
      [.var 0 3, .var 0 5]) final.1 (· == Request.minusesText) = true := by decide +kernel
  have hbundle : Session.succeedsWith (Session.generate 0 C.policy Naming.standard
      [.var 0 3, .var 0 5]) final.1 (fun bundle => bundle.isMinusFree &&
        (C.statements bundle).toOption.any (·.length == 2)) = true := by decide +kernel
  obtain ⟨hreach, handler, hhandler, hfacts⟩ := Request.exists_handler final rfl hallowed hstate
  obtain ⟨hfree, hcheck⟩ : handler.held = false ∧ handler.graph.isSpared = true := by
    simpa using hfacts
  have hspared := (hreach.wellFormed.graph 0 handler hhandler).spared hcheck
  obtain ⟨bundle, w', text, w'', list, hgenerate, htext, hlist, _, hdecrements⟩ :=
    generateText_decrements_zeros hreach hhandler hfree howned {} Naming.standard
  have hprinted := Session.check_of_succeedsWith hprinted htext
  have hbundle := Session.check_of_succeedsWith hbundle hgenerate
  obtain ⟨hnames, hlength⟩ := Bool.and_eq_true_iff.mp hbundle
  obtain ⟨_, heq, hlength⟩ := exists_ok_of_any hlength
  obtain rfl := Except.ok.inj (heq.symm.trans hlist)
  have hindentation : ¬ C.Decrements ({} : C.Style).indentation := by decide
  refine ⟨final.1, final.2, handler, hreach, hhandler, hfree, howned, hspared, hindentation,
    bundle, w', text, w'', _, hgenerate, htext, hlist, eq_of_beq hprinted, eq_of_beq hlength,
    Bundle.minusFree hnames, fun s hs => ?_⟩
  obtain ⟨x, _, _, hnone⟩ := hdecrements (Bundle.minusFree hnames) s hs
  exact hnone hindentation hspared

end Straightline
