import Straightline.Proofs.Render.Statements
import Straightline.Proofs.Workspace.Programs

/-!
# Texts of reachable handlers

What a client gets when it asks for C statements, in any workspace that it can reach: the text is
written, and executing its assignments gives the results of the program of the same bundle.
-/

namespace Straightline

variable {α : Type}

namespace Graph.WellFormed

variable {g : Graph α} {outputs : List (Arg α)}

/-- What a pass prepares can be written with different names. -/
theorem printable (hg : g.WellFormed) (optimize reuse : Bool) (policy : Policy α)
    (hlive : ∀ id, Arg.node id ∈ outputs → ∃ node, g.recorded.get id = some node)
    {dependent independent temporary : String}
    (hapart : Naming.Apart dependent independent temporary g.display?) :
    C.Printable
      { graph := (g.prepared optimize policy outputs).2.shared reuse
        outputs := (g.prepared optimize policy outputs).1
        naming := Naming.arrays dependent independent temporary }
      dependent independent temporary := by
  have hprepares := hg.prepares optimize policy hlive
  exact {
    runnable := hprepares.runnable_shared reuse
    nodup_order := by cases reuse <;> exact hprepares.nodup
    partitioned := hg.partitioned_shared optimize reuse policy hlive
    wellFormed := (hprepares.toEvolves.shared reuse).wellFormed
    led := hg.led_shared optimize reuse policy outputs
    live := by cases reuse <;> exact hprepares.live
    naming := rfl
    apart := by
      rw [display?_shared]
      exact hapart }

/-- What a pass prepares is written, whatever the names are, as statements that assign the
expressions of stored nodes and outputs. -/
theorem exists_statements [Numeral α] (hg : g.WellFormed) (optimize reuse : Bool)
    (policy : Policy α)
    (hlive : ∀ id, Arg.node id ∈ outputs → ∃ node, g.recorded.get id = some node)
    (naming : Naming) {b : Bundle α}
    (hb : b =
      { graph := (g.prepared optimize policy outputs).2.shared reuse
        outputs := (g.prepared optimize policy outputs).1
        naming := naming }) :
    ∃ list, C.statements b = .ok list ∧ (∀ s ∈ list, ∃ x, C.Assigns b s x) ∧
      ∀ style, C.render style b = .ok (C.declaration style b ++
        String.join (list.map (C.Statement.text style (C.nameOf b)))) := by
  have hprepares := hg.prepares optimize policy hlive
  have hrunnable : b.graph.Runnable b.outputs := hb ▸ hprepares.runnable_shared reuse
  have hpartitioned : b.graph.Partitioned b.outputs :=
    hb ▸ hg.partitioned_shared optimize reuse policy hlive
  have houtputs : ∀ id, .node id ∈ b.outputs → b.graph.contains id = true := by
    subst hb
    cases reuse <;> exact hprepares.live
  obtain ⟨nodes, hassignments, hnodes⟩ := hrunnable.exists_assignments
  obtain ⟨exprs, hresults, hexprs⟩ := hrunnable.exists_results houtputs
  exact ⟨_, C.statements_eq hassignments hresults,
    fun s hs => C.exists_assigns hrunnable hnodes hexprs hs,
    fun style => C.render_of_runnable style hrunnable hpartitioned hassignments hresults⟩

end Graph.WellFormed

variable [Numeral α] {w : Workspace α} {issued : List (Symbol α)} {h : HandlerId}
  {handler : Handler α} {outputs : List (Symbol α)}

/-- With any settings, the C statements of any outputs are written. If their names are elements of
three arrays and display names that cannot be mistaken for each other, and if adding to zero and
multiplying one change nothing, the text declares the temporaries and assigns expressions, and
executing the assignments gives every output the result of the program of the same bundle. -/
theorem generateText_computes_results (hreach : Reachable w issued)
    (hhandler : w.handler? h = some handler) (hfree : handler.held = false)
    (howned : ∀ s ∈ outputs, s.Known issued ∧ Session.Owned w h s) (style : C.Style) :
    (∀ naming, ∃ text w',
      Session.generateText h (C.renderer style) naming outputs w = .ok text w') ∧
    ∀ dependent independent temporary : String,
      Naming.Apart dependent independent temporary handler.graph.display? → NeutralLaws α →
      ∃ bundle w' text w'' p list,
        Session.generate h C.policy (Naming.arrays dependent independent temporary) outputs w =
          .ok bundle w' ∧
        Session.generateText h (C.renderer style)
          (Naming.arrays dependent independent temporary) outputs w = .ok text w'' ∧
        bundle.compile = .ok p ∧ C.statements bundle = .ok list ∧
        bundle.naming = Naming.arrays dependent independent temporary ∧
        text = (if 0 < bundle.temporaryCount then
            style.indentation ++ style.baseType ++ " " ++
              Naming.element temporary bundle.temporaryCount ++ ";\n" else "") ++
          String.join (list.map (C.Statement.text style (C.nameOf bundle))) ∧
        bundle.graph.roster = handler.graph.roster ∧
        bundle.outputs.length = outputs.length ∧ C.Faithful bundle p list := by
  have hgraph := hreach.wellFormed.graph h handler hhandler
  have hlive := hreach.exists_recorded hhandler howned
  have hsymbols := fun s hs => (howned s hs).2
  have hpass := hgraph.generate_eq_prepared handler.settings C.policy hlive
  constructor
  · intro naming
    obtain ⟨list, _, _, hrender⟩ := hgraph.exists_statements handler.settings.optimize
      handler.settings.reuse C.policy hlive naming rfl
    exact ⟨_, Session.generateText_of_ok hhandler hfree (C.renderer style) naming hsymbols
      hpass (hrender style)⟩
  · intro dependent independent temporary hapart laws
    have hprintable := hgraph.printable handler.settings.optimize handler.settings.reuse C.policy
      hlive hapart
    have hprepares := hgraph.prepares handler.settings.optimize C.policy hlive
    have hroster := Graph.roster_shared handler.graph handler.settings.optimize
      handler.settings.reuse C.policy (outputs.map Symbol.toArg)
    obtain ⟨p, hcompile, _, hvalue⟩ := hprepares.exists_compile handler.settings.reuse
      (Naming.arrays dependent independent temporary)
    obtain ⟨nodes, exprs, hnodes, hexprs, hfaithful⟩ := hprintable.exists_faithful laws (p := p)
      (fun inputs val hval hinputs => hvalue inputs val
        ((Graph.isValuation_shared handler.settings.reuse).mp hval)
        (hinputs.trans (congrArg List.length hroster)))
    obtain ⟨w', hgenerate⟩ := hreach.exists_generate hhandler hfree howned C.policy
      (Naming.arrays dependent independent temporary)
    have hrender := C.render_of_runnable style hprintable.runnable hprintable.partitioned hnodes
      hexprs
    rw [C.declaration_arrays style hprintable.naming] at hrender
    obtain ⟨w'', htext⟩ := Session.generateText_of_ok hhandler hfree (C.renderer style)
      (Naming.arrays dependent independent temporary) hsymbols hpass hrender
    have hlength := congrArg List.length
      (hgraph.standsFor_prepared handler.settings.optimize C.policy hlive).outputs
    rw [List.length_map, List.length_map] at hlength
    exact ⟨_, w', _, w'', p, _, hgenerate, htext, hcompile, C.statements_eq hnodes hexprs, rfl, rfl,
      hroster, hlength, hfaithful⟩

/-- After an elimination, a client names the variable that is left, and three times takes the sine
of what was recorded last and squares it. -/
def Request.squares : List (Request ℚ) :=
  let sine (id : NodeId) : Request ℚ := .unary (.unary (.call .sin)) (.var 0 id)
  let square (id : NodeId) : Request ℚ := .binary (.binary .mul) (.var 0 id) (.var 0 id)
  Request.elimination true ++
    [.setName (.var 0 0) "t", sine 4, square 5, sine 6, square 7, sine 8, square 9]

/-- The last square twice, the eliminated variable, the other one and a parameter. -/
def Request.squaresOutputs : List (Symbol ℚ) :=
  [.var 0 10, .var 0 1, .var 0 0, .var 0 10, .param 7]

/-- Their statements: the temporaries share two slots. -/
def Request.squaresText : String :=
  "   double v[2];\n   y[1] = (t * t);\n   v[0] = sin(y[1] + t);\n" ++
  "   v[1] = sin(v[0] * v[0]);\n   v[0] = sin(v[1] * v[1]);\n   y[0] = v[0] * v[0];\n" ++
  "   y[2] = t;\n   y[3] = y[0];\n   y[4] = 7;\n"

/-- Two outputs are computed in place, three are copied, and a temporary is assigned twice. -/
theorem generateText_squares_computes_results :
    ∃ (w : Workspace ℚ) (issued : List (Symbol ℚ)) (handler : Handler ℚ), Reachable w issued ∧
      w.handler? 0 = some handler ∧ handler.held = false ∧
      (∀ s ∈ Request.squaresOutputs, s.Known issued ∧ Session.Owned w 0 s) ∧
      Naming.Apart "y" "x" "v" handler.graph.display? ∧ NeutralLaws ℚ ∧
      ∃ bundle w' text w'' p list,
        Session.generate 0 C.policy Naming.standard Request.squaresOutputs w = .ok bundle w' ∧
        Session.generateText 0 (C.renderer {}) Naming.standard Request.squaresOutputs w =
          .ok text w'' ∧
        bundle.compile = .ok p ∧ C.statements bundle = .ok list ∧ C.Faithful bundle p list ∧
        text = Request.squaresText := by
  let final := Request.runAll Request.squares {} []
  have hallowed : Request.Allowed Request.squares {} [] := by decide +kernel
  have hstate : (final.1.handler? 0).any (fun handler => !handler.held &&
      handler.graph.roster == [0] && handler.graph.displayName? 0 == some "t") = true := by
    decide +kernel
  have howned : ∀ s ∈ Request.squaresOutputs, s.Known final.2 ∧ Session.Owned final.1 0 s := by
    decide +kernel
  have hprinted : Session.succeedsWith (Session.generateText 0 (C.renderer {}) Naming.standard
      Request.squaresOutputs) final.1 (· == Request.squaresText) = true := by decide +kernel
  obtain ⟨hreach, handler, hhandler, hfacts⟩ := Request.exists_handler final rfl hallowed hstate
  obtain ⟨⟨hfree, hroster⟩, hname⟩ : (handler.held = false ∧ handler.graph.roster = [0]) ∧
      handler.graph.displayName? 0 = some "t" := by
    simpa using hfacts
  have hdisplay : ∀ i s, handler.graph.display? i = some s → i = 0 ∧ s = "t" := by
    intro i s hs
    cases i with
    | zero =>
      rw [Graph.display?, hroster] at hs
      exact ⟨rfl, Option.some.inj (hs.symm.trans hname)⟩
    | succ i => simp [Graph.display?, hroster] at hs
  have hapart : Naming.Apart "y" "x" "v" handler.graph.display? := {
    dependent_ne_independent := by decide
    dependent_ne_temporary := by decide
    independent_ne_temporary := by decide
    displays := fun i j s hi hj => (hdisplay i s hi).1.trans (hdisplay j s hj).1.symm
    elements := fun i s hi array _ n => by
      obtain ⟨_, rfl⟩ := hdisplay i s hi
      exact Naming.ne_element (by decide) array n }
  have laws : NeutralLaws ℚ := ⟨zero_add, one_mul⟩
  obtain ⟨bundle, w', text, w'', p, list, hgenerate, htext, hcompile, hlist, _, _, _, _,
    hfaithful⟩ :=
    (generateText_computes_results hreach hhandler hfree howned {}).2 "y" "x" "v" hapart laws
  have hprinted := Session.check_of_succeedsWith hprinted htext
  exact ⟨final.1, final.2, handler, hreach, hhandler, hfree, howned, hapart, laws, bundle, w', text,
    w'', p, list, hgenerate, htext, hcompile, hlist, hfaithful, eq_of_beq hprinted⟩

end Straightline
