import Straightline.Proofs.Render.Literals
import Straightline.Proofs.Workspace.Rendering

/-!
# Texts that are read back

The C statements of a reachable handler are read back by the grammar of C: what a statement assigns
is parsed to the syntax tree of the expression of a node or an output, and has its value.
-/

namespace Straightline

variable {α : Type}

/-- The bundle that a pass over a handler gives. -/
def Handler.bundle (handler : Handler α) (policy : Policy α) (naming : Naming)
    (outputs : List (Symbol α)) : Bundle α :=
  let prepared := handler.graph.prepared handler.settings.optimize policy
    (outputs.map Symbol.toArg)
  { graph := prepared.2.shared handler.settings.reuse, outputs := prepared.1, naming := naming }

/-- Selects are stored. -/
theorem C.stores_of_isComparison {node : Node α} {refs : Nat}
    (h : node.operation.opcode.isComparison = true) : C.policy.stores node refs = true := by
  simp [C.policy, h]

variable [Numeral α] {w : Workspace α} {issued : List (Symbol α)} {h : HandlerId}
  {handler : Handler α} {outputs : List (Symbol α)}

/-- The C statements of any outputs are written, and assign the expressions of stored nodes and
outputs. -/
theorem Reachable.exists_statements (hreach : Reachable w issued)
    (hhandler : w.handler? h = some handler) (hfree : handler.held = false)
    (howned : ∀ s ∈ outputs, s.Known issued ∧ Session.Owned w h s) (style : C.Style)
    (naming : Naming) :
    ∃ w' text w'' list,
      Session.generate h C.policy naming outputs w =
        .ok (handler.bundle C.policy naming outputs) w' ∧
      Session.generateText h (C.renderer style) naming outputs w = .ok text w'' ∧
      C.statements (handler.bundle C.policy naming outputs) = .ok list ∧
      text = C.declaration style (handler.bundle C.policy naming outputs) ++
        String.join (list.map
          (C.Statement.text style (C.nameOf (handler.bundle C.policy naming outputs)))) ∧
      ∀ s ∈ list, ∃ x, C.Assigns (handler.bundle C.policy naming outputs) s x := by
  have hgraph := hreach.wellFormed.graph h handler hhandler
  have hlive := hreach.exists_recorded hhandler howned
  have hpass := hgraph.generate_eq_prepared handler.settings C.policy hlive
  obtain ⟨list, hlist, hassigns, hrender⟩ := hgraph.exists_statements handler.settings.optimize
    handler.settings.reuse C.policy hlive naming rfl
  obtain ⟨w', hgenerate⟩ := hreach.exists_generate hhandler hfree howned C.policy naming
  obtain ⟨w'', htext⟩ := Session.generateText_of_ok hhandler hfree (C.renderer style) naming
    (fun s hs => (howned s hs).2) hpass (hrender style)
  exact ⟨w', _, w'', list, hgenerate, htext, hlist, rfl, hassigns⟩

namespace C

end C

namespace Reachable

variable {naming : Naming} {s : C.Statement α} {x : Arg α}

/-- The chains of a statement begin with direct terms. -/
theorem led_statement (hreach : Reachable w issued) (hhandler : w.handler? h = some handler)
    (hx : C.Assigns (handler.bundle C.policy naming outputs) s x) : s.value.Led :=
  hx.led ((hreach.wellFormed.graph h handler hhandler).led_shared handler.settings.optimize
    handler.settings.reuse C.policy (outputs.map Symbol.toArg))

/-- If no recorded node copies a constant, what a statement assigns is parsed to the tree of the
expression. -/
theorem parse?_statement [C.Written α] (hreach : Reachable w issued)
    (hhandler : w.handler? h = some handler)
    (howned : ∀ s ∈ outputs, s.Known issued ∧ Session.Owned w h s)
    (hcopy : handler.graph.Uncopied)
    (hx : C.Assigns (handler.bundle C.policy naming outputs) s x) {place : NodeId → C.Tree}
    (hplaces : ∀ id ∈ (handler.bundle C.policy naming outputs).graph.roster ++
        (handler.bundle C.policy naming outputs).graph.order,
      C.IsPlace (C.nameOf (handler.bundle C.policy naming outputs) id) (place id)) :
    C.parse? (C.expressionText (C.nameOf (handler.bundle C.policy naming outputs)) s.position
      s.value) = some (C.treeOf place s.value) := by
  have hgraph := hreach.wellFormed.graph h handler hhandler
  obtain ⟨P, hlegible, houtputs, horder⟩ := hgraph.exists_legible hcopy
    (fun _ _ => C.stores_of_isComparison) (hreach.exists_recorded hhandler howned)
    handler.settings.optimize handler.settings.reuse
  have hreads := C.reads_expressionText s.value s.position (hreach.led_statement hhandler hx)
    (hx.legible hlegible houtputs horder) (s.value.loads_mono hplaces hx.loads)
  exact (hreads.mono (C.levelAt_le _ _) (Nat.le_refl 5)).parse?_eq

end Reachable

end Straightline
