import Straightline.Proofs.Render.Execution
import Straightline.Proofs.Render.Legibility

/-!
# What statements assign

Every statement assigns the expression of a stored node, or of an output that is not computed in
place. What the expression loads is stored, so that its text names nothing else.
-/

namespace Straightline

variable {α : Type}

namespace Graph.Runnable

variable {b : Bundle α}

/-- What a stored node reads is stored. -/
theorem mem_of_reads (h : b.graph.Runnable b.outputs) {id k : NodeId} (hid : id ∈ b.graph.order)
    (hread : Reads b.graph.references b.graph.slot id k) :
    k ∈ b.graph.roster ++ b.graph.order := by
  obtain ⟨before, after, horder⟩ := List.append_of_mem hid
  exact List.mem_append.mpr
    (C.Printable.stored_of_held horder (h.safe before id after horder k hread))

/-- What an output leads to is stored. -/
theorem mem_of_leaf (h : b.graph.Runnable b.outputs) {x : Arg α} {k : NodeId} (hx : x ∈ b.outputs)
    (hleaf : b.graph.Leaf x k) : k ∈ b.graph.roster ++ b.graph.order := by
  obtain ⟨m, rfl, ⟨_, rfl⟩ | ⟨hzero, _⟩⟩ := hleaf
  · exact List.mem_append.mpr
      (C.Printable.stored_of_held (List.append_nil _).symm (h.results k hx))
  · exact absurd hzero (h.slot_ne_zero (h.results m hx))

end Graph.Runnable

namespace C

variable [Scalar α] {b : Bundle α} {s : Statement α} {x : Arg α}

/-- A statement assigns the expression of a stored node, or of an output. -/
structure Assigns (b : Bundle α) (s : Statement α) (x : Arg α) : Prop where
  /-- What is assigned, and under which name. -/
  source : (∃ id ∈ b.graph.order, x = .node id ∧ s.target = nameOf b id ∧
      b.graph.expandNode id = .ok s.value) ∨
    ∃ i, b.outputs[i]? = some x ∧ s.target = b.naming.dependent i ∧
      b.graph.expand (b.graph.next + 1) x = .ok s.value
  /-- The expression loads independent variables and stored nodes. -/
  loads : s.value.Loads (· ∈ b.graph.roster ++ b.graph.order)
  /-- Its value is that of the node or the output. -/
  eval : ∀ val, b.graph.Valuates val → s.value.eval val = x.eval val

theorem exists_assigns (h : b.graph.Runnable b.outputs) {nodes : List (NodeId × Expression α)}
    {exprs : List (Expression α)} (hnodes : List.Forall₂ b.graph.Expands b.graph.order nodes)
    (hexprs : Results b exprs) (hs : s ∈ stores b nodes ++ copies b exprs) :
    ∃ x, Assigns b s x := by
  rcases List.mem_append.mp hs with hs | hs
  · obtain ⟨node, hnode, rfl⟩ := List.mem_map.mp hs
    obtain ⟨id, hmem, hexpands⟩ := exists_mem_of_forall₂ hnodes hnode
    exact ⟨.node id, .inl ⟨id, hmem, rfl, congrArg (nameOf b) hexpands.node, hexpands.expanded⟩,
      node.2.loads_mono (fun k hk => h.mem_of_reads hmem hk) hexpands.loads, hexpands.eval⟩
  · obtain ⟨i, x, e, hx, he, _, rfl⟩ := mem_copies.mp hs
    obtain ⟨hexpand, hdenotes⟩ := hexprs.getElem? hx he
    exact ⟨x, .inr ⟨i, hx, rfl, hexpand⟩,
      e.loads_mono (fun k hk => h.mem_of_leaf (List.mem_of_getElem? hx) hk) hdenotes.loads,
      hdenotes.eval⟩

theorem Assigns.led (h : Assigns b s x) (hled : b.graph.Led) : s.value.Led := by
  rcases h.source with ⟨id, _, _, _, hexpand⟩ | ⟨i, _, _, hexpand⟩
  · exact hled.expandNode hexpand
  · exact hled.expand hexpand

theorem Assigns.legible {P : NodeId → Prop} (h : Assigns b s x) (hlegible : b.graph.Legible P)
    (houtputs : ∀ id, .node id ∈ b.outputs → P id) (horder : ∀ id ∈ b.graph.order, P id) :
    s.value.Legible := by
  rcases h.source with ⟨id, hid, _, _, hexpand⟩ | ⟨i, hx, _, hexpand⟩
  · exact hlegible.expandNode (horder id hid) hexpand
  · exact (hlegible.expand hexpand fun id hid => houtputs id (hid ▸ List.mem_of_getElem? hx)).1

end C

end Straightline
