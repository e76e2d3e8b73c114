import Straightline.Proofs.Graph.WellFormed

/-!
# Evolution of a graph

What every request does to the graph of a handler: it stays well formed, identifiers are only
issued, and an identifier that was issued for a recorded node never becomes one of a flattened
node. References of a client therefore keep their meaning, or lose it for good.
-/

namespace Straightline

namespace Graph

variable {α : Type} {g g' g'' : Graph α}

/-- How a graph may change between two requests. -/
structure Evolves (g g' : Graph α) : Prop where
  /-- The graph is well formed. -/
  wellFormed : g'.WellFormed
  /-- Identifiers are only issued. -/
  next_le : g.next ≤ g'.next
  /-- Identifiers issued before belong to no new node of a flattened graph. -/
  flat : ∀ id : Nat, id < g.next → g.flatNode? id = none → g'.flatNode? id = none

theorem Evolves.refl (h : g.WellFormed) : g.Evolves g :=
  ⟨h, Nat.le_refl _, fun _ _ hid => hid⟩

theorem Evolves.trans (h : g.Evolves g') (h' : g'.Evolves g'') : g.Evolves g'' :=
  ⟨h'.wellFormed, Nat.le_trans h.next_le h'.next_le, fun id hlt hid =>
    h'.flat id (Nat.lt_of_lt_of_le hlt h.next_le) (h.flat id hlt hid)⟩

/-- A graph without a flattened one evolved from every graph with fewer identifiers. -/
theorem Evolves.of_unflattened (h : g'.WellFormed) (hnext : g.next ≤ g'.next)
    (hflat : g'.pass.flat = none) : g.Evolves g' :=
  ⟨h, hnext, fun id _ _ => by rw [flatNode?, hflat, Option.bind_none]⟩

theorem WellFormed.evolves_record (h : g.WellFormed) {op : Operation (Arg α)}
    (hrefs : ∀ k ∈ op.references, ∃ m, g.recorded.get k = some m)
    (hchain : op.opcode.isChain = false) (hnot : op.opcode ≠ .independent)
    (hground : op.opcode ≠ .copy → op.references ≠ []) : g.Evolves (g.record op).2 :=
  ⟨h.record hrefs hchain hnot hground, Nat.le_succ _, fun _ _ hid => hid⟩

theorem WellFormed.evolves_addIndependent (h : g.WellFormed) : g.Evolves g.addIndependent.2 :=
  ⟨h.addIndependent, Nat.le_succ _, fun _ _ hid => hid⟩

theorem WellFormed.evolves_setName (h : g.WellFormed) (id : NodeId) (name : String) :
    g.Evolves (g.setName id name) := by
  refine ⟨h.setName id name, ?_, ?_⟩
  · unfold Graph.setName
    split <;> exact Nat.le_refl _
  · intro k _ hk
    have hflat := (operation?_setName g id name k).2
    rw [hk, Option.map_none, Option.map_eq_none_iff] at hflat
    exact hflat

theorem WellFormed.evolves_eliminate (h : g.WellFormed) {index : Nat} {target : NodeId}
    {solved : Arg α} (hindex : g.rosterIndex? target = some index)
    (hsolved : ∀ k, solved.node? = some k →
      (∃ m, g.recorded.get k = some m) ∧ ¬ Reaches g.references k target) :
    g.Evolves (g.eliminate index target solved) :=
  ⟨h.eliminate hindex hsolved, Nat.le_refl _, fun _ _ hid => hid⟩

theorem evolves_reset (g : Graph α) : g.Evolves g.reset :=
  .of_unflattened (WellFormed.reset g) (Nat.le_refl _) rfl

end Graph

end Straightline
