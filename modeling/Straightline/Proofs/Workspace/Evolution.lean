import Straightline.Proofs.Graph.Evolution
import Straightline.Workspace.Basic

/-!
# Evolution of a workspace

A workspace is well formed if the graphs of its handlers are. Over time every handler lets its
graph evolve or is dropped for good. A symbol is safe if it names no node of a flattened graph, now
or later; a safe symbol of a live node names a recorded one.
-/

namespace Straightline

namespace Workspace

variable {α : Type} {w w' w'' : Workspace α} {h : HandlerId} {handler : Handler α}

/-- The graphs of all handlers are well formed. -/
structure WellFormed (w : Workspace α) : Prop where
  /-- Identifiers that were not issued belong to no handler. -/
  fresh : ∀ h : Nat, w.next ≤ h → w.handler? h = none
  /-- The graph of a handler is well formed. -/
  graph : ∀ h handler, w.handler? h = some handler → handler.graph.WellFormed

/-- How a workspace may change. -/
structure Evolves (w w' : Workspace α) : Prop where
  /-- The workspace is well formed. -/
  wellFormed : w'.WellFormed
  /-- Identifiers are only issued. -/
  next_le : w.next ≤ w'.next
  /-- A handler that stays lets its graph evolve. -/
  graph : ∀ h handler handler', w.handler? h = some handler → w'.handler? h = some handler' →
    handler.graph.Evolves handler'.graph
  /-- A handler that was dropped does not come back. -/
  dropped : ∀ h : Nat, h < w.next → w.handler? h = none → w'.handler? h = none

theorem WellFormed.empty : ({} : Workspace α).WellFormed := by
  have hnone : ∀ h, ({} : Workspace α).handler? h = none := fun h => Table.get_emptyCollection h
  refine ⟨fun h _ => hnone h, fun h handler hhandler => ?_⟩
  rw [hnone h] at hhandler
  cases hhandler

/-- A handler that exists was issued. -/
theorem WellFormed.lt_next (hw : w.WellFormed) {h : Nat} (hhandler : w.handler? h = some handler) :
    h < w.next := by
  by_contra hge
  rw [hw.fresh h (Nat.le_of_not_lt hge)] at hhandler
  cases hhandler

theorem Evolves.refl (hw : w.WellFormed) : w.Evolves w := by
  refine ⟨hw, Nat.le_refl _, fun h handler handler' hold hnew => ?_, fun _ _ hnone => hnone⟩
  rw [hold, Option.some_inj] at hnew
  exact hnew ▸ .refl (hw.graph h handler hold)

theorem Evolves.trans (hw : w.Evolves w') (hw' : w'.Evolves w'') (hfirst : w.WellFormed) :
    w.Evolves w'' := by
  refine ⟨hw'.wellFormed, Nat.le_trans hw.next_le hw'.next_le, ?_, fun h hlt hnone => ?_⟩
  · intro h handler handler'' hold hnew
    have hlt := hfirst.lt_next hold
    cases hmid : w'.handler? h with
    | none =>
      rw [hw'.dropped h (Nat.lt_of_lt_of_le hlt hw.next_le) hmid] at hnew
      cases hnew
    | some handler' =>
      exact (hw.graph h handler handler' hold hmid).trans
        (hw'.graph h handler' handler'' hmid hnew)
  · exact hw'.dropped h (Nat.lt_of_lt_of_le hlt hw.next_le) (hw.dropped h hlt hnone)

theorem handler?_put (w : Workspace α) (h k : HandlerId) (handler : Handler α) :
    (w.put h handler).handler? k = if k = h then some handler else w.handler? k :=
  Table.get_set ..

/-- Letting the graph of one handler evolve. -/
theorem WellFormed.evolves_put (hw : w.WellFormed) (hhandler : w.handler? h = some handler)
    {handler' : Handler α} (hgraph : handler.graph.Evolves handler'.graph) :
    w.Evolves (w.put h handler') := by
  have hlt := hw.lt_next hhandler
  refine ⟨⟨fun k hk => ?_, fun k found hfound => ?_⟩, Nat.le_refl _, ?_, fun k _ hnone => ?_⟩
  · have hne : k ≠ h := by
      rintro rfl
      exact absurd hlt (Nat.not_lt_of_le hk)
    rw [handler?_put, if_neg hne]
    exact hw.fresh k hk
  · rw [handler?_put] at hfound
    split at hfound
    · cases hfound
      exact hgraph.wellFormed
    · exact hw.graph k found hfound
  · intro k old new hold hnew
    rw [handler?_put] at hnew
    split at hnew
    · next heq =>
      subst heq
      rw [hhandler, Option.some_inj] at hold
      rw [← hold, ← Option.some.inj hnew]
      exact hgraph
    · rw [hold, Option.some_inj] at hnew
      exact hnew ▸ .refl (hw.graph k old hold)
  · have hne : k ≠ h := by
      rintro rfl
      rw [hhandler] at hnone
      cases hnone
    rw [handler?_put, if_neg hne]
    exact hnone

/-- A new handler has an empty graph. -/
theorem WellFormed.evolves_create (hw : w.WellFormed) (settings : Settings) :
    w.Evolves { w.put w.next { settings := settings } with next := w.next + 1 } := by
  have hget : ∀ k, ({ w.put w.next { settings := settings } with next := w.next + 1 } :
      Workspace α).handler? k =
        if k = w.next then some { settings := settings } else w.handler? k :=
    fun k => handler?_put w w.next k _
  refine ⟨⟨fun k hk => ?_, fun k found hfound => ?_⟩, Nat.le_succ _, ?_, fun k hk hnone => ?_⟩
  · have hlt : w.next < k := hk
    rw [hget, if_neg (Nat.ne_of_gt hlt)]
    exact hw.fresh k (Nat.le_of_lt hlt)
  · rw [hget] at hfound
    split at hfound
    · cases hfound
      exact Graph.WellFormed.empty 0
    · exact hw.graph k found hfound
  · intro k old new hold hnew
    rw [hget, if_neg (Nat.ne_of_lt (hw.lt_next hold)), hold, Option.some_inj] at hnew
    exact hnew ▸ .refl (hw.graph k old hold)
  · rw [hget, if_neg (Nat.ne_of_lt hk)]
    exact hnone

/-- Dropping a handler leaves the others as they are. -/
theorem WellFormed.evolves_drop (hw : w.WellFormed) (h : HandlerId) :
    w.Evolves { w with handlers := w.handlers.set h none } := by
  have hget : ∀ k, ({ w with handlers := w.handlers.set h none } : Workspace α).handler? k =
      if k = h then none else w.handler? k := fun k => Table.get_set ..
  refine ⟨⟨fun k hk => ?_, fun k found hfound => ?_⟩, Nat.le_refl _, ?_, fun k _ hnone => ?_⟩
  · rw [hget, hw.fresh k hk, ite_self]
  · rw [hget] at hfound
    split at hfound
    · cases hfound
    · exact hw.graph k found hfound
  · intro k old new hold hnew
    rw [hget] at hnew
    split at hnew
    · cases hnew
    · rw [hold, Option.some_inj] at hnew
      exact hnew ▸ .refl (hw.graph k old hold)
  · rw [hget, hnone, ite_self]

/-- A symbol that names no node of a flattened graph, now or later. -/
def Safe (w : Workspace α) (s : Symbol α) : Prop :=
  ∀ h id : Nat, s = .var h id → h < w.next ∧ ∀ handler, w.handler? h = some handler →
    id < handler.graph.next ∧ handler.graph.flatNode? id = none

@[simp] theorem safe_param (w : Workspace α) (v : α) : w.Safe (.param v) := by
  intro h id heq
  cases heq

/-- Symbols stay safe. -/
theorem Safe.mono {s : Symbol α} (hs : w.Safe s) (hevolves : w.Evolves w') : w'.Safe s := by
  intro h id heq
  obtain ⟨hlt, hgraph⟩ := hs h id heq
  refine ⟨Nat.lt_of_lt_of_le hlt hevolves.next_le, fun handler' hnew => ?_⟩
  cases hold : w.handler? h with
  | none =>
    rw [hevolves.dropped h hlt hold] at hnew
    cases hnew
  | some handler =>
    obtain ⟨hid, hflat⟩ := hgraph handler hold
    have hstep := hevolves.graph h handler handler' hold hnew
    exact ⟨Nat.lt_of_lt_of_le hid hstep.next_le, hstep.flat id hid hflat⟩

/-- A symbol of a recorded node is safe. -/
theorem WellFormed.safe_of_recorded (hw : w.WellFormed) (hhandler : w.handler? h = some handler)
    {id : NodeId} {node : Node α} (hnode : handler.graph.recorded.get id = some node) :
    w.Safe (.var h id) := by
  rintro k j heq
  obtain ⟨rfl, rfl⟩ : h = k ∧ id = j := by simpa using heq
  refine ⟨hw.lt_next hhandler, fun handler' hfound => ?_⟩
  rw [hhandler, Option.some_inj] at hfound
  subst hfound
  have hgraph := hw.graph h handler hhandler
  refine ⟨hgraph.issued id (Graph.contains_of_recorded hnode), ?_⟩
  cases hflat : handler.graph.flatNode? id with
  | none => rfl
  | some m =>
    rw [hgraph.flat_apart id m hflat] at hnode
    cases hnode

/-- A safe symbol of a live node names a recorded one. -/
theorem Safe.exists_recorded {id : NodeId} (hs : w.Safe (.var h id))
    (hhandler : w.handler? h = some handler) (hlive : handler.graph.contains id = true) :
    ∃ node, handler.graph.recorded.get id = some node := by
  obtain ⟨_, hflat⟩ := (hs h id rfl).2 handler hhandler
  rw [Graph.contains, Graph.node?_eq, hflat, Option.or_none] at hlive
  exact Option.isSome_iff_exists.mp hlive

end Workspace

end Straightline
