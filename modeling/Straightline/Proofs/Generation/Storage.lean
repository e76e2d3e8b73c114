import Straightline.Proofs.Generation.Correctness
import Straightline.Proofs.Generation.Recursion

/-!
# What a policy insists on is stored

Scheduling decides at the first use of a node whether it is stored, so after it every node that the
outputs reach and the policy stores has a slot. A policy may insist on a node however often it is
used. A built node takes over the slot of the node that it stands for, and sharing slots takes none
away.
-/

namespace Straightline

variable {α : Type} {g : Graph α} {policy : Policy α}

/-- A node that a policy stores however often it is used. -/
def Policy.Insists (policy : Policy α) (g : Graph α) (id : NodeId) : Prop :=
  ∃ node, g.node? id = some node ∧ node.operation ≠ .independent ∧
    ∀ refs, policy.stores node refs = true

/-- A policy that stores every node with more than one reference. -/
def Policy.StoresShared (policy : Policy α) : Prop :=
  ∀ node refs, 1 < refs → policy.stores node refs = true

theorem Policy.storesShared_shared : (Policy.shared : Policy α).StoresShared :=
  fun _ _ hrefs => decide_eq_true hrefs

namespace Graph

variable {outputs : List (Arg α)}

/-- Scheduling gives a slot to each node that the outputs reach and the policy stores. -/
theorem WellFormed.slot_scheduled_of_stores (h : g.WellFormed)
    (hlive : ∀ id, Arg.node id ∈ outputs → ∃ node, g.recorded.get id = some node) {k : NodeId}
    (hreached : g.beginPass.Reached outputs k) {node : Node α}
    (hnode : g.recorded.get k = some node) (hne : node.operation ≠ .independent)
    (hstores : policy.stores node ((g.scheduled policy outputs).pass.refs.get k) = true) :
    (g.scheduled policy outputs).slot k ≠ 0 := by
  have horder := h.mem_order_of_wanted policy hlive hreached
    ⟨node, by rw [node?_beginPass, hnode], hne, .inr hstores⟩
  exact Nat.ne_of_gt (Nat.zero_lt_of_lt ((h.scheduled_spec policy hlive).slot_gt k horder))

/-- Scheduling stores what the policy insists on, if the outputs reach it. -/
theorem WellFormed.slot_scheduled (h : g.WellFormed)
    (hlive : ∀ id, Arg.node id ∈ outputs → ∃ node, g.recorded.get id = some node)
    {root k : NodeId} (hroot : .node root ∈ outputs)
    (hreach : Reaches g.beginPass.references root k) (hinsists : policy.Insists g.beginPass k) :
    (g.scheduled policy outputs).slot k ≠ 0 := by
  obtain ⟨node, hnode, hne, hstores⟩ := hinsists
  rw [node?_beginPass] at hnode
  exact h.slot_scheduled_of_stores hlive ⟨root, hroot, hreach⟩ hnode hne (hstores _)

/-- Under a policy that stores what is shared, a node without a slot has one reference. -/
theorem WellFormed.refs_scheduled_le_one (h : g.WellFormed)
    (hlive : ∀ id, Arg.node id ∈ outputs → ∃ node, g.recorded.get id = some node)
    (hpolicy : policy.StoresShared) {k : NodeId} (hreached : g.beginPass.Reached outputs k)
    (hslot : (g.scheduled policy outputs).slot k = 0) :
    (g.scheduled policy outputs).pass.refs.get k ≤ 1 := by
  obtain ⟨root, hroot, hreach⟩ := hreached
  obtain ⟨node, hnode⟩ := contains_beginPass.mp
    (h.beginPass.closed_all.contains_of_reaches (contains_beginPass.mpr (hlive root hroot)) hreach)
  by_contra hshared
  refine h.slot_scheduled_of_stores hlive ⟨root, hroot, hreach⟩ hnode ?_
    (hpolicy node _ (Nat.lt_of_not_le hshared)) hslot
  -- Independent variables have slots.
  intro hind
  have hroster : k ∈ g.roster := by
    rw [h.mem_roster_beginPass, operation?_beginPass, hnode, Option.map_some, hind]
  have hpos := ((h.scheduled_spec policy hlive).slot_roster hroster).1
  omega

end Graph

end Straightline
