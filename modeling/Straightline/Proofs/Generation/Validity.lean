import Straightline.Proofs.Generation.Correctness

/-!
# Valid schedules and safe slots

What a client can rely on in the graph of a bundle. The stored nodes are ranked by their places,
and each stands behind the stored nodes that it reads; this holds of the recorded nodes and, if the
graph was flattened, of the built ones. Where slots are shared, a value is not overwritten before
its last reader, and the slots of inputs and outputs are not shared at all.
-/

namespace Straightline

namespace Graph

variable {α : Type} {g g' : Graph α} {order : List NodeId} {outputs : List (Arg α)}

/-- An order in which the outputs can be computed. -/
structure IsSchedule (g : Graph α) (order : List NodeId) (outputs : List (Arg α)) : Prop where
  /-- No node is computed twice. -/
  nodup : order.Nodup
  /-- The rank of a node is its place, counted from one. -/
  rank : ∀ i id, order[i]? = some id → g.pass.ranks.get id = i + 1
  /-- Every node has a slot. -/
  slot : ∀ id ∈ order, g.slot id ≠ 0
  /-- Every node has an operation of its own. -/
  operation : ∀ id ∈ order, ∃ op, g.operation? id = some op ∧ op ≠ .independent
  /-- The outputs are computed, the independent variables among them apart. -/
  outputs : ∀ id, .node id ∈ outputs → g.operation? id ≠ some .independent → id ∈ order
  /-- What a node reads is an independent variable or was computed before. -/
  reads : ∀ id ∈ order, ∀ k, Reads g.references g.slot id k →
    k ∈ g.roster ∨ k ∈ order ∧ g.pass.ranks.get k < g.pass.ranks.get id

/-- Scheduling gives such an order. -/
theorem Scheduled.isSchedule (h : g.Scheduled outputs) : g.IsSchedule g.order outputs where
  nodup := h.nodup
  rank := h.rank
  slot id hid := Nat.ne_of_gt (Nat.zero_lt_of_lt (h.slot_gt id hid))
  operation := h.operation
  outputs id hid hop := by
    rcases h.results id hid with hroster | ⟨horder, _⟩
    · exact absurd (h.roster_independent id hroster) hop
    · exact horder
  reads id hid k hread := by
    obtain ⟨before, after, horder⟩ := List.append_of_mem hid
    refine (h.mem_of_reads horder hread).imp_right fun hk => ⟨by simp [horder, hk], ?_⟩
    obtain ⟨m, hm⟩ := List.mem_iff_getElem?.mp hk
    obtain ⟨hlt, _⟩ := List.getElem?_eq_some_iff.mp hm
    have hkAt : g.order[m]? = some k := by rw [horder, List.getElem?_append_left hlt, hm]
    have hidAt : g.order[before.length]? = some id := by simp [horder]
    rw [h.rank m k hkAt, h.rank before.length id hidAt]
    omega

/-- An order stays valid where live nodes keep their operations, their ranks and whether they have
a slot. -/
theorem IsSchedule.of_live (h : g.IsSchedule order outputs) (hclosed : g.Closed)
    (houtputs : ∀ id, .node id ∈ outputs → g.contains id = true)
    (hroster : g'.roster = g.roster)
    (hsame : ∀ id, g.contains id = true → g'.operation? id = g.operation? id ∧
      g'.pass.ranks.get id = g.pass.ranks.get id ∧ (g'.slot id = 0 ↔ g.slot id = 0)) :
    g'.IsSchedule order outputs := by
  have hlive : ∀ id ∈ order, g.contains id = true := by
    intro id hid
    obtain ⟨op, hop, _⟩ := h.operation id hid
    exact contains_iff.mpr ⟨op, hop⟩
  exact {
    nodup := h.nodup
    rank := by
      intro i id hi
      rw [(hsame id (hlive id (List.mem_of_getElem? hi))).2.1]
      exact h.rank i id hi
    slot := by
      intro id hid hzero
      exact h.slot id hid ((hsame id (hlive id hid)).2.2.mp hzero)
    operation := by
      intro id hid
      rw [(hsame id (hlive id hid)).1]
      exact h.operation id hid
    outputs := by
      intro id hid hop
      rw [(hsame id (houtputs id hid)).1] at hop
      exact h.outputs id hid hop
    reads := by
      intro id hid k hread
      have hold : Reads g.references g.slot id k :=
        hread.of_live (hlive id hid) (fun a ha => by rw [references, references, (hsame a ha).1])
          (fun a _ => hclosed a) fun a ha => (hsame a ha).2.2
      rw [hroster, (hsame id (hlive id hid)).2.1]
      refine (h.reads id hid k hold).imp_right fun hk => ⟨hk.1, ?_⟩
      rw [(hsame k (hlive k hk.1)).2.1]
      exact hk.2 }

/-- Sharing slots keeps orders valid. -/
theorem IsSchedule.shared (h : g.IsSchedule order outputs) {results : List (Arg α)}
    (hg : g.Scheduled results) (houtputs : ∀ id, .node id ∈ outputs → g.contains id = true)
    (reuse : Bool) : (g.shared reuse).IsSchedule order outputs := by
  cases reuse with
  | false => exact h
  | true =>
    exact h.of_live hg.closed houtputs rfl fun id _ =>
      ⟨rfl, rfl, hg.slot_reuseSlots_eq_zero id⟩

/-- Flattening keeps the order of the recorded nodes valid. -/
theorem Flattenable.isSchedule_flatten {seen : List NodeId} (hg : g.Flattenable outputs seen) :
    (g.flatten outputs).2.IsSchedule g.pass.order outputs := by
  obtain ⟨done, owner, f, heq, hvalid, _⟩ := hg.exists_flatten
  rw [heq, ← Flattening.order_eq hg]
  refine hg.toScheduled.isSchedule.of_live hg.closed hg.live rfl fun id hlive => ?_
  have hlt := hg.wellFormed.issued id hlive
  obtain ⟨op, hop⟩ := contains_iff.mp hlive
  refine ⟨?_, hvalid.ranks id hlt, ?_⟩
  · rw [hop]
    exact Flattening.operation?_graph hg hop
  · change f.slots.get id = 0 ↔ _
    rw [hvalid.slots id hlt]

/-- The recorded nodes stay in the order in which they were scheduled. -/
theorem passOrder_shared (g : Graph α) (optimize reuse : Bool) (policy : Policy α)
    (outputs : List (Arg α)) :
    ((g.prepared optimize policy outputs).2.shared reuse).pass.order =
      (g.scheduled policy outputs).pass.order := by
  cases optimize <;> cases reuse <;> rfl

/-- The order of the recorded nodes is valid for the outputs, and the final order for what stands
for them. -/
theorem WellFormed.isSchedule_shared (h : g.WellFormed) (optimize reuse : Bool)
    (policy : Policy α)
    (hlive : ∀ id, Arg.node id ∈ outputs → ∃ node, g.recorded.get id = some node) :
    ((g.prepared optimize policy outputs).2.shared reuse).IsSchedule
        (g.scheduled policy outputs).pass.order outputs ∧
      ((g.prepared optimize policy outputs).2.shared reuse).IsSchedule
        ((g.prepared optimize policy outputs).2.shared reuse).order
        (g.prepared optimize policy outputs).1 := by
  have hprepares := h.prepares optimize policy hlive
  obtain ⟨seen, hg⟩ := h.exists_flattenable policy hlive
  have horder : ((g.prepared optimize policy outputs).2.shared reuse).order =
      (g.prepared optimize policy outputs).2.order := by
    cases reuse <;> rfl
  have hlive' : ∀ id, Arg.node id ∈ outputs →
      (g.prepared optimize policy outputs).2.contains id = true := by
    intro id hid
    obtain ⟨node, hnode⟩ := hlive id hid
    have hkept : (g.prepared optimize policy outputs).2.recorded.get id = some node := by
      cases optimize <;> exact hnode
    exact contains_of_recorded hkept
  have hrecorded : (g.prepared optimize policy outputs).2.IsSchedule
      (g.scheduled policy outputs).pass.order outputs := by
    cases optimize with
    | false => exact hg.toScheduled.isSchedule
    | true => exact hg.isSchedule_flatten
  refine ⟨hrecorded.shared hprepares.toScheduled hlive' reuse, ?_⟩
  rw [horder]
  exact hprepares.toScheduled.isSchedule.shared hprepares.toScheduled hprepares.live reuse

/-- No value is overwritten before its last reader, and no input or output at all. -/
structure SlotSafe (g : Graph α) : Prop where
  /-- Nodes that share a slot are temporaries, and everything that reads the earlier one comes
  before the later one. -/
  sharing : ∀ (i j : Nat) (a b : NodeId), g.order[i]? = some a → g.order[j]? = some b → i < j →
    g.slot a = g.slot b →
    g.isTemporary a = true ∧ g.isTemporary b = true ∧
      ∀ c ∈ g.order, Reads g.references g.slot c a → g.pass.ranks.get c < g.pass.ranks.get b
  /-- No stored node has the slot of an independent variable. -/
  inputs : ∀ id ∈ g.order, ∀ k ∈ g.roster, g.slot id ≠ g.slot k
  /-- A slot that is reserved for an output is held by one stored node. -/
  outputs : ∀ slot, g.pass.owners.get slot ≠ none → ∃! id, id ∈ g.order ∧ g.slot id = slot

/-- The stored node with a slot that belongs to an output. -/
theorem Scheduled.existsUnique_owned (h : g.Scheduled outputs) {slot : Nat}
    (hslot : g.pass.owners.get slot ≠ none) :
    ∃! id, id ∈ g.order ∧ g.reuseSlots.slot id = slot := by
  obtain ⟨hgt, hlt⟩ := (h.owners slot).mp hslot
  obtain ⟨id, hid, rfl⟩ := h.owned slot hslot
  refine ⟨id, ⟨hid, h.slot_reuseSlots_reserved hid hlt⟩, ?_⟩
  rintro k ⟨hk, heq⟩
  -- A temporary would have a slot behind the reserved ones.
  have hreserved : g.slot k < g.pass.firstTemporary := by
    by_contra hge
    have hrange := (h.slot_reuseSlots_range hk (Nat.le_of_not_lt hge)).1
    omega
  rw [h.slot_reuseSlots_reserved hk hreserved] at heq
  exact h.slot_inj k hk id hid heq

/-- Shared slots are safe. -/
theorem Scheduled.slotSafe_reuseSlots (h : g.Scheduled outputs) : g.reuseSlots.SlotSafe where
  sharing := by
    intro i j a b ha hb hij hslot
    have hfirst : 0 < g.pass.firstTemporary := Nat.zero_lt_of_lt h.roster_lt
    have htemporary := (h.release_lt ha hb hij hslot).1
    have hrange := (h.slot_reuseSlots_range (List.mem_of_getElem? ha) htemporary).1
    have hisTemporary : ∀ id, g.reuseSlots.slot id = g.reuseSlots.slot a →
        g.reuseSlots.isTemporary id = true := by
      intro id heq
      rw [isTemporary_iff (g := g.reuseSlots) hfirst, heq]
      exact hrange
    refine ⟨hisTemporary a rfl, hisTemporary b hslot.symm, fun c hc hread => ?_⟩
    obtain ⟨m, hm⟩ := List.mem_iff_getElem?.mp hc
    have hlt := h.reader_lt ha hb hij hslot hm (h.reads_reuseSlots.mp hread)
    change g.pass.ranks.get c < g.pass.ranks.get b
    rw [h.rank m c hm, h.rank j b hb]
    omega
  inputs := by
    intro id hid k hk
    have hgt := h.prepared_reuseSlots.slot_gt id hid
    have hle := (h.prepared_reuseSlots.slot_roster hk).2
    omega
  outputs _ hslot := h.existsUnique_owned hslot

end Graph

end Straightline
