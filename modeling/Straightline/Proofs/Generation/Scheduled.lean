import Mathlib.Data.List.TakeWhile
import Straightline.Generation.Basic
import Straightline.Proofs.Generation.Order
import Straightline.Proofs.Graph.WellFormed

/-!
# Prepared graphs

What a generation pass hands on. A prepared graph has no cycle, its independent variables hold the
first slots in roster order, and its stored nodes hold slots behind them. After scheduling, every
stored node has a slot of its own and stands behind the stored nodes that it reads. What execution
needs is less: a node finds the values it reads still in their slots.
-/

namespace Straightline

namespace Schedule

variable {α : Type} {g : Graph α} {reserved roster extra : List NodeId} {s : Schedule}

/-- The roster keeps its slots. -/
theorem Valid.slot_of_roster (h : Valid g (roster ++ extra) s) {i : Nat} {id : NodeId}
    (hi : roster[i]? = some id) : s.slots.get id = i + 1 := by
  obtain ⟨temporaries, hissued, _⟩ := h.issued
  obtain ⟨hlt, _⟩ := List.getElem?_eq_some_iff.mp hi
  refine hissued.slot i id ?_
  rw [List.append_assoc, List.getElem?_append_left hlt, hi]

/-- A queued node holds a slot behind those of the independent variables. -/
theorem Valid.roster_lt_slot (h : Valid g (roster ++ extra) s)
    (hroster : ∀ id ∈ roster, g.operation? id = some .independent) {id : NodeId}
    (hid : id ∈ s.queue.toList) : roster.length < s.slots.get id := by
  obtain ⟨temporaries, hissued, _⟩ := h.issued
  obtain ⟨op, hop, hne⟩ := h.operation id hid
  have hout : id ∉ roster := by
    intro hmem
    rw [hroster id hmem, Option.some_inj] at hop
    exact hne hop.symm
  have hlisted := hissued.ne_zero_iff.mp (h.stored id hid)
  rw [List.append_assoc] at hissued hlisted
  exact hissued.lt_of_mem_append ((List.mem_append.mp hlisted).resolve_left hout)

/-- No slot lies behind the last one. -/
theorem Valid.slot_le_lastId (h : Valid g reserved s) (id : NodeId) :
    s.slots.get id ≤ s.lastId := by
  obtain ⟨temporaries, hissued, _⟩ := h.issued
  exact hissued.le_lastId id

/-- The slots of the roster are issued. -/
theorem Valid.roster_le_lastId (h : Valid g (roster ++ extra) s) : roster.length ≤ s.lastId := by
  obtain ⟨temporaries, hissued, _⟩ := h.issued
  rw [hissued.length, List.append_assoc, List.length_append]
  exact Nat.le_add_right _ _

/-- A queued node shares its slot with no other node. -/
theorem Valid.slot_inj (h : Valid g reserved s) {a b : NodeId} (ha : a ∈ s.queue.toList)
    (hab : s.slots.get a = s.slots.get b) : a = b := by
  obtain ⟨temporaries, hissued, _⟩ := h.issued
  exact hissued.inj (hissued.ne_zero_iff.mp (h.stored a ha)) hab

/-- A reserved node holds a reserved slot. -/
theorem Valid.slot_of_reserved (h : Valid g reserved s) {id : NodeId} (hid : id ∈ reserved) :
    s.slots.get id ≠ 0 ∧ s.slots.get id ≤ reserved.length := by
  obtain ⟨temporaries, hissued, _⟩ := h.issued
  exact ⟨hissued.ne_zero_iff.mpr (List.mem_append_left _ hid), hissued.le_of_mem_prefix hid⟩

/-- Behind the reserved slots there is one for every queued node without a reserved one. -/
theorem Valid.lastId_eq (h : Valid g reserved s) :
    s.lastId = reserved.length +
      s.queue.toList.countP fun id => reserved.length + 1 ≤ s.slots.get id := by
  obtain ⟨temporaries, hissued, hqueued⟩ := h.issued
  have hmem : ∀ id, id ∈ s.queue.toList.filter (fun id => reserved.length + 1 ≤ s.slots.get id) ↔
      id ∈ temporaries := by
    intro id
    rw [List.mem_filter, decide_eq_true_eq]
    constructor
    · rintro ⟨hqueue, hslot⟩
      have hlisted := hissued.ne_zero_iff.mp (h.stored id hqueue)
      rcases List.mem_append.mp hlisted with hfront | hback
      · have hle := hissued.le_of_mem_prefix hfront
        omega
      · exact hback
    · intro hid
      exact ⟨hqueued id hid, hissued.lt_of_mem_append hid⟩
  have hnodup : temporaries.Nodup := (List.nodup_append.mp hissued.nodup).2.1
  have hperm := (List.perm_ext_iff_of_nodup (h.nodup.filter _) hnodup).mpr hmem
  rw [hissued.length, List.length_append, List.countP_eq_length_filter, hperm.length_eq]

/-- The queue holds the nodes with a slot of their own, if it holds those with a reserved one. -/
theorem Valid.lastId_eq_queue (h : Valid g (roster ++ extra) s)
    (hroster : ∀ id ∈ roster, g.operation? id = some .independent)
    (hextra : ∀ id ∈ extra, id ∈ s.queue.toList) : s.lastId = s.queue.size + roster.length := by
  obtain ⟨temporaries, hissued, hqueued⟩ := h.issued
  rw [List.append_assoc] at hissued
  have hmem : ∀ id, id ∈ s.queue.toList ↔ id ∈ extra ++ temporaries := by
    intro id
    constructor
    · intro hid
      obtain ⟨op, hop, hne⟩ := h.operation id hid
      have hlisted := hissued.ne_zero_iff.mp (h.stored id hid)
      refine (List.mem_append.mp hlisted).resolve_left fun hmem => hne ?_
      rw [hroster id hmem, Option.some_inj] at hop
      exact hop.symm
    · intro hid
      exact (List.mem_append.mp hid).elim (hextra id) (hqueued id)
  have hnodup : (extra ++ temporaries).Nodup := (List.nodup_append.mp hissued.nodup).2.1
  have hperm := (List.perm_ext_iff_of_nodup h.nodup hnodup).mpr hmem
  rw [hissued.length, List.length_append, ← hperm.length_eq, Nat.add_comm]
  rfl

/-- A reserved slot behind those of the roster belongs to a reserved node behind the roster. -/
theorem Valid.exists_reserved (h : Valid g (roster ++ extra) s) {slot : Nat}
    (hgt : roster.length < slot) (hle : slot ≤ (roster ++ extra).length) :
    ∃ id ∈ extra, s.slots.get id = slot := by
  obtain ⟨temporaries, hissued, _⟩ := h.issued
  rw [List.length_append] at hle
  have hlt : slot - 1 - roster.length < extra.length := by omega
  refine ⟨extra[slot - 1 - roster.length], List.getElem_mem _, ?_⟩
  have hslot := hissued.slot (slot - 1) extra[slot - 1 - roster.length] (by
    rw [List.append_assoc, List.getElem?_append_right (by omega), List.getElem?_append_left hlt,
      List.getElem?_eq_getElem hlt])
  omega

end Schedule

namespace Graph

variable {α : Type}

/-- A graph with an evaluation order and slots. -/
structure Prepared (g : Graph α) : Prop where
  /-- Dependencies have smaller ranks, and no rank exceeds the issued identifiers. -/
  ranked : ∃ rank, Ranked g.references rank ∧ ∀ id, rank id ≤ g.next
  /-- References lead to live nodes. -/
  closed : g.Closed
  /-- Independent variables are in the roster. -/
  listed : g.Listed
  /-- The roster holds nothing else. -/
  roster_independent : ∀ id ∈ g.roster, g.operation? id = some .independent
  /-- A chain has a term. -/
  chains : ∀ id family terms, g.operation? id = some (.chain family terms) → terms ≠ []
  /-- The roster holds the first slots in order. -/
  roster_slot : ∀ i id, g.roster[i]? = some id → g.slot id = i + 1
  /-- A stored node has an operation of its own. -/
  operation : ∀ id ∈ g.order, ∃ op, g.operation? id = some op ∧ op ≠ .independent
  /-- A stored node holds a slot behind those of the roster. -/
  slot_gt : ∀ id ∈ g.order, g.roster.length < g.slot id
  /-- No stored node holds a slot behind the last one. -/
  slot_le : ∀ id ∈ g.order, g.slot id ≤ g.pass.lastId
  /-- The slots of the roster are issued. -/
  roster_le : g.roster.length ≤ g.pass.lastId

/-- The value of a node is in its slot once the given nodes are computed in turn: it is an
independent variable, or it was computed and nothing was stored over it since. -/
def Held (g : Graph α) (done : List NodeId) (k : NodeId) : Prop :=
  k ∈ g.roster ∨ ∃ before after, done = before ++ k :: after ∧ ∀ j ∈ after, g.slot j ≠ g.slot k

/-- Every value that is read is still in its slot, and the outputs are in theirs at the end. -/
structure Runnable (g : Graph α) (outputs : List (Arg α)) : Prop extends g.Prepared where
  /-- What a node reads is in its slot when the node is computed. -/
  safe : ∀ before id after, g.order = before ++ id :: after →
    ∀ k, Reads g.references g.slot id k → g.Held before k
  /-- The outputs are in their slots at the end. -/
  results : ∀ id, .node id ∈ outputs → g.Held g.order id

/-- Every stored node has a slot of its own and stands behind the stored nodes that it reads. -/
structure Scheduled (g : Graph α) (outputs : List (Arg α)) : Prop extends g.Prepared where
  /-- No node is computed twice. -/
  nodup : g.order.Nodup
  /-- Different stored nodes hold different slots. -/
  slot_inj : ∀ a ∈ g.order, ∀ b ∈ g.order, g.slot a = g.slot b → a = b
  /-- The rank of a stored node is its place. -/
  rank : ∀ i id, g.order[i]? = some id → g.pass.ranks.get id = i + 1
  /-- A stored node stands behind the stored nodes that it reads. -/
  sorted : Sorted (Schedule.Needs g g.pass.slots) g.order
  /-- An output is an independent variable or a stored node with a reserved slot. -/
  results : ∀ id, .node id ∈ outputs →
    id ∈ g.roster ∨ id ∈ g.order ∧ g.slot id < g.pass.firstTemporary
  /-- The slots of the roster are reserved. -/
  roster_lt : g.roster.length < g.pass.firstTemporary
  /-- The reserved slots behind those of the roster belong to outputs. -/
  owners : ∀ slot, g.pass.owners.get slot ≠ none ↔
    g.roster.length < slot ∧ slot < g.pass.firstTemporary
  /-- A slot that belongs to an output is held by a stored node. -/
  owned : ∀ slot, g.pass.owners.get slot ≠ none → ∃ id ∈ g.order, g.slot id = slot
  /-- The slots behind the reserved ones belong to the temporaries. -/
  temporaries : g.pass.lastId + 1 =
    g.pass.firstTemporary + g.order.countP fun id => g.pass.firstTemporary ≤ g.slot id

/-- An independent variable holds one of the first slots. -/
theorem Prepared.slot_roster {g : Graph α} (h : g.Prepared) {id : NodeId} (hid : id ∈ g.roster) :
    0 < g.slot id ∧ g.slot id ≤ g.roster.length := by
  obtain ⟨i, hi⟩ := List.mem_iff_getElem?.mp hid
  obtain ⟨hlt, _⟩ := List.getElem?_eq_some_iff.mp hi
  rw [h.roster_slot i id hi]
  omega

/-- A stored node is not an independent variable. -/
theorem Prepared.not_mem_roster {g : Graph α} (h : g.Prepared) {id : NodeId} (hid : id ∈ g.order) :
    id ∉ g.roster := by
  intro hroster
  have hgt := h.slot_gt id hid
  have hle := (h.slot_roster hroster).2
  omega

/-- A node without a slot is not an independent variable. -/
theorem Prepared.ne_independent {g : Graph α} (h : g.Prepared) {id : NodeId}
    {op : Operation (Arg α)} (hop : g.operation? id = some op) (hslot : g.slot id = 0) :
    op ≠ .independent := by
  rintro rfl
  have hroster := h.slot_roster (h.listed id hop)
  omega

/-- Stored nodes are live. -/
theorem Prepared.contains_of_mem_order {g : Graph α} (h : g.Prepared) {id : NodeId}
    (hid : id ∈ g.order) : g.contains id = true := by
  obtain ⟨op, hop, _⟩ := h.operation id hid
  exact contains_iff.mpr ⟨op, hop⟩

/-- An independent variable that a node reads is in the roster, and any other node that it reads
was computed before. -/
theorem Scheduled.mem_of_reads {g : Graph α} {outputs : List (Arg α)} (h : g.Scheduled outputs)
    {before after : List NodeId} {id k : NodeId} (horder : g.order = before ++ id :: after)
    (hread : Reads g.references g.slot id k) : k ∈ g.roster ∨ k ∈ before := by
  by_cases hop : g.operation? k = some .independent
  · exact .inl (h.listed k hop)
  · exact .inr (h.sorted before id after horder k ⟨hread, hop⟩)

/-- With a slot for every stored node, nothing is stored over a computed value. -/
theorem Scheduled.held {g : Graph α} {outputs : List (Arg α)} (h : g.Scheduled outputs)
    {done rest : List NodeId} (horder : g.order = done ++ rest) {k : NodeId} (hk : k ∈ done) :
    g.Held done k := by
  obtain ⟨before, after, rfl⟩ := List.append_of_mem hk
  refine .inr ⟨before, after, rfl, fun j hj heq => ?_⟩
  have hjk : j = k :=
    h.slot_inj j (by rw [horder]; simp [hj]) k (by rw [horder]; simp) heq
  have hnodup := h.nodup
  rw [horder] at hnodup
  have hafter := (List.nodup_append.mp (List.nodup_append.mp hnodup).1).2.1
  exact (List.nodup_cons.mp hafter).1 (hjk ▸ hj)

/-- A scheduled graph can be executed. -/
theorem Scheduled.runnable {g : Graph α} {outputs : List (Arg α)} (h : g.Scheduled outputs) :
    g.Runnable outputs where
  toPrepared := h.toPrepared
  safe before id after horder k hread := by
    rcases h.mem_of_reads horder hread with hroster | hbefore
    · exact .inl hroster
    · exact h.held horder hbefore
  results id hid := by
    rcases h.results id hid with hroster | ⟨horder, _⟩
    · exact .inl hroster
    · exact h.held (List.append_nil _).symm horder

/-- The graph after scheduling the outputs, before it is flattened and before slots are shared. -/
def scheduled (g : Graph α) (policy : Policy α) (outputs : List (Arg α)) : Graph α :=
  let reserved := Reservation.make g.roster outputs
  let refs := (g.beginPass.countReferences outputs).2
  let s := Schedule.run g.beginPass policy refs reserved.slots reserved.lastId outputs
  { g with
    pass :=
      { slots := s.slots, owners := reserved.owners, refs := refs, ranks := s.ranks,
        order := s.queue.toList, lastId := s.lastId, firstTemporary := reserved.lastId + 1 } }

section Schedule

variable {g : Graph α} {policy : Policy α} {outputs : List (Arg α)}

/-- Scheduling keeps the graph well formed. -/
theorem WellFormed.scheduled (h : g.WellFormed) : (g.scheduled policy outputs).WellFormed :=
  h.setPass rfl

theorem WellFormed.beginPass (h : g.WellFormed) : g.beginPass.WellFormed :=
  h.setPass rfl

/-- Without a flattened graph the live nodes are the recorded ones. -/
theorem node?_beginPass (g : Graph α) (id : NodeId) :
    g.beginPass.node? id = g.recorded.get id := by
  rw [node?_eq]
  exact Option.or_none

theorem operation?_beginPass (g : Graph α) (id : NodeId) :
    g.beginPass.operation? id = (g.recorded.get id).map Node.operation := by
  rw [operation?, node?_beginPass]

/-- In a new pass the roster lists exactly the independent variables. -/
theorem WellFormed.mem_roster_beginPass (h : g.WellFormed) {id : NodeId} :
    id ∈ g.roster ↔ g.beginPass.operation? id = some .independent := by
  rw [operation?_beginPass, Option.map_eq_some_iff]
  simpa using h.mem_roster id

theorem operation?_scheduled (id : NodeId) :
    (g.scheduled policy outputs).operation? id = g.beginPass.operation? id := rfl

/-- Recorded nodes are live in a new pass. -/
theorem contains_beginPass {id : NodeId} :
    g.beginPass.contains id = true ↔ ∃ node, g.recorded.get id = some node := by
  rw [contains, node?_beginPass, Option.isSome_iff_exists]

/-- A pass over recorded outputs succeeds. -/
theorem generate_eq (h : g.WellFormed) (settings : Settings) (policy : Policy α)
    (hlive : ∀ id, Arg.node id ∈ outputs → ∃ node, g.recorded.get id = some node) :
    g.generate settings policy outputs =
      let prepared :=
        if settings.optimize then (g.scheduled policy outputs).flatten outputs
        else (outputs, g.scheduled policy outputs)
      (.ok prepared.1, if settings.reuse then prepared.2.reuseSlots else prepared.2) := by
  have hall : ∀ x ∈ outputs, g.beginPass.isLive x = true := by
    intro x hx
    cases x with
    | const v => rfl
    | node id => exact contains_beginPass.mpr (hlive id hx)
  have htake : outputs.takeWhile g.beginPass.isLive = outputs := List.takeWhile_eq_self_iff.mpr hall
  obtain ⟨seen, refs, hcount, _⟩ := countReferences_complete h.beginPass.closed_all
    h.beginPass.issued fun id hid => contains_beginPass.mpr (hlive id hid)
  unfold generate Graph.scheduled
  -- What earlier passes left is cleared, so every step starts from empty tables.
  simp only [pass_beginPass, htake, hcount, Nat.lt_irrefl, if_false, List.isEmpty_nil,
    Bool.not_true, Bool.false_eq_true]
  rfl

/-- Scheduling reserves slots for the roster and the outputs, settles the outputs, and queues those
that are not in the roster. -/
theorem WellFormed.settles_scheduled (h : g.WellFormed) (policy : Policy α)
    (hlive : ∀ id, Arg.node id ∈ outputs → ∃ node, g.recorded.get id = some node) :
    ∃ extra, let reserved := Reservation.make g.roster outputs
      let s := Schedule.run g.beginPass policy (g.beginPass.countReferences outputs).2
        reserved.slots reserved.lastId outputs
      Issued reserved.slots reserved.lastId (g.roster ++ extra) ∧
      (∀ id, Arg.node id ∈ outputs → id ∈ g.roster ++ extra) ∧
      (∀ id ∈ extra, id ∈ s.queue.toList) ∧
      Schedule.Settles g.beginPass (g.roster ++ extra) (outputs.filterMap Arg.node?)
        { slots := reserved.slots, lastId := reserved.lastId } s := by
  have hbegin := h.beginPass
  obtain ⟨rank, hrank, hbound⟩ := hbegin.exists_ranked
  obtain ⟨extra, hissued, hextra, houtputs⟩ := Reservation.issued_make h.roster_nodup outputs
  have hsettles := Schedule.settles_run policy (g.beginPass.countReferences outputs).2 hrank hbound
    hbegin.closed_all hbegin.issued hissued (fun id hid => contains_beginPass.mpr (hlive id hid))
    houtputs
  refine ⟨extra, hissued, houtputs, fun id hid => ?_, hsettles⟩
  have houtput := hextra id hid
  have hroster : id ∉ g.roster :=
    fun hmem => (List.nodup_append'.mp hissued.nodup).2.2 hmem hid
  exact hsettles.valid.decided id (hsettles.used id (Arg.mem_filterMap_node?.mpr houtput))
    (hsettles.valid.slot_of_reserved (houtputs id houtput)).1
    fun hop => hroster (h.mem_roster_beginPass.mpr hop)

/-- Only what the outputs reach is stored. -/
theorem WellFormed.reaches_scheduled (h : g.WellFormed) (policy : Policy α)
    (hlive : ∀ id, Arg.node id ∈ outputs → ∃ node, g.recorded.get id = some node) {id : NodeId}
    (hid : id ∈ (g.scheduled policy outputs).order) :
    ∃ root ∈ outputs.filterMap Arg.node?, Reaches g.beginPass.references root id := by
  obtain ⟨extra, _, _, _, hrun⟩ := h.settles_scheduled policy hlive
  exact (hrun.only id (hrun.valid.used id hid)).resolve_left (by simp)

/-- Scheduling gives every stored node a slot of its own and a place behind what it reads. -/
theorem WellFormed.scheduled_spec (h : g.WellFormed) (policy : Policy α)
    (hlive : ∀ id, Arg.node id ∈ outputs → ∃ node, g.recorded.get id = some node) :
    (g.scheduled policy outputs).Scheduled outputs := by
  have hbegin := h.beginPass
  obtain ⟨rank, hrank, hbound⟩ := hbegin.exists_ranked
  obtain ⟨extra, hissued, houtputs, hextra, hrun⟩ := h.settles_scheduled policy hlive
  have hvalid := hrun.valid
  have hfirst : (g.scheduled policy outputs).pass.firstTemporary = (g.roster ++ extra).length + 1 :=
    congrArg (· + 1) hissued.length
  have howners : ∀ slot, (g.scheduled policy outputs).pass.owners.get slot ≠ none ↔
      g.roster.length < slot ∧ slot < (g.scheduled policy outputs).pass.firstTemporary := by
    intro slot
    exact (Reservation.owners_make h.roster_nodup outputs slot).trans
      (and_congr_right fun _ => Nat.lt_succ_iff.symm)
  exact {
    ranked := ⟨rank, hrank, hbound⟩
    closed := hbegin.closed_all
    listed := fun _ => h.mem_roster_beginPass.mpr
    roster_independent := fun _ => h.mem_roster_beginPass.mp
    chains := by
      intro id family terms hop
      rw [operation?_scheduled, operation?_beginPass] at hop
      obtain ⟨node, hnode, heq⟩ := Option.map_eq_some_iff.mp hop
      have hchain := h.unchained id node hnode
      simp [heq, Operation.opcode, Opcode.isChain] at hchain
    roster_slot := fun _ _ => hvalid.slot_of_roster
    operation := hvalid.operation
    slot_gt := fun _ => hvalid.roster_lt_slot fun _ => h.mem_roster_beginPass.mp
    slot_le := fun id _ => hvalid.slot_le_lastId id
    roster_le := hvalid.roster_le_lastId
    nodup := hvalid.nodup
    slot_inj := fun _ ha _ _ => hvalid.slot_inj ha
    rank := hvalid.rank
    sorted := hvalid.order
    results := by
      intro id hid
      have hslot := (hvalid.slot_of_reserved (houtputs id hid)).2
      rcases List.mem_append.mp (houtputs id hid) with hroster | hqueued
      · exact .inl hroster
      · refine .inr ⟨hextra id hqueued, ?_⟩
        rw [hfirst]
        exact Nat.lt_succ_of_le hslot
    roster_lt := by
      rw [hfirst, List.length_append]
      exact Nat.lt_succ_of_le (Nat.le_add_right _ _)
    owners := howners
    owned := by
      intro slot hslot
      obtain ⟨hgt, hlt⟩ := (howners slot).mp hslot
      rw [hfirst] at hlt
      obtain ⟨id, hid, heq⟩ := hvalid.exists_reserved hgt (Nat.le_of_lt_succ hlt)
      exact ⟨id, hextra id hid, heq⟩
    temporaries := by
      rw [hfirst, Nat.add_right_comm]
      exact congrArg (· + 1) hvalid.lastId_eq }

/-- As many slots are issued as nodes are queued and independent variables are listed. -/
theorem WellFormed.lastId_scheduled (h : g.WellFormed) (policy : Policy α)
    (hlive : ∀ id, Arg.node id ∈ outputs → ∃ node, g.recorded.get id = some node) :
    let reserved := Reservation.make g.roster outputs
    let s := Schedule.run g.beginPass policy (g.beginPass.countReferences outputs).2
      reserved.slots reserved.lastId outputs
    s.lastId = s.queue.size + g.roster.length := by
  obtain ⟨extra, _, _, hextra, hrun⟩ := h.settles_scheduled policy hlive
  exact hrun.valid.lastId_eq_queue (fun _ => h.mem_roster_beginPass.mp) hextra

end Schedule

end Graph

end Straightline
