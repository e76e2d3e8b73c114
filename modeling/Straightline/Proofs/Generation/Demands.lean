import Straightline.Proofs.Generation.NormalForm

/-!
# Demanded operands

Whether a node is stored is decided at its first use. A policy that demands the operands of an
operation kind to be stored is asked about the first use only, so the demand could be missed where
another use comes first. A policy that stores what is shared misses none: a node with another use is
stored because it is shared. Flattening looks through copies without a slot, and takes over the slot
of every other operand.
-/

namespace Straightline

variable {α : Type}

namespace Schedule

variable {g : Graph α} {policy : Policy α} {refs : Table Nat} {roots : List NodeId}
  {outputs : List (Arg α)} {t t' : Tour}

/-- Where a node is left without being stored, neither is it stored wherever it is used nor is the
operand that led to it demanded. -/
theorem not_wanted_of_isStored {parent child : NodeId} {arg : Nat} {node : Node α}
    (hnode : g.node? child = some node) (hne : node.operation ≠ .independent)
    (h : isStored g policy refs roots parent arg child = false) :
    policy.stores node (refs.get child) = false ∧
      ∀ op, g.operation? parent = some op → policy.demands op.opcode arg = false := by
  have hskip : child ∉ roots ∧ policy.stores node (refs.get child) = false ∧
      ((g.operation? parent).any fun op => policy.demands op.opcode arg) = false := by
    simpa [isStored, hnode, hne, and_assoc] using h
  refine ⟨hskip.2.1, fun op hop => ?_⟩
  simpa [hop] using hskip.2.2

/-- A visited node is queued, is an independent variable, or was left by an operand that does not
have it stored. -/
def Tour.Passes (g : Graph α) (policy : Policy α) (refs : Table Nat) (roots : List NodeId)
    (outputs : List (Arg α)) (t : Tour) : Prop :=
  ∀ k ∈ t.visited, k ∈ t.queue ∨ g.operation? k = some .independent ∨
    ∃ e ∈ g.edges outputs k, isStored g policy refs roots e.1 e.2 k = false

theorem Tour.Passes.leave (h : t.Passes g policy refs roots outputs) {parent child : NodeId}
    {arg : Nat} (hedge : (parent, arg) ∈ g.edges outputs child) :
    (t.leave g policy refs roots parent arg child).Passes g policy refs roots outputs := by
  intro k hk
  rw [Tour.leave]
  rcases List.mem_cons.mp hk with rfl | hk
  · cases hstored : isStored g policy refs roots parent arg k with
    | true => exact .inl (by simp)
    | false => exact .inr (.inr ⟨(parent, arg), hedge, hstored⟩)
  · refine (h k hk).imp_left fun hmem => ?_
    split
    · exact List.mem_append_left _ hmem
    · exact hmem

theorem Tour.Passes.leaveOutput (h : t.Passes g policy refs roots outputs) (id : NodeId) :
    (t.leaveOutput g id).Passes g policy refs roots outputs := by
  intro k hk
  rw [Tour.leaveOutput]
  rcases List.mem_cons.mp hk with rfl | hk
  · split
    · next hskip =>
      refine hskip.symm.imp_right fun hind => .inl ?_
      obtain ⟨op, hop, hcode⟩ := Option.map_eq_some_iff.mp hind
      cases op with
      | independent => exact hop
      | _ => simp [Operation.opcode] at hcode
    · exact .inl (by simp)
  · refine (h k hk).imp_left fun hmem => ?_
    split
    · exact hmem
    · exact List.mem_append_left _ hmem

/-- Going through the operands of a node that the outputs reach. -/
theorem Visits.passes {parent : NodeId} {operands : List (Arg α)} {arg : Nat}
    (hvisits : Visits g policy refs roots parent operands arg t t')
    (hoperands : (g.operands parent).drop arg = operands) (hparent : g.Reached outputs parent)
    (h : t.Passes g policy refs roots outputs) : t'.Passes g policy refs roots outputs := by
  induction hvisits with
  | done => exact h
  | const _ ih => exact ih (by rw [← List.tail_drop, hoperands, List.tail_cons]) hparent h
  | @first parent child rest arg _ _ _ _ _ _ ihvisit ihrest =>
    have hget : (g.operands parent)[arg]? = some (.node child) := by
      rw [← List.head?_drop, hoperands, List.head?_cons]
    have hchild : g.Reached outputs child :=
      hparent.tail (mem_references_of_mem_operands (List.mem_of_getElem? hget))
    exact ihrest (by rw [← List.tail_drop, hoperands, List.tail_cons]) hparent
      ((ihvisit List.drop_zero hchild h).leave ⟨hparent, hget⟩)
  | again _ _ ih => exact ih (by rw [← List.tail_drop, hoperands, List.tail_cons]) hparent h

/-- Taking the outputs in turn. -/
theorem Covers.passes {ids : List NodeId} (hcovers : Covers g policy refs roots ids t t')
    (hids : ∀ id ∈ ids, .node id ∈ outputs) (h : t.Passes g policy refs roots outputs) :
    t'.Passes g policy refs roots outputs := by
  induction hcovers with
  | done => exact h
  | @first id _ _ _ _ _ hvisit _ ih =>
    have hroot : g.Reached outputs id := ⟨id, hids id List.mem_cons_self, .refl⟩
    exact ih (fun k hk => hids k (List.mem_cons_of_mem _ hk))
      ((hvisit.passes List.drop_zero hroot h).leaveOutput id)
  | again _ _ ih => exact ih (fun k hk => hids k (List.mem_cons_of_mem _ hk)) (h.leaveOutput _)

end Schedule

/-- A policy that stores what is shared, every select and the operand of every sign. -/
structure Policy.Guards (policy : Policy α) : Prop where
  /-- What is shared is stored. -/
  shared : policy.StoresShared
  /-- Selects are stored. -/
  selects : ∀ node refs, node.operation.opcode.isComparison = true →
    policy.stores node refs = true
  /-- The operands of signs are demanded. -/
  signs : policy.demands (.unary .sign) 0 = true

namespace Graph

variable {g : Graph α} {policy : Policy α} {outputs : List (Arg α)} {seen : List NodeId}
  {id k : NodeId}

/-- Whichever use comes first, an operand that the policy demands has a slot after scheduling, if
the policy stores what is shared. -/
theorem WellFormed.slot_scheduled_of_demands (h : g.WellFormed)
    (hlive : ∀ id, Arg.node id ∈ outputs → ∃ node, g.recorded.get id = some node)
    (hpolicy : policy.StoresShared) {arg : Nat} (hedge : (id, arg) ∈ g.beginPass.edges outputs k)
    {op : Operation (Arg α)} (hop : g.beginPass.operation? id = some op)
    (hdemands : policy.demands op.opcode arg = true) :
    (g.scheduled policy outputs).slot k ≠ 0 := by
  obtain ⟨t, hcovers, hqueue, hvisited⟩ := h.exists_covers policy hlive
  have houtputs : ∀ root ∈ outputs.filterMap Arg.node?, .node root ∈ outputs :=
    fun _ => Arg.mem_filterMap_node?.mp
  have hpasses := hcovers.passes houtputs fun k hk => by simp at hk
  have hreached : g.beginPass.Reached outputs k :=
    hedge.1.tail (Schedule.mem_references_of_mem_operands (List.mem_of_getElem? hedge.2))
  have hspec := h.scheduled_spec policy hlive
  have hroster : g.beginPass.operation? k = some .independent →
      (g.scheduled policy outputs).slot k ≠ 0 := by
    intro hind
    have hpos := (hspec.slot_roster (h.mem_roster_beginPass.mpr hind)).1
    omega
  rcases hpasses k ((hvisited k).mpr hreached) with hmem | hind | ⟨e, he, hskip⟩
  · rw [hqueue] at hmem
    have hgt := hspec.slot_gt k hmem
    omega
  · exact hroster hind
  · have hlive' : ∀ id, Arg.node id ∈ outputs → g.beginPass.contains id = true :=
      fun id hid => contains_beginPass.mpr (hlive id hid)
    obtain ⟨root, hroot, hreach⟩ := hreached
    obtain ⟨node, hnode⟩ := Option.isSome_iff_exists.mp
      (h.beginPass.closed_all.contains_of_reaches (hlive' root hroot) hreach)
    by_cases hind : node.operation = .independent
    · exact hroster (by rw [operation?, hnode, Option.map_some, hind])
    · -- The operand that left the node is another one, so the node is shared.
      obtain ⟨hskip, hfree⟩ := Schedule.not_wanted_of_isStored hnode hind hskip
      have hother : e ≠ (id, arg) := by
        rintro rfl
        rw [hfree op hop] at hdemands
        cases hdemands
      have hrefs := one_lt_countReferences h.beginPass.closed_all h.beginPass.issued hlive' he hedge
        hother
      rw [hpolicy node _ hrefs] at hskip
      cases hskip

/-- Of the nodes that roots reach, every select has a slot, and every sign is of a node with a
slot. -/
structure Guarded (g : Graph α) (roots : List (Arg α)) : Prop where
  /-- A select has a slot. -/
  selects : ∀ id op, g.Reached roots id → g.operation? id = some op →
    op.opcode.isComparison = true → g.slot id ≠ 0
  /-- A sign is of a node with a slot, be it an independent variable or a stored node. -/
  signs : ∀ id x, g.Reached roots id → g.operation? id = some (.unary .sign x) →
    ∃ k, x = .node k ∧ g.slot k ≠ 0

/-- What nodes reach that are reached is reached. -/
theorem Guarded.of_reached {roots roots' : List (Arg α)} (h : g.Guarded roots)
    (hroots : ∀ root, .node root ∈ roots' → g.Reached roots root) : g.Guarded roots' := by
  have hreached : ∀ id, g.Reached roots' id → g.Reached roots id := by
    rintro id ⟨root, hroot, hreach⟩
    obtain ⟨top, htop, habove⟩ := hroots root hroot
    exact ⟨top, htop, habove.trans hreach⟩
  exact ⟨fun id op hid => h.selects id op (hreached id hid),
    fun id x hid => h.signs id x (hreached id hid)⟩

/-- Scheduling guards what the outputs reach. -/
theorem WellFormed.guarded_scheduled (h : g.WellFormed) (hpolicy : policy.Guards)
    (hlive : ∀ id, Arg.node id ∈ outputs → ∃ node, g.recorded.get id = some node) :
    (g.scheduled policy outputs).Guarded outputs where
  selects := by
    intro id op hid hop hselect
    rw [operation?_scheduled, operation?_beginPass] at hop
    obtain ⟨node, hnode, rfl⟩ := Option.map_eq_some_iff.mp hop
    refine h.slot_scheduled_of_stores hlive hid hnode ?_ (hpolicy.selects node _ hselect)
    intro hind
    rw [hind] at hselect
    cases hselect
  signs := by
    intro id x hid hop
    have hbegin : g.beginPass.operation? id = some (.unary .sign x) := hop
    rw [operation?_scheduled, operation?_beginPass] at hop
    obtain ⟨node, hnode, hsign⟩ := Option.map_eq_some_iff.mp hop
    -- Recording evaluates the sign of a constant.
    have hgrounded := h.grounded id node hnode
    rw [hsign] at hgrounded
    cases x with
    | const v =>
      exact absurd rfl (hgrounded (by simp [Operation.opcode]) (by simp [Operation.opcode]))
    | node k =>
      have hedge : (id, 0) ∈ g.beginPass.edges outputs k :=
        ⟨hid, by simp [operands, hbegin, Operation.operands]⟩
      exact ⟨k, rfl, h.slot_scheduled_of_demands hlive hpolicy.shared hedge hbegin hpolicy.signs⟩

/-- A select was a select before flattening. -/
theorem Flattens.exists_of_isComparison {op : Operation (Arg α)} (h : g.Flattens id op)
    (hselect : op.opcode.isComparison = true) :
    ∃ op', g.operation? id = some op' ∧ op'.opcode.isComparison = true := by
  cases h with
  | @kept op' ρ hop' =>
    rw [Operation.opcode_map] at hselect
    exact ⟨op', hop', hselect⟩
  | chained => cases hselect

/-- A sign was a sign before flattening, of something that stands for its operand. -/
theorem Flattens.exists_of_sign {x : Arg α} (h : g.Flattens id (.unary .sign x)) :
    ∃ y, g.operation? id = some (.unary .sign y) ∧ g.Resolves y x := by
  generalize hsign : Operation.unary .sign x = op at h
  cases h with
  | chained => cases hsign
  | @kept op' ρ hop' _ _ _ hρ =>
    cases op' with
    | unary u y =>
      obtain ⟨rfl, rfl⟩ : .sign = u ∧ x = ρ y := by simpa [Operation.map] using hsign
      exact ⟨y, hop', (hρ y (by simp [Operation.operands])).1⟩
    | _ => simp [Operation.map] at hsign

/-- Flattening keeps the guard: a select takes over the slot, and so does the operand of a sign,
which is not looked through. -/
theorem Flattenable.guarded_flatten (hg : g.Flattenable outputs seen) (h : g.Guarded outputs) :
    (g.flatten outputs).2.Guarded
      ((g.flatten outputs).2.order.map Arg.node ++ (g.flatten outputs).1) := by
  obtain ⟨done, owner, f, heq, hvalid, hdone, hshaped⟩ := hg.exists_flatten
  rw [heq]
  have howner : ∀ b n, f.nodes.get b = some n → g.Reached outputs (owner b) := fun b n hn =>
    (mem_seen_iff_reached hg.counted).mp (hvalid.reached _ (hvalid.owner_mem b n hn).1)
  refine ⟨fun id op hid hop hselect => ?_, fun id x hid hop => ?_⟩
  · have hne : op ≠ .independent := by
      rintro rfl
      cases hselect
    obtain ⟨⟨n, hn, _⟩, hflat⟩ := (hvalid.flattens_of_inUse hg hshaped
      (hvalid.inUse hg hdone hshaped hid) hop).resolve_left hne
    obtain ⟨op', hop', hselect'⟩ :=
      hflat.exists_of_isComparison (by rwa [Operation.opcode_map])
    rw [hvalid.slot_built hg ⟨n, hn⟩]
    exact h.selects _ op' (howner id n hn) hop' hselect'
  · obtain ⟨⟨n, hn, _⟩, hflat⟩ := (hvalid.flattens_of_inUse hg hshaped
      (hvalid.inUse hg hdone hshaped hid) hop).resolve_left (by simp)
    obtain ⟨y, hop', hres⟩ := hflat.exists_of_sign
    obtain ⟨m, rfl, hslot⟩ := h.signs _ y (howner id n hn) hop'
    have hstays := hres.eq_of_slot hslot
    cases x with
    | const v => cases hstays
    | node j =>
      have hmem : j ∈ (f.graph g).references id :=
        mem_references_of_operand hop (by simp [Operation.operands])
      obtain rfl : owner j = m := by simpa using hstays
      refine ⟨j, rfl, ?_⟩
      rw [hvalid.slot_graph hg (hvalid.closed_graph hg id j hmem)]
      exact hslot

/-- A pass guards what the stored nodes and the outputs reach, whether the graph is flattened and
whether slots are shared. -/
theorem WellFormed.guarded_shared (h : g.WellFormed) (hpolicy : policy.Guards)
    (hlive : ∀ id, Arg.node id ∈ outputs → ∃ node, g.recorded.get id = some node)
    (optimize reuse : Bool) :
    ((g.prepared optimize policy outputs).2.shared reuse).Guarded
      (((g.prepared optimize policy outputs).2.shared reuse).order.map Arg.node ++
        (g.prepared optimize policy outputs).1) := by
  have hscheduled := h.guarded_scheduled hpolicy hlive
  have hprepared : (g.prepared optimize policy outputs).2.Guarded
      ((g.prepared optimize policy outputs).2.order.map Arg.node ++
        (g.prepared optimize policy outputs).1) := by
    cases optimize with
    | false =>
      refine hscheduled.of_reached fun root hroot => ?_
      rcases List.mem_append.mp hroot with hroot | hroot
      · obtain ⟨id, hid, heq⟩ := List.mem_map.mp hroot
        obtain rfl : id = root := by simpa using heq
        obtain ⟨top, htop, hreach⟩ := h.reaches_scheduled policy hlive hid
        exact ⟨top, Arg.mem_filterMap_node?.mp htop, hreach⟩
      · exact ⟨root, hroot, .refl⟩
    | true =>
      obtain ⟨seen, hg⟩ := h.exists_flattenable policy hlive
      exact hg.guarded_flatten hscheduled
  have hzero := (h.prepares optimize policy hlive).toScheduled.slot_shared_eq_zero reuse
  refine ⟨fun id op hid hop hselect => ?_, fun id x hid hop => ?_⟩
  · rw [reached_shared] at hid
    rw [operation?_shared] at hop
    exact mt (hzero id).mp (hprepared.selects id op hid hop hselect)
  · rw [reached_shared] at hid
    rw [operation?_shared] at hop
    obtain ⟨k, rfl, hslot⟩ := hprepared.signs id x hid hop
    exact ⟨k, rfl, mt (hzero k).mp hslot⟩

end Graph

end Straightline
