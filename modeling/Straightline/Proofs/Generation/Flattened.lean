import Straightline.Proofs.Generation.Shape

/-!
# Flattened graphs

What flattening hands on: the graph with the built nodes beside the recorded ones is well formed
and scheduled for the operands that stand for the outputs. Every fact is carried back along the
owners: a built node reads only built nodes whose owners its own owner reads, and it has the slot
of its owner. Wherever terms can be entered into chains one by one, the values of the owners are a
valuation of the flattened graph.
-/

namespace Straightline

namespace Flattening

variable {α : Type} {g : Graph α} {outputs : List (Arg α)} {seen done : List NodeId}
  {owner : NodeId → NodeId} {f : Flattening α} {id k : NodeId}

/-- The graph with the built nodes beside the recorded ones. -/
def graph (g : Graph α) (f : Flattening α) : Graph α :=
  { g with
    next := f.next
    pass :=
      { g.pass with
        slots := f.slots
        ranks := f.ranks
        refs := f.refs
        flat := some
          { nodes := f.nodes
            count := f.count
            order := g.pass.order.filterMap fun id => (f.image (.node id)).node?
            images := f.images } } }

/-- Without a flattened graph the stored nodes are those that were scheduled. -/
theorem order_eq (hg : g.Flattenable outputs seen) : g.order = g.pass.order := by
  rw [Graph.order, hg.unflattened]
  rfl

/-- Recorded nodes stay as they are. -/
theorem operation?_graph (hg : g.Flattenable outputs seen) {op : Operation (Arg α)}
    (hop : g.operation? id = some op) : (f.graph g).operation? id = some op := by
  obtain ⟨n, hn, rfl⟩ := Option.map_eq_some_iff.mp hop
  exact Graph.operation?_of_recorded (g := f.graph g) (recorded_of_node? hg hn)

/-- Built nodes are not recorded. -/
theorem Valid.recorded_of_built (hg : g.Flattenable outputs seen) (h : Valid g seen done owner f)
    {n : Node α} (hn : f.nodes.get id = some n) : g.recorded.get id = none := by
  cases hrec : g.recorded.get id with
  | none => rfl
  | some m =>
    have hlt := hg.wellFormed.issued id (Graph.contains_of_recorded hrec)
    exact absurd hlt (Nat.not_lt_of_le (h.range id n hn).1)

/-- Built nodes are live. -/
theorem Valid.operation?_built (hg : g.Flattenable outputs seen) (h : Valid g seen done owner f)
    {n : Node α} (hn : f.nodes.get id = some n) :
    (f.graph g).operation? id = some n.operation := by
  have hrec := h.recorded_of_built hg hn
  have hnode : (f.graph g).node? id = (g.recorded.get id).or (f.nodes.get id) := rfl
  rw [Graph.operation?, hnode, hrec, Option.none_or, hn, Option.map_some]

/-- A live node was recorded, and owns itself, or was built. -/
theorem Valid.operation?_cases (hg : g.Flattenable outputs seen) (h : Valid g seen done owner f)
    {op : Operation (Arg α)} (hop : (f.graph g).operation? id = some op) :
    g.operation? id = some op ∧ owner id = id ∨
      ∃ n, f.nodes.get id = some n ∧ n.operation = op := by
  obtain ⟨n, hn, rfl⟩ := Option.map_eq_some_iff.mp hop
  have hnode : (f.graph g).node? id = (g.recorded.get id).or (f.nodes.get id) := rfl
  rw [hnode] at hn
  cases hrec : g.recorded.get id with
  | none =>
    rw [hrec, Option.none_or] at hn
    exact .inr ⟨n, hn, rfl⟩
  | some m =>
    rw [hrec, Option.some_or, Option.some_inj] at hn
    have hlt := hg.wellFormed.issued id (Graph.contains_of_recorded hrec)
    exact .inl ⟨hn ▸ Graph.operation?_of_recorded hrec, h.owner_of_lt id hlt⟩

/-- What a built node refers to is an independent variable or a built node. -/
theorem Valid.references_built (hg : g.Flattenable outputs seen) (h : Valid g seen done owner f)
    {n : Node α} (hn : f.nodes.get id = some n) (hk : k ∈ (f.graph g).references id) :
    k ∈ g.roster ∨ ∃ m, f.nodes.get k = some m := by
  rw [Graph.references_of_operation (h.operation?_built hg hn)] at hk
  exact (h.reference id n hn k hk).2.imp_right And.left

/-- A reference leads under the owner. -/
theorem Valid.under_of_references (hg : g.Flattenable outputs seen)
    (h : Valid g seen done owner f) (hk : k ∈ (f.graph g).references id) :
    Under g.references g.slot (owner id) (owner k) := by
  cases hop : (f.graph g).operation? id with
  | none => simp [Graph.references, hop] at hk
  | some op =>
    rw [Graph.references_of_operation hop] at hk
    rcases h.operation?_cases hg hop with ⟨hold, howner⟩ | ⟨n, hn, rfl⟩
    · have hmem : k ∈ g.references id := by rwa [Graph.references_of_operation hold]
      have hlive := hg.closed id k hmem
      rw [howner, h.owner_of_lt k (hg.wellFormed.issued k hlive)]
      exact .direct hmem
    · exact (h.reference id n hn k hk).1

/-- A built node is live, and so is an independent variable. -/
theorem Valid.contains_graph (hg : g.Flattenable outputs seen) (h : Valid g seen done owner f)
    (hk : k ∈ g.roster ∨ ∃ m, f.nodes.get k = some m) : (f.graph g).contains k = true := by
  rcases hk with hroster | ⟨m, hm⟩
  · exact Graph.contains_iff.mpr ⟨_, operation?_graph hg (hg.roster_independent k hroster)⟩
  · exact Graph.contains_iff.mpr ⟨_, h.operation?_built hg hm⟩

/-- References lead to live nodes. -/
theorem Valid.closed_graph (hg : g.Flattenable outputs seen) (h : Valid g seen done owner f) :
    (f.graph g).Closed := by
  intro id k hk
  cases hop : (f.graph g).operation? id with
  | none => simp [Graph.references, hop] at hk
  | some op =>
    rcases h.operation?_cases hg hop with ⟨hold, _⟩ | ⟨n, hn, _⟩
    · rw [Graph.references_of_operation hop, ← Graph.references_of_operation hold] at hk
      obtain ⟨op', hop'⟩ := Graph.contains_iff.mp (hg.closed id k hk)
      exact Graph.contains_iff.mpr ⟨op', operation?_graph hg hop'⟩
    · exact h.contains_graph hg (h.references_built hg hn hk)

/-- Nodes are ranked by their owners. -/
theorem Valid.ranked_graph (hg : g.Flattenable outputs seen) (h : Valid g seen done owner f)
    {rank : NodeId → Nat} (hrank : Ranked g.references rank) :
    Ranked (f.graph g).references fun id => rank (owner id) :=
  fun _ _ hk => (h.under_of_references hg hk).lt_of_ranked hrank

/-- A live node has the slot of its owner. -/
theorem Valid.slot_graph (hg : g.Flattenable outputs seen) (h : Valid g seen done owner f)
    (hlive : (f.graph g).contains id = true) : (f.graph g).slot id = g.slot (owner id) := by
  obtain ⟨op, hop⟩ := Graph.contains_iff.mp hlive
  rcases h.operation?_cases hg hop with ⟨hold, howner⟩ | ⟨n, hn, _⟩
  · rw [howner]
    exact h.slots id (hg.wellFormed.issued id (Graph.contains_iff.mpr ⟨_, hold⟩))
  · exact h.slot id n hn

theorem Valid.slot_built (hg : g.Flattenable outputs seen) (h : Valid g seen done owner f)
    {b : NodeId} (hb : ∃ n, f.nodes.get b = some n) : (f.graph g).slot b = g.slot (owner b) :=
  h.slot_graph hg (h.contains_graph hg (.inr hb))

/-- The owner of a node reads the owners of what the node reads. -/
theorem Valid.reads_graph (hg : g.Flattenable outputs seen) (h : Valid g seen done owner f)
    (hread : Reads (f.graph g).references (f.graph g).slot id k) :
    Reads g.references g.slot (owner id) (owner k) := by
  induction hread with
  | @direct id k hk hslot =>
    rw [h.slot_graph hg (h.closed_graph hg id k hk)] at hslot
    exact (h.under_of_references hg hk).reads hslot
  | @through id m k hm hslot _ ih =>
    rw [h.slot_graph hg (h.closed_graph hg id m hm)] at hslot
    exact (h.under_of_references hg hm).trans_reads hslot ih

/-- What a built node reads is an independent variable or a built node. -/
theorem Valid.reads_built (hg : g.Flattenable outputs seen) (h : Valid g seen done owner f)
    (hid : ∃ n, f.nodes.get id = some n)
    (hread : Reads (f.graph g).references (f.graph g).slot id k) :
    k ∈ g.roster ∨ ∃ m, f.nodes.get k = some m := by
  induction hread with
  | direct hk _ =>
    obtain ⟨n, hn⟩ := hid
    exact h.references_built hg hn hk
  | @through id m k hm hslot _ ih =>
    obtain ⟨n, hn⟩ := hid
    rcases h.references_built hg hn hm with hroster | hbuilt
    · -- Independent variables have slots.
      rw [h.slot_graph hg (h.closed_graph hg id m hm),
        h.owner_of_lt m (hg.roster_lt_next hroster)] at hslot
      have hpos := (hg.slot_roster hroster).1
      omega
    · exact ih hbuilt

/-- An operand stands for a node with a slot as itself. -/
theorem Valid.stands_of_slot (h : Valid g seen done owner f) (hid : id ∈ done)
    (hslot : g.slot id ≠ 0) : Stands g owner f.nodes (.node id) (f.image (.node id)) := by
  obtain ⟨r, hres, hend, hrest⟩ := h.image id hid
  obtain rfl := Graph.Resolves.end_unique hres .refl hend
    (Graph.isEnd_node fun halias => hslot halias.1)
  rcases hrest with hstands | ⟨t, ht, habsorbed⟩
  · exact hstands
  · obtain rfl : id = t := by simpa using ht
    exact absurd habsorbed.1 hslot

/-- A built node stands for a stored one. -/
theorem Valid.exists_built (hg : g.Flattenable outputs seen) (h : Valid g seen done owner f)
    (hdone : ∀ id ∈ seen, id ∈ done) (hid : id ∈ g.order) :
    ∃ b n, f.image (.node id) = .node b ∧ f.nodes.get b = some n ∧ owner b = id := by
  have hslot := hg.slot_gt id hid
  have hstands := h.stands_of_slot (hdone id (hg.order_seen id hid)) (by omega)
  generalize hy : f.image (.node id) = y at hstands
  generalize hx : Arg.node id = x at hstands
  cases hstands with
  | const v => simp at hx
  | independent ht =>
    obtain rfl : id = _ := by simpa using hx
    have hle := (hg.slot_roster ht).2
    omega
  | @built b n hb => exact ⟨b, n, rfl, hb, by simpa using hx.symm⟩

/-- What stands for a node and is another one is its counterpart. -/
theorem counterpart?_of_image {k : NodeId} (himage : f.image (.node id) = .node k)
    (hne : k ≠ id) : (f.graph g).counterpart? id = some k := by
  change (f.images.get id).bind Arg.node? = some k
  rw [image] at himage
  cases hfound : f.images.get id with
  | none =>
    rw [hfound, Option.getD_none, Arg.node.injEq] at himage
    exact absurd himage.symm hne
  | some y =>
    rw [hfound, Option.getD_some] at himage
    rw [himage]
    rfl

/-- The stored nodes of the flattened graph are built. -/
theorem Valid.mem_order (hg : g.Flattenable outputs seen) (h : Valid g seen done owner f)
    (hdone : ∀ id ∈ seen, id ∈ done) {b : NodeId} :
    b ∈ (f.graph g).order ↔ owner b ∈ g.order ∧ ∃ n, f.nodes.get b = some n := by
  have hmem : b ∈ (f.graph g).order ↔ ∃ id ∈ g.order, (f.image (.node id)).node? = some b := by
    rw [order_eq hg]
    exact List.mem_filterMap
  rw [hmem]
  constructor
  · rintro ⟨id, hid, hb⟩
    obtain ⟨c, n, himage, hn, howner⟩ := h.exists_built hg hdone hid
    obtain rfl : c = b := by simpa [himage, Arg.node?] using hb
    exact ⟨howner ▸ hid, n, hn⟩
  · rintro ⟨hid, n, hn⟩
    obtain ⟨c, m, himage, hm, howner⟩ := h.exists_built hg hdone hid
    obtain rfl := h.owner_inj c m b n hm hn howner
    exact ⟨owner c, hid, by rw [himage]; rfl⟩

/-- The flattened graph stores what the graph stored, in the same order. -/
theorem Valid.map_owner_order (hg : g.Flattenable outputs seen) (h : Valid g seen done owner f)
    (hdone : ∀ id ∈ seen, id ∈ done) : (f.graph g).order.map owner = g.order := by
  have himages : (f.graph g).order.map owner =
      g.order.filterMap fun id => (f.image (.node id)).node?.map owner := by
    rw [order_eq hg]
    exact List.map_filterMap
  have hself : ∀ id ∈ g.order, (f.image (.node id)).node?.map owner = some id := by
    intro id hid
    obtain ⟨b, n, himage, _, howner⟩ := h.exists_built hg hdone hid
    rw [himage, Arg.node?, Option.map_some, howner]
  rw [himages, List.filterMap_congr hself, List.filterMap_some]

/-- Stored nodes stand behind the stored nodes that they read. -/
theorem Valid.sorted_graph (hg : g.Flattenable outputs seen) (h : Valid g seen done owner f)
    (hdone : ∀ id ∈ seen, id ∈ done) :
    Sorted (Schedule.Needs (f.graph g) (f.graph g).pass.slots) (f.graph g).order := by
  rintro before b after horder k ⟨hread, hne⟩
  have hb := (h.mem_order hg hdone).mp (show b ∈ (f.graph g).order by rw [horder]; simp)
  rcases h.reads_built hg hb.2 hread with hroster | ⟨m, hm⟩
  · exact absurd (operation?_graph hg (hg.roster_independent k hroster)) hne
  · have hsplit : g.order = before.map owner ++ owner b :: after.map owner := by
      rw [← h.map_owner_order hg hdone, horder, List.map_append, List.map_cons]
    rcases hg.mem_of_reads hsplit (h.reads_graph hg hread) with hroster | hbefore
    · exact absurd hroster (h.owner_mem k m hm).2
    · obtain ⟨c, hc, howner⟩ := List.mem_map.mp hbefore
      have hcbuilt := (h.mem_order hg hdone).mp
        (show c ∈ (f.graph g).order by rw [horder]; exact List.mem_append_left _ hc)
      obtain ⟨n, hn⟩ := hcbuilt.2
      exact h.owner_inj c n k m hn hm howner ▸ hc

/-- What stands for an output is an independent variable or a stored node that the output owns. -/
theorem Valid.image_output (hg : g.Flattenable outputs seen) (h : Valid g seen done owner f)
    (hdone : ∀ id ∈ seen, id ∈ done) {x : Arg α} (hx : x ∈ outputs) :
    Stands g owner f.nodes x (f.image x) := by
  cases x with
  | const v => exact .const v
  | node id =>
    have hseen : id ∈ seen :=
      hg.counted.mem_seen.mpr ⟨id, Arg.mem_filterMap_node?.mpr hx, .refl⟩
    refine h.stands_of_slot (hdone id hseen) ?_
    rcases hg.results id hx with hroster | ⟨horder, _⟩
    · have hpos := (hg.slot_roster hroster).1
      omega
    · have hgt := hg.slot_gt id horder
      omega

/-- What stands for an output is live. -/
theorem Valid.image_cases (hg : g.Flattenable outputs seen) (h : Valid g seen done owner f)
    (hdone : ∀ id ∈ seen, id ∈ done) (hk : .node k ∈ outputs.map f.image) :
    k ∈ g.roster ∨ (∃ n, f.nodes.get k = some n) ∧ .node (owner k) ∈ outputs := by
  obtain ⟨x, hx, himage⟩ := List.mem_map.mp hk
  have hstands := h.image_output hg hdone hx
  rw [himage] at hstands
  cases hstands with
  | independent ht => exact .inl ht
  | built hn => exact .inr ⟨⟨_, hn⟩, hx⟩

/-- The flattened graph has an evaluation order and slots. -/
theorem Valid.prepared_graph (hg : g.Flattenable outputs seen) (h : Valid g seen done owner f)
    (hdone : ∀ id ∈ seen, id ∈ done) : (f.graph g).Prepared where
  ranked := by
    obtain ⟨rank, hrank, hbound⟩ := hg.ranked
    exact ⟨_, h.ranked_graph hg hrank, fun id => Nat.le_trans (hbound _) h.next_le⟩
  closed := h.closed_graph hg
  listed := by
    intro id hop
    rcases h.operation?_cases hg hop with ⟨hold, _⟩ | ⟨n, hn, hind⟩
    · exact hg.listed id hold
    · exact absurd hind (h.operation id n hn)
  roster_independent id hid := operation?_graph hg (hg.roster_independent id hid)
  chains := by
    intro id family terms hop
    rcases h.operation?_cases hg hop with ⟨hold, _⟩ | ⟨n, hn, hchain⟩
    · exact hg.chains id family terms hold
    · exact h.chains id n family terms hn hchain
  roster_slot i id hi :=
    (h.slots id (hg.roster_lt_next (List.mem_of_getElem? hi))).trans (hg.roster_slot i id hi)
  operation := by
    intro b hb
    obtain ⟨_, n, hn⟩ := (h.mem_order hg hdone).mp hb
    exact ⟨n.operation, h.operation?_built hg hn, h.operation b n hn⟩
  slot_gt := by
    intro b hb
    obtain ⟨horder, hbuilt⟩ := (h.mem_order hg hdone).mp hb
    rw [h.slot_built hg hbuilt]
    exact hg.slot_gt _ horder
  slot_le := by
    intro b hb
    obtain ⟨horder, hbuilt⟩ := (h.mem_order hg hdone).mp hb
    rw [h.slot_built hg hbuilt]
    exact hg.slot_le _ horder
  roster_le := hg.roster_le

/-- The flattened graph is scheduled for the operands that stand for the outputs. -/
theorem Valid.scheduled_graph (hg : g.Flattenable outputs seen) (h : Valid g seen done owner f)
    (hdone : ∀ id ∈ seen, id ∈ done) : (f.graph g).Scheduled (outputs.map f.image) where
  toPrepared := h.prepared_graph hg hdone
  nodup := by
    have hnodup := hg.nodup
    rw [← h.map_owner_order hg hdone] at hnodup
    exact hnodup.of_map owner
  slot_inj := by
    intro a ha b hb hab
    obtain ⟨haorder, n, hn⟩ := (h.mem_order hg hdone).mp ha
    obtain ⟨hborder, m, hm⟩ := (h.mem_order hg hdone).mp hb
    rw [h.slot_built hg ⟨n, hn⟩, h.slot_built hg ⟨m, hm⟩] at hab
    exact h.owner_inj a n b m hn hm (hg.slot_inj _ haorder _ hborder hab)
  rank := by
    intro i b hb
    obtain ⟨_, n, hn⟩ := (h.mem_order hg hdone).mp (List.mem_of_getElem? hb)
    have howner : g.order[i]? = some (owner b) := by
      rw [← h.map_owner_order hg hdone, List.getElem?_map, hb, Option.map_some]
    exact (h.rank b n hn).trans (hg.rank i (owner b) howner)
  sorted := h.sorted_graph hg hdone
  results := by
    intro k hk
    rcases h.image_cases hg hdone hk with hroster | ⟨⟨n, hn⟩, houtput⟩
    · exact .inl hroster
    · obtain ⟨horder, hlt⟩ := (hg.results _ houtput).resolve_left (h.owner_mem k n hn).2
      refine .inr ⟨(h.mem_order hg hdone).mpr ⟨horder, n, hn⟩, ?_⟩
      rw [h.slot_built hg ⟨n, hn⟩]
      exact hlt
  roster_lt := hg.roster_lt
  owners := hg.owners
  owned := by
    intro slot hslot
    obtain ⟨id, hid, rfl⟩ := hg.owned slot hslot
    obtain ⟨b, n, _, hn, rfl⟩ := h.exists_built hg hdone hid
    exact ⟨b, (h.mem_order hg hdone).mpr ⟨hid, n, hn⟩, h.slot_built hg ⟨n, hn⟩⟩
  temporaries := by
    have hcount : (f.graph g).order.countP (fun b => g.pass.firstTemporary ≤ (f.graph g).slot b) =
        g.order.countP fun id => g.pass.firstTemporary ≤ g.slot id := by
      rw [← h.map_owner_order hg hdone, List.countP_map]
      refine List.countP_congr fun b hb => ?_
      rw [h.slot_built hg ((h.mem_order hg hdone).mp hb).2]
      rfl
    exact hg.temporaries.trans (congrArg (g.pass.firstTemporary + ·) hcount.symm)

/-- Flattening keeps the graph well formed. -/
theorem Valid.wellFormed_graph (hg : g.Flattenable outputs seen) (h : Valid g seen done owner f) :
    (f.graph g).WellFormed where
  closed := hg.wellFormed.closed
  acyclic := by
    obtain ⟨rank, hrank, _⟩ := hg.ranked
    exact (h.ranked_graph hg hrank).acyclic
  arity _ node _ _ hn := node.operation.length_operands hn
  unchained := hg.wellFormed.unchained
  grounded := hg.wellFormed.grounded
  mem_roster := hg.wellFormed.mem_roster
  roster_sorted := hg.wellFormed.roster_sorted
  issued := by
    intro id hlive
    obtain ⟨op, hop⟩ := Graph.contains_iff.mp hlive
    rcases h.operation?_cases hg hop with ⟨hold, _⟩ | ⟨n, hn, _⟩
    · have hlt := hg.wellFormed.issued id (Graph.contains_iff.mpr ⟨_, hold⟩)
      exact Nat.lt_of_lt_of_le hlt h.next_le
    · exact (h.range id n hn).2
  flat_closed id node hn k hk :=
    h.contains_graph hg ((h.reference id node hn k hk).2.imp_right And.left)
  flat_apart id _ hn := show g.recorded.get id = none from h.recorded_of_built hg hn

/-- The values of the owners are a valuation of the flattened graph. -/
theorem Valued.isValuation [Scalar α] {inputs : List α} {val : NodeId → α}
    (hg : g.Flattenable outputs seen) (h : Valid g seen done owner f)
    (hval : g.IsValuation inputs val) (hvalued : Valued val owner f) :
    (f.graph g).IsValuation inputs (val ∘ owner) := by
  intro id op hop
  rcases h.operation?_cases hg hop with ⟨hold, howner⟩ | ⟨n, hn, rfl⟩
  · have heval : ∀ x ∈ op.operands, x.eval (val ∘ owner) = x.eval val := by
      intro x hx
      cases x with
      | const v => rfl
      | node k =>
        have hlive := hg.closed id k (Graph.mem_references_of_operand hold hx)
        exact congrArg val (h.owner_of_lt k (hg.wellFormed.issued k hlive))
    have hrequired := hval id op hold
    rw [Function.comp_apply, howner, ← hrequired]
    cases op with
    | independent => rfl
    | _ => exact congrArg Operation.value? (Operation.map_congr heval)
  · rw [Graph.required?_of_ne inputs _ id (h.operation id n hn)]
    exact hvalued id n hn

end Flattening

namespace Graph

variable {α : Type} {g : Graph α} {outputs : List (Arg α)} {seen : List NodeId}

/-- Flattening takes each node that the outputs reach once, behind its operands. -/
theorem Flattenable.dependencyOrder_spec (hg : g.Flattenable outputs seen) :
    let order := dependencyOrder g.references (g.next + 1) (outputs.filterMap Arg.node?)
    (∀ id, id ∈ order ↔ id ∈ seen) ∧ order.Nodup ∧
      Sorted (fun a b => b ∈ g.references a) order := by
  obtain ⟨rank, hrank, hbound⟩ := hg.ranked
  have hdepth : ∀ id, rank id < g.next + 1 := fun id => Nat.lt_succ_of_le (hbound id)
  refine ⟨fun id => ?_, nodup_dependencyOrder hrank hdepth _, sorted_dependencyOrder hrank hdepth _⟩
  rw [mem_dependencyOrder hrank hdepth, hg.counted.mem_seen]

/-- What every turn of flattening keeps holds of the flattened graph. -/
theorem Flattenable.exists_flatten_of_turn (hg : g.Flattenable outputs seen)
    {P : List NodeId → (NodeId → NodeId) → Flattening α → Prop}
    (hstart : P [] (fun id => id) (Flattening.start g))
    (hturn : ∀ done owner f id owner' f', Flattening.Valid g seen done owner f → id ∈ seen →
      id ∉ done → (∀ k ∈ g.references id, k ∈ done) → Flattening.Turn g owner f id owner' f' →
      P done owner f → P (done ++ [id]) owner' f') :
    ∃ done owner f, g.flatten outputs = (outputs.map f.image, f.graph g) ∧
      Flattening.Valid g seen done owner f ∧ (∀ id ∈ seen, id ∈ done) ∧ P done owner f := by
  obtain ⟨hmem, hnodup, hsorted⟩ := hg.dependencyOrder_spec
  obtain ⟨owner, hvalid, hP⟩ := Flattening.exists_run_of_turn hg hstart hturn _ []
    (by rwa [List.append_nil]) (by rwa [List.append_nil])
    fun id hid => (hmem id).mp (by rwa [List.append_nil] at hid)
  exact ⟨_, owner, _, rfl, hvalid, fun id hid => (hmem id).mpr hid, hP⟩

/-- The built nodes of the flattened graph have owners and the operations that their owners flatten
to. -/
theorem Flattenable.exists_flatten (hg : g.Flattenable outputs seen) :
    ∃ done owner f, g.flatten outputs = (outputs.map f.image, f.graph g) ∧
      Flattening.Valid g seen done owner f ∧ (∀ id ∈ seen, id ∈ done) ∧
      Flattening.Shaped g done owner f := by
  refine hg.exists_flatten_of_turn (fun b n hb => by simp [Flattening.start] at hb) ?_
  intro done owner f id owner' f' hvalid hid hnew hdeps hturn hshaped
  exact hshaped.turn hg hvalid hid hnew hdeps hturn

/-- Flattening keeps the graph well formed. -/
theorem Flattenable.wellFormed_flatten (hg : g.Flattenable outputs seen) :
    (g.flatten outputs).2.WellFormed := by
  obtain ⟨done, owner, f, heq, hvalid, _⟩ := hg.exists_flatten
  rw [heq]
  exact hvalid.wellFormed_graph hg

/-- The flattened graph is scheduled for the flattened outputs. -/
theorem Flattenable.scheduled_flatten (hg : g.Flattenable outputs seen) :
    (g.flatten outputs).2.Scheduled (g.flatten outputs).1 := by
  obtain ⟨done, owner, f, heq, hvalid, hdone, _⟩ := hg.exists_flatten
  rw [heq]
  exact hvalid.scheduled_graph hg hdone

/-- The flattened outputs are live. -/
theorem Flattenable.contains_flatten (hg : g.Flattenable outputs seen) {k : NodeId}
    (hk : .node k ∈ (g.flatten outputs).1) : (g.flatten outputs).2.contains k = true := by
  obtain ⟨done, owner, f, heq, hvalid, hdone, _⟩ := hg.exists_flatten
  rw [heq] at hk ⊢
  exact hvalid.contains_graph hg ((hvalid.image_cases hg hdone hk).imp_right And.left)

/-- Recorded identifiers are not built, and identifiers are only issued. -/
theorem Flattenable.flatNode?_flatten (hg : g.Flattenable outputs seen) {id : Nat}
    (hid : id < g.next) : (g.flatten outputs).2.flatNode? id = none := by
  obtain ⟨done, owner, f, heq, hvalid, _⟩ := hg.exists_flatten
  rw [heq]
  by_contra hne
  obtain ⟨n, hn⟩ := Option.ne_none_iff_exists'.mp hne
  exact absurd hid (Nat.not_lt_of_le (hvalid.range id n hn).1)

theorem Flattenable.next_le_flatten (hg : g.Flattenable outputs seen) :
    g.next ≤ (g.flatten outputs).2.next := by
  obtain ⟨done, owner, f, heq, hvalid, _⟩ := hg.exists_flatten
  rw [heq]
  exact hvalid.next_le

/-- Wherever terms can be entered into chains one by one, flattening keeps the values of the
outputs. -/
theorem Flattenable.exists_isValuation_flatten [Scalar α] (laws : UnitLaws α)
    (hg : g.Flattenable outputs seen) {inputs : List α} {val : NodeId → α}
    (henter : g.Enterable seen val) (hval : g.IsValuation inputs val) :
    ∃ val', (g.flatten outputs).2.IsValuation inputs val' ∧
      (g.flatten outputs).1.map (Arg.eval val') = outputs.map (Arg.eval val) := by
  obtain ⟨done, owner, f, heq, hvalid, hdone, hshaped⟩ := hg.exists_flatten
  rw [heq]
  have hvalued := hshaped.valued hg hvalid laws henter hval
  refine ⟨val ∘ owner, hvalued.isValuation hg hvalid hval, ?_⟩
  rw [List.map_map]
  refine List.map_congr_left fun x hx => ?_
  exact (hvalid.image_output hg hdone hx).eval hg hvalid val

end Graph

end Straightline
