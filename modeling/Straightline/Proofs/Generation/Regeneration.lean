import Mathlib.Data.Set.Function
import Straightline.Proofs.Generation.Correctness
import Straightline.Proofs.Generation.Renaming

/-!
# Passes over a graph that has grown

Two prepared graphs agree up to the identifiers of the built nodes if a renaming leads from the
nodes of one to the nodes of the other and everything a pass found out about them is the same.
Scheduling, flattening and sharing slots keep the relation, so a pass over a graph prepares what it
prepares after the graph has grown.
-/

namespace Straightline

namespace Flattening

variable {α : Type} {ρ : NodeId → NodeId} {g g' : Graph α}

/-- The state after the last node that the outputs reach. -/
def final (g : Graph α) (outputs : List (Arg α)) : Flattening α :=
  (dependencyOrder g.references (g.next + 1) (outputs.filterMap Arg.node?)).foldl
    (Flattening.build g) (start g)

/-- Nothing is built at the start. -/
theorem renames_start (h : g.Embeds ρ g') : Renames ρ g.next (start g) (start g') where
  next_le := Nat.le_refl _
  next := h.next
  count := rfl
  nodes id := by
    simp only [start, Table.get_emptyCollection]
    rfl
  images id := by
    simp only [start, Table.get_emptyCollection]
    rfl
  slots id hid := by rw [h.shift.fixed id hid, start, start, h.pass]
  ranks id hid := by rw [h.shift.fixed id hid, start, start, h.pass]
  refs id hid := by rw [h.shift.fixed id hid, start, start, h.pass]

end Flattening

/-- Flattening leaves what the last state holds. -/
theorem Graph.flatten_eq {α : Type} (g : Graph α) (outputs : List (Arg α)) :
    g.flatten outputs =
      (outputs.map (Flattening.final g outputs).image, (Flattening.final g outputs).graph g) := rfl

/-- Reads are renamed with the references and the slots. -/
theorem reads_rename_iff {ρ : NodeId → NodeId} {deps deps' : NodeId → List NodeId}
    {slot slot' : NodeId → Nat} {live : NodeId → Prop} (hinj : Function.Injective ρ)
    (hclosed : ∀ id, live id → ∀ k ∈ deps id, live k)
    (hdeps : ∀ id, live id → deps' (ρ id) = (deps id).map ρ)
    (hslot : ∀ id, live id → slot' (ρ id) = slot id) {id k : NodeId} (hid : live id) :
    Reads deps' slot' (ρ id) (ρ k) ↔ Reads deps slot id k := by
  constructor
  · intro hread
    generalize hsource : ρ id = source at hread
    generalize htarget : ρ k = target at hread
    induction hread generalizing id with
    | direct hk hne =>
      subst hsource htarget
      rw [hdeps id hid, List.mem_map_of_injective hinj] at hk
      rw [hslot k (hclosed id hid k hk)] at hne
      exact .direct hk hne
    | through hm hzero _ ih =>
      subst hsource
      rw [hdeps id hid] at hm
      obtain ⟨m, hmem, rfl⟩ := List.mem_map.mp hm
      have hlive := hclosed id hid m hmem
      rw [hslot m hlive] at hzero
      exact .through hmem hzero (ih hlive rfl htarget)
  · intro hread
    induction hread with
    | @direct id k hk hne =>
      refine .direct ?_ ?_
      · rw [hdeps id hid]
        exact List.mem_map_of_mem hk
      · rwa [hslot k (hclosed id hid k hk)]
    | @through id m k hm hzero _ ih =>
      have hlive := hclosed id hid m hm
      refine .through ?_ ?_ (ih hlive)
      · rw [hdeps id hid]
        exact List.mem_map_of_mem hm
      · rwa [hslot m hlive]

namespace Graph

variable {α : Type} {ρ : NodeId → NodeId} {g g' p p' : Graph α} {outputs outputs' : List (Arg α)}

/-- Two prepared graphs agree up to the identifiers of the built nodes. -/
structure Renames (ρ : NodeId → NodeId) (p p' : Graph α) : Prop where
  /-- Different nodes stay different. -/
  inj : Function.Injective ρ
  /-- The roster is the same. -/
  roster : p'.roster = p.roster
  /-- Recorded nodes stay as they are. -/
  recorded : ∀ id node, p.recorded.get id = some node →
    ρ id = id ∧ p'.recorded.get id = some node
  /-- The built nodes are those of the other graph, one by one. -/
  built : Set.BijOn ρ {id | p.flatNode? id ≠ none} {id | p'.flatNode? id ≠ none}
  /-- A node has the same operation on renamed operands, and the same name. -/
  node : ∀ id, p.contains id = true → p'.node? (ρ id) = (p.node? id).map (Node.rename ρ)
  /-- The graphs are both flattened or both not. -/
  flattened : p'.pass.flat.isSome = p.pass.flat.isSome
  /-- As many nodes were built. -/
  flatCount : p'.flatCount = p.flatCount
  /-- The built nodes stand for the same recorded nodes. -/
  counterpart : ∀ id, p'.counterpart? id = (p.counterpart? id).map ρ
  /-- The recorded nodes are in the same order. -/
  queue : p'.pass.order = p.pass.order
  /-- The stored nodes are in the same order. -/
  order : p'.order = p.order.map ρ
  /-- Slots are the same. -/
  slot : ∀ id, p.contains id = true → p'.slot (ρ id) = p.slot id
  /-- Ranks are the same. -/
  rank : ∀ id, p.contains id = true → p'.pass.ranks.get (ρ id) = p.pass.ranks.get id
  /-- Reference counts are the same. -/
  refs : ∀ id, p.contains id = true → p'.pass.refs.get (ρ id) = p.pass.refs.get id
  /-- Last uses are the same. -/
  lastUse : ∀ id, p.contains id = true → p'.pass.lastUses.get (ρ id) = p.pass.lastUses.get id
  /-- The reserved slots belong to the same outputs. -/
  owners : p'.pass.owners = p.pass.owners
  /-- The temporaries begin at the same slot. -/
  firstTemporary : p'.pass.firstTemporary = p.pass.firstTemporary
  /-- The last slot is the same. -/
  lastId : p'.pass.lastId = p.pass.lastId

namespace Renames

theorem contains (h : p.Renames ρ p') {id : NodeId} (hid : p.contains id = true) :
    p'.contains (ρ id) = true := by
  rw [Graph.contains, h.node id hid, Option.isSome_map]
  exact hid

theorem references (h : p.Renames ρ p') {id : NodeId} (hid : p.contains id = true) :
    p'.references (ρ id) = (p.references id).map ρ := by
  obtain ⟨node, hnode⟩ := Option.isSome_iff_exists.mp hid
  simp only [Graph.references, operation?, h.node id hid, hnode, Option.map_some,
    Option.getD_some]
  exact Operation.references_rename node.operation

/-- The same values are read. -/
theorem mem_reads_iff (h : p.Renames ρ p') (hp : p.Prepared) (hp' : p'.Prepared) {id k : NodeId}
    (hid : p.contains id = true) : ρ k ∈ p'.reads (ρ id) ↔ k ∈ p.reads id := by
  rw [mem_reads hp.ranked, mem_reads hp'.ranked]
  exact reads_rename_iff h.inj (fun id _ => hp.closed id) (fun _ => h.references) h.slot hid

/-- Values are read last at the same rank. -/
theorem get_readRanks (h : p.Renames ρ p') (hp : p.Prepared) (hp' : p'.Prepared)
    {ids : List NodeId} (hids : ∀ id ∈ ids, p.contains id = true) {k : NodeId} (rank : Nat)
    {t t' : Table Nat} (hk : t'.get (ρ k) = t.get k) :
    (p'.readRanks (ids.map ρ) rank t').get (ρ k) = (p.readRanks ids rank t).get k := by
  induction ids generalizing rank t t' with
  | nil => exact hk
  | cons id ids ih =>
    refine ih (fun id hid => hids id (List.mem_cons_of_mem _ hid)) (rank + 1) ?_
    simp only [get_noteReads, h.mem_reads_iff hp hp' (hids id List.mem_cons_self), hk]

theorem get_lastUses (h : p.Renames ρ p') (hp : p.Prepared) (hp' : p'.Prepared) {id : NodeId}
    (hid : p.contains id = true) : p'.lastUses.get (ρ id) = p.lastUses.get id := by
  unfold lastUses
  rw [h.order]
  exact h.get_readRanks hp hp' (fun k hk => hp.contains_of_mem_order hk) 1 (h.lastUse id hid)

/-- The same slots are planned. -/
theorem slotPlan (h : p.Renames ρ p') (hp : p.Prepared) (hp' : p'.Prepared) :
    p'.slotPlan = p.slotPlan := by
  have huses : p'.temporaryUses = p.temporaryUses := by
    rw [temporaryUses, temporaryUses, h.order, List.map_map]
    refine List.map_congr_left fun id hid => ?_
    have hlive := hp.contains_of_mem_order hid
    simp only [Function.comp_apply, h.firstTemporary, h.slot id hlive, h.get_lastUses hp hp' hlive]
  rw [Graph.slotPlan, Graph.slotPlan, huses, h.firstTemporary]

end Renames

/-- Planned slots are assigned alike. -/
theorem get_assignSlots_rename (hinj : Function.Injective ρ) (ids : List NodeId)
    (plan : List (Option Nat)) {k : NodeId} {t t' : Table Nat} (hk : t'.get (ρ k) = t.get k) :
    (assignSlots (ids.map ρ) plan t').get (ρ k) = (assignSlots ids plan t).get k := by
  induction ids generalizing plan t t' with
  | nil => exact hk
  | cons id ids ih =>
    match plan with
    | [] => exact hk
    | none :: plan => exact ih plan hk
    | some slot :: plan =>
      refine ih plan ?_
      rw [Table.get_set, Table.get_set, hk]
      exact if_congr hinj.eq_iff rfl rfl

/-- Slots are shared alike. -/
theorem Renames.reuseSlots (h : p.Renames ρ p') (hp : p.Prepared) (hp' : p'.Prepared) :
    p.reuseSlots.Renames ρ p'.reuseSlots :=
  { h with
    slot := by
      intro id hid
      rw [slot_reuseSlots, slot_reuseSlots, h.order, h.slotPlan hp hp']
      exact get_assignSlots_rename h.inj _ _ (h.slot id hid)
    lastUse := fun _ hid => h.get_lastUses hp hp' hid
    lastId := by rw [lastId_reuseSlots, lastId_reuseSlots, h.slotPlan hp hp'] }

theorem Renames.shared (h : p.Renames ρ p') (hp : p.Prepared) (hp' : p'.Prepared) (reuse : Bool) :
    (p.shared reuse).Renames ρ (p'.shared reuse) := by
  cases reuse with
  | false => exact h
  | true => exact h.reuseSlots hp hp'

section Embeds

variable {seen seen' : List NodeId}

/-- Nodes recorded before are recorded still, under the same identifiers. -/
theorem Embeds.recorded (h : p.Embeds ρ p') (hg' : p'.Flattenable outputs' seen') {id : NodeId}
    {node : Node α} (hnode : p.recorded.get id = some node) :
    ρ id = id ∧ p'.recorded.get id = some node := by
  constructor
  · exact h.shift.fixed id (h.wellFormed.issued id (contains_of_recorded hnode))
  · exact Flattening.recorded_of_node? hg' (h.within id node (node?_of_recorded hnode))

/-- Nodes recorded before refer to nodes that keep their identifiers. -/
theorem Embeds.rename_recorded (h : p.Embeds ρ p') {id : NodeId} {node : Node α}
    (hnode : p.recorded.get id = some node) : node.rename ρ = node := by
  have hfixed : ∀ k ∈ node.operation.references, ρ k = k := by
    intro k hk
    obtain ⟨m, hm⟩ := h.wellFormed.closed id node hnode k hk
    exact h.shift.fixed k (h.wellFormed.issued k (contains_of_recorded hm))
  rw [Node.rename, Operation.map_rename_of_fixed hfixed]

/-- Scheduled graphs agree. -/
theorem Embeds.renames (h : p.Embeds ρ p') (hg : p.Flattenable outputs seen)
    (hg' : p'.Flattenable outputs' seen') : p.Renames ρ p' := by
  have hfixed : ∀ id, p.contains id = true → ρ id = id :=
    fun id hid => h.shift.fixed id (h.wellFormed.issued id hid)
  have hflat : ∀ id, p.flatNode? id = none := fun id => by rw [flatNode?, hg.unflattened]; rfl
  have hflat' : ∀ id, p'.flatNode? id = none := fun id => by rw [flatNode?, hg'.unflattened]; rfl
  exact {
    inj := h.shift.inj
    roster := h.roster
    recorded := fun _ _ hnode => h.recorded hg' hnode
    built := by simp [hflat, hflat']
    node := by
      intro id hid
      obtain ⟨node, hnode⟩ := Option.isSome_iff_exists.mp hid
      rw [hfixed id hid, h.within id node hnode, hnode, Option.map_some,
        h.rename_recorded (Flattening.recorded_of_node? hg hnode)]
    flattened := by rw [h.pass]
    flatCount := by rw [flatCount, flatCount, h.pass]
    counterpart := by
      intro id
      rw [counterpart?, counterpart?, hg.unflattened, hg'.unflattened]
      rfl
    queue := by rw [h.pass]
    order := by
      have hsame : p.order.map ρ = p.order.map fun id => id :=
        List.map_congr_left fun id hid => hfixed id (hg.contains_of_mem_order hid)
      rw [hsame, List.map_id', order, order, h.pass]
    slot := fun id hid => by rw [hfixed id hid, slot, slot, h.pass]
    rank := fun id hid => by rw [hfixed id hid, h.pass]
    refs := fun id hid => by rw [hfixed id hid, h.pass]
    lastUse := fun id hid => by rw [hfixed id hid, h.pass]
    owners := by rw [h.pass]
    firstTemporary := by rw [h.pass]
    lastId := by rw [h.pass] }

/-- Flattening builds the same nodes. -/
theorem Embeds.renames_final (h : p.Embeds ρ p')
    (hlive : ∀ id, .node id ∈ outputs → p.contains id = true) :
    Flattening.Renames ρ p.next (.final p outputs) (.final p' outputs) := by
  obtain ⟨rank, hrank, hbound⟩ := h.wellFormed.exists_ranked
  have hdepth : ∀ id, rank id < p.next + 1 := fun id => Nat.lt_succ_of_le (hbound id)
  have hdepth' : ∀ id, rank id < p'.next + 1 :=
    fun id => Nat.lt_of_lt_of_le (hdepth id) (Nat.succ_le_succ h.next_le)
  have hroots : ∀ id ∈ outputs.filterMap Arg.node?, p.contains id = true :=
    fun id hid => hlive id (Arg.mem_filterMap_node?.mp hid)
  have horder := dependencyOrder_congr (fun _ => h.within.references)
    (fun id _ => h.wellFormed.closed_all id) hrank hdepth hdepth' hroots
  unfold Flattening.final
  rw [horder]
  refine (Flattening.renames_start h).run h fun id hid => ?_
  obtain ⟨root, hroot, hreach⟩ := (mem_dependencyOrder hrank hdepth).mp hid
  exact h.wellFormed.closed_all.contains_of_reaches (hroots root hroot) hreach

end Embeds

end Graph

namespace Flattening.Renames

variable {α : Type} {ρ : NodeId → NodeId} {p p' : Graph α} {outputs outputs' : List (Arg α)}
  {seen seen' : List NodeId} {f f' : Flattening α}

/-- The built nodes are those of the other run, one by one. -/
theorem bijOn (hf : Renames ρ p.next f f') (h : p.Embeds ρ p')
    (hnew : ∀ id : Nat, id < p'.next → f'.nodes.get id = none) :
    Set.BijOn ρ {id | f.nodes.get id ≠ none} {id | f'.nodes.get id ≠ none} := by
  have hiff : ∀ id, f'.nodes.get (ρ id) ≠ none ↔ f.nodes.get id ≠ none := by
    intro id
    rw [hf.nodes, ne_eq, Option.map_eq_none_iff]
  refine ⟨fun id hid => (hiff id).mpr hid, h.shift.inj.injOn, fun id' hid' => ?_⟩
  have hle : ρ p.next ≤ id' := by
    rw [← h.next]
    exact Nat.le_of_not_lt fun hlt => hid' (hnew id' hlt)
  obtain ⟨id, _, rfl⟩ := h.shift.exists_of_le hle
  exact ⟨id, (hiff id).mp hid', rfl⟩

/-- Recorded nodes stay, and built nodes are renamed. -/
theorem node? (hf : Renames ρ p.next f f') (h : p.Embeds ρ p')
    (hg' : p'.Flattenable outputs' seen') (hwf' : (f'.graph p').WellFormed) {id : NodeId}
    (hid : (f.graph p).contains id = true) :
    (f'.graph p').node? (ρ id) = ((f.graph p).node? id).map (Node.rename ρ) := by
  obtain ⟨node, hnode⟩ := Option.isSome_iff_exists.mp hid
  have hcases : (p.recorded.get id).or (f.nodes.get id) = some node := hnode
  rw [hnode, Option.map_some]
  cases hrec : p.recorded.get id with
  | some recorded =>
    obtain rfl : recorded = node := by simpa [hrec] using hcases
    obtain ⟨hfixed, hrec'⟩ := h.recorded hg' hrec
    rw [hfixed, h.rename_recorded hrec]
    exact Graph.node?_of_recorded (g := f'.graph p') hrec'
  | none =>
    -- A built identifier is not recorded, although the other graph has recorded more nodes.
    rw [hrec, Option.none_or] at hcases
    have hbuilt : (f'.graph p').flatNode? (ρ id) = some (node.rename ρ) := by
      change f'.nodes.get (ρ id) = _
      rw [hf.nodes, hcases, Option.map_some]
    rw [Graph.node?_eq, hwf'.flat_apart _ _ hbuilt, Option.none_or, hbuilt]

/-- The graphs with the built nodes agree. -/
theorem graph (hf : Renames ρ p.next f f') (h : p.Embeds ρ p')
    (hg : p.Flattenable outputs seen) (hg' : p'.Flattenable outputs' seen')
    (hwf : (f.graph p).WellFormed) (hwf' : (f'.graph p').WellFormed)
    (hnew : ∀ id : Nat, id < p'.next → f'.nodes.get id = none) :
    (f.graph p).Renames ρ (f'.graph p') where
  inj := h.shift.inj
  roster := h.roster
  recorded _ _ hnode := h.recorded hg' hnode
  built := hf.bijOn h hnew
  node _ hid := hf.node? h hg' hwf' hid
  flattened := rfl
  flatCount := hf.count
  counterpart id := by
    change (f'.images.get id).bind Arg.node? = ((f.images.get id).bind Arg.node?).map ρ
    rw [hf.images]
    cases f.images.get id with
    | none => rfl
    | some y => exact Arg.node?_rename y
  queue := show p'.pass.order = p.pass.order by rw [h.pass]
  order := by
    change p'.pass.order.filterMap _ = (p.pass.order.filterMap _).map ρ
    rw [h.pass, List.map_filterMap]
    refine List.filterMap_congr fun id hid => ?_
    rw [← order_eq hg] at hid
    have himage := hf.image h.shift (x := .node id) fun k hk => by
      obtain rfl : id = k := by simpa using hk
      exact h.wellFormed.issued id (hg.contains_of_mem_order hid)
    rw [himage, Arg.node?_rename]
  slot id hid := hf.slots id (hwf.issued id hid)
  rank id hid := hf.ranks id (hwf.issued id hid)
  refs id hid := hf.refs id (hwf.issued id hid)
  lastUse id _ := by
    change p'.pass.lastUses.get (ρ id) = p.pass.lastUses.get id
    rw [h.pass, h.lastUses, Table.get_emptyCollection, Table.get_emptyCollection]
  owners := show p'.pass.owners = p.pass.owners by rw [h.pass]
  firstTemporary := show p'.pass.firstTemporary = p.pass.firstTemporary by rw [h.pass]
  lastId := show p'.pass.lastId = p.pass.lastId by rw [h.pass]

end Flattening.Renames

namespace Graph

variable {α : Type} {ρ : NodeId → NodeId} {g g' p p' : Graph α} {outputs : List (Arg α)}
  {seen seen' : List NodeId}

/-- Flattened graphs agree, and so do the operands that stand for the outputs. -/
theorem Embeds.renames_flatten (h : p.Embeds ρ p') (hg : p.Flattenable outputs seen)
    (hg' : p'.Flattenable outputs seen') :
    (p.flatten outputs).2.Renames ρ (p'.flatten outputs).2 ∧
      (p'.flatten outputs).1 = (p.flatten outputs).1.map (Arg.rename ρ) := by
  have hf := h.renames_final hg.live
  constructor
  · exact hf.graph h hg hg' hg.wellFormed_flatten hg'.wellFormed_flatten
      fun id => hg'.flatNode?_flatten
  · rw [flatten_eq, flatten_eq, List.map_map]
    refine List.map_congr_left fun x hx => hf.image h.shift ?_
    rintro k rfl
    exact h.wellFormed.issued k (hg.live k hx)

/-- A graph that has grown is scheduled as it was before. -/
theorem Grows.embeds_scheduled (h : g.Grows g') (hg : g.WellFormed) (hg' : g'.WellFormed)
    (hnext : g.next ≤ g'.next) (policy : Policy α)
    (hlive : ∀ id, Arg.node id ∈ outputs → ∃ node, g.recorded.get id = some node) :
    (g.scheduled policy outputs).Embeds (shift g.next (g'.next - g.next))
      (g'.scheduled policy outputs) where
  shift := isShift_shift g.next (g'.next - g.next)
  next := by
    change g'.next = shift g.next (g'.next - g.next) g.next
    rw [shift_of_le _ (Nat.le_refl _), Nat.add_sub_cancel' hnext]
  next_le := hnext
  within := h.within
  wellFormed := hg.scheduled
  roster := h.roster
  pass := h.scheduled_pass hg hg' policy hlive
  lastUses := rfl

/-- A pass prepares what it prepares after the graph has grown, up to the identifiers of the built
nodes. -/
theorem Grows.renames_shared (h : g.Grows g') (hg : g.WellFormed) (hg' : g'.WellFormed)
    (hnext : g.next ≤ g'.next) (optimize reuse : Bool) (policy : Policy α)
    (hlive : ∀ id, Arg.node id ∈ outputs → ∃ node, g.recorded.get id = some node) :
    ((g.prepared optimize policy outputs).2.shared reuse).Renames (shift g.next (g'.next - g.next))
        ((g'.prepared optimize policy outputs).2.shared reuse) ∧
      (g'.prepared optimize policy outputs).1 =
        (g.prepared optimize policy outputs).1.map
          (Arg.rename (shift g.next (g'.next - g.next))) := by
  have hlive' : ∀ id, Arg.node id ∈ outputs → ∃ node, g'.recorded.get id = some node :=
    fun id hid => h.exists_recorded (hlive id hid)
  have hembeds := h.embeds_scheduled hg hg' hnext policy hlive
  obtain ⟨seen, hflattenable⟩ := hg.exists_flattenable policy hlive
  obtain ⟨seen', hflattenable'⟩ := hg'.exists_flattenable policy hlive'
  have hprepared := (hg.prepares optimize policy hlive).toPrepared
  have hprepared' := (hg'.prepares optimize policy hlive').toPrepared
  cases optimize with
  | false =>
    refine ⟨(hembeds.renames hflattenable hflattenable').shared hprepared hprepared' reuse, ?_⟩
    refine (List.map_id' outputs).symm.trans (List.map_congr_left fun x hx => ?_)
    cases x with
    | const v => rfl
    | node id =>
      have hlt : id < g.next := hembeds.wellFormed.issued id (hflattenable.live id hx)
      rw [Arg.rename_node, shift_of_lt _ hlt]
  | true =>
    obtain ⟨hrenames, houtputs⟩ := hembeds.renames_flatten hflattenable hflattenable'
    exact ⟨hrenames.shared hprepared hprepared' reuse, houtputs⟩

end Graph

end Straightline
