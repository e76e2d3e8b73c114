import Straightline.Proofs.Generation.Correctness

/-!
# Flattening beside the recorded graph

Flattening writes to tables that recorded and built nodes share, at identifiers that it looks up in
its own images. What it leaves alone and what it builds: recorded nodes keep everything they had, a
stored node gets a built node of its own with its slot, rank, reference count and name, built nodes
refer to each other and to independent variables only, and the identifiers behind the recorded ones
are all taken by built nodes.
-/

namespace Straightline

namespace Flattening

variable {α : Type} {g : Graph α} {outputs : List (Arg α)} {seen done : List NodeId}
  {owner owner' : NodeId → NodeId} {f f' : Flattening α} {id host : NodeId}

/-- What built nodes take over from their owners, and where images lead. -/
structure Framed (g : Graph α) (done : List NodeId) (owner : NodeId → NodeId)
    (f : Flattening α) : Prop where
  /-- A built node has the reference count of its owner. -/
  refs : ∀ b n, f.nodes.get b = some n → f.refs.get b = g.pass.refs.get (owner b)
  /-- A built node has the name of its owner. -/
  name : ∀ b n, f.nodes.get b = some n → (g.node? (owner b)).map Node.name = some n.name
  /-- Nodes that are done have images. -/
  mapped : ∀ id ∈ done, f.images.get id ≠ none
  /-- Images lead to independent variables and to built nodes. -/
  images : ∀ id k, f.images.get id = some (.node k) →
    k ∈ g.roster ∨ ∃ n, f.nodes.get k = some n
  /-- Built nodes are counted. -/
  count : f.count + g.next = f.next

/-- All identifiers behind the recorded ones belong to built nodes, but maybe one. -/
def DenseBut (g : Graph α) (f : Flattening α) (skip : Option NodeId) : Prop :=
  ∀ b : Nat, g.next ≤ b → b < f.next → skip = some b ∨ ∃ n, f.nodes.get b = some n

theorem framed_start (g : Graph α) : Framed g [] (fun id => id) (start g) where
  refs b n hb := by simp [start] at hb
  name b n hb := by simp [start] at hb
  mapped := by simp
  images id k hk := by simp [start] at hk
  count := Nat.zero_add _

theorem denseBut_start (g : Graph α) : DenseBut g (start g) none :=
  fun _ hle hlt => absurd hle (Nat.not_le_of_lt hlt)

/-- One more node has an image. -/
theorem mapped_set {images : Table (Option (Arg α))} (h : ∀ k ∈ done, images.get k ≠ none)
    (y : Arg α) : ∀ k ∈ done ++ [id], (images.set id (some y)).get k ≠ none := by
  intro k hk
  rw [Table.get_set]
  split
  · simp
  · next hne =>
    rcases List.mem_append.mp hk with hk | hk
    · exact h k hk
    · exact absurd (List.mem_singleton.mp hk) hne

/-- The image of an operand that is done is no other recorded node than an independent variable. -/
theorem Framed.image_cases (h : Framed g done owner f) {a k : NodeId} (ha : a ∈ done)
    (hk : f.image (.node a) = .node k) : k ∈ g.roster ∨ ∃ n, f.nodes.get k = some n := by
  obtain ⟨y, hy⟩ := Option.ne_none_iff_exists'.mp (h.mapped a ha)
  rw [image, hy, Option.getD_some] at hk
  exact h.images a k (hk ▸ hy)

/-- An operand stands for a node without a built one. -/
theorem Framed.remember (h : Framed g done owner f) {y : Arg α}
    (hy : ∀ k, y = .node k → k ∈ g.roster ∨ ∃ n, f.nodes.get k = some n) :
    Framed g (done ++ [id]) owner (f.remember id y) :=
  { h with
    mapped := mapped_set h.mapped y
    images := by
      intro id' k hk
      rw [Flattening.remember, Table.get_set] at hk
      split at hk
      · exact hy k (Option.some.inj hk)
      · exact h.images id' k hk }

/-- A built node takes over what the new owner has. -/
theorem Framed.assign (h : Framed g done owner f) {node : Node α} (hnode : g.node? id = some node)
    (hrefs : f.refs.get id = g.pass.refs.get id) (host : NodeId) (op : Operation (Arg α)) :
    Framed g (done ++ [id]) (Function.update owner host id) (f.assign id node.name host op) where
  refs b n hb := by
    rcases nodes_assign_eq_some hb with ⟨rfl, _⟩ | ⟨hne, hb⟩
    · rw [Function.update_self, ← hrefs]
      exact Table.get_set_self ..
    · rw [Function.update_of_ne hne]
      exact (Table.get_set_of_ne _ _ hne).trans (h.refs b n hb)
  name b n hb := by
    rw [nodes_assign] at hb
    split at hb
    · next heq =>
      rw [heq, Function.update_self, hnode, ← Option.some.inj hb]
      rfl
    · next hne =>
      rw [Function.update_of_ne hne]
      exact h.name b n hb
  mapped := mapped_set h.mapped _
  images id' k hk := by
    rw [Flattening.assign, Table.get_set] at hk
    split at hk
    · obtain rfl : host = k := by simpa using hk
      exact .inr ⟨_, by rw [nodes_assign, if_pos rfl]⟩
    · exact (h.images id' k hk).imp_right (exists_nodes_assign _ _ _ _)
  count := h.count

theorem DenseBut.assign {skip : Option NodeId} (h : DenseBut g f skip)
    (hskip : ∀ b, skip = some b → b = host) (id : NodeId) (name : Option String)
    (op : Operation (Arg α)) : DenseBut g (f.assign id name host op) none := by
  intro b hle hlt
  rcases h b hle hlt with hb | hb
  · obtain rfl := hskip b hb
    exact .inr ⟨_, by rw [nodes_assign, if_pos rfl]⟩
  · exact .inr (exists_nodes_assign _ _ _ _ hb)

/-- A node that is written as a chain keeps its name. -/
theorem name_makeChain {family : Family} {terms : List (Sense × Arg α)} {b : NodeId} {m : Node α}
    (hm : (f.makeChain host family terms).nodes.get b = some m) :
    ∃ n, f.nodes.get b = some n ∧ n.name = m.name := by
  rw [Flattening.makeChain, Table.get_modify] at hm
  split at hm
  · next heq =>
    obtain ⟨n, hn, rfl⟩ := Option.map_eq_some_iff.mp hm
    exact ⟨n, heq ▸ hn, rfl⟩
  · exact ⟨m, hm, rfl⟩

theorem Framed.makeChain (h : Framed g done owner f) {family : Family}
    {terms : List (Sense × Arg α)} (hs : Reshapes f (f.makeChain host family terms)) :
    Framed g done owner (f.makeChain host family terms) where
  refs b m hm := by
    obtain ⟨n, hn, _⟩ := name_makeChain hm
    exact h.refs b n hn
  name b m hm := by
    obtain ⟨n, hn, hname⟩ := name_makeChain hm
    exact hname ▸ h.name b n hn
  mapped := h.mapped
  images id k hk := (h.images id k hk).imp_right hs.built
  count := h.count

/-- One turn keeps the frame. -/
theorem Framed.turn (hg : g.Flattenable outputs seen) (h : Valid g seen done owner f)
    (hid : id ∈ seen) (hnew : id ∉ done) (hdeps : ∀ k ∈ g.references id, k ∈ done)
    (hturn : Turn g owner f id owner' f') (hframed : Framed g done owner f) :
    Framed g (done ++ [id]) owner' f' := by
  have hrefs := h.refs id (hg.lt_of_seen hid)
  cases hturn with
  | independent hop =>
    refine hframed.remember fun k hk => .inl ?_
    obtain rfl : id = k := by simpa using hk
    exact hg.listed id hop
  | @unwrap x hop _ =>
    refine hframed.remember fun k hk => ?_
    cases x with
    | const v => simp at hk
    | node a =>
      exact hframed.image_cases
        (hdeps a (Graph.mem_references_of_operand hop (by simp [Operation.operands]))) hk
  | derive hnode _ _ _ =>
    have hcount : f.count + 1 + g.next = f.next + 1 := by
      rw [Nat.add_right_comm, hframed.count]
    have hissued : Framed g done owner { f with count := f.count + 1, next := f.next + 1 } :=
      { hframed with count := hcount }
    exact hissued.assign hnode hrefs f.next _
  | @splice node tag l r x host terms f₁ hnode heq _ _ _ hright =>
    have hop : g.operation? id = some (.binary (.arith tag) l r) :=
      heq ▸ operation?_of_node hnode
    have hreshapes := h.reshapes hg (ready_arith hg hid hnew hdeps hop)
      (operandOf_binary hop (.inr rfl)) hright
    rcases hright with rfl | ⟨right, ts, _, rfl⟩
    · exact hframed.assign hnode hrefs host _
    · exact (hframed.makeChain hreshapes).assign hnode hrefs host _

/-- One turn leaves no identifier out. -/
theorem DenseBut.turn (hg : g.Flattenable outputs seen) (h : Valid g seen done owner f)
    (hid : id ∈ seen) (hnew : id ∉ done) (hdeps : ∀ k ∈ g.references id, k ∈ done)
    (hturn : Turn g owner f id owner' f') (hdense : DenseBut g f none) : DenseBut g f' none := by
  cases hturn with
  | independent _ => exact hdense
  | unwrap _ _ => exact hdense
  | derive hnode _ _ _ =>
    have hissued :
        DenseBut g { f with count := f.count + 1, next := f.next + 1 } (some f.next) := by
      intro b hle hlt
      rcases Nat.lt_succ_iff_lt_or_eq.mp hlt with hlt | rfl
      · exact .inr ((hdense b hle hlt).resolve_left (by simp))
      · exact .inl rfl
    exact hissued.assign (fun b hb => (Option.some.inj hb).symm) id _ _
  | @splice node tag l r x host terms f₁ hnode heq _ _ _ hright =>
    have hop : g.operation? id = some (.binary (.arith tag) l r) :=
      heq ▸ operation?_of_node hnode
    have hreshapes := h.reshapes hg (ready_arith hg hid hnew hdeps hop)
      (operandOf_binary hop (.inr rfl)) hright
    have hbefore : DenseBut g f₁ none := by
      intro b hle hlt
      rw [hreshapes.same] at hlt
      exact (hdense b hle hlt).imp_right hreshapes.built
    exact hbefore.assign (by simp) id _ _

/-- A stored node has a counterpart of its own. -/
theorem Valid.exists_counterpart (hg : g.Flattenable outputs seen) (h : Valid g seen done owner f)
    (hdone : ∀ id ∈ seen, id ∈ done) (hid : id ∈ g.order) :
    ∃ b n, (f.graph g).counterpart? id = some b ∧ f.nodes.get b = some n ∧ owner b = id := by
  obtain ⟨b, n, himage, hn, howner⟩ := h.exists_built hg hdone hid
  have hlt := hg.lt_of_seen (hg.order_seen id hid)
  have hne : b ≠ id := fun heq => absurd hlt (Nat.not_lt_of_le (heq ▸ (h.range b n hn).1))
  exact ⟨b, n, counterpart?_of_image himage hne, hn, howner⟩

end Flattening

namespace Graph

variable {α : Type} {g g' : Graph α} {outputs : List (Arg α)} {seen : List NodeId}

/-- A graph with flattened nodes beside the recorded ones. -/
structure FlatExtension (g g' : Graph α) : Prop where
  /-- The recorded nodes are the same. -/
  recorded : g'.recorded = g.recorded
  /-- They are as many. -/
  count : g'.count = g.count
  /-- The roster is the same. -/
  roster : g'.roster = g.roster
  /-- The same recorded nodes are stored, in the same order. -/
  stored : g'.pass.order = g.pass.order
  /-- Recorded nodes keep slot, rank, reference count and last use. -/
  kept : ∀ id node, g.recorded.get id = some node → g'.slot id = g.slot id ∧
    g'.pass.ranks.get id = g.pass.ranks.get id ∧ g'.pass.refs.get id = g.pass.refs.get id ∧
    g'.pass.lastUses.get id = g.pass.lastUses.get id
  /-- A flattened node stands for each stored node and has its slot, rank, reference count and
  name. -/
  counterpart : ∀ id ∈ g.pass.order, ∃ b built node, g'.counterpart? id = some b ∧
    g'.flatNode? b = some built ∧ g.recorded.get id = some node ∧ built.name = node.name ∧
    g'.slot b = g.slot id ∧ g'.pass.ranks.get b = g.pass.ranks.get id ∧
    g'.pass.refs.get b = g.pass.refs.get id
  /-- Another flattened node stands for another stored node. -/
  counterpart_inj : ∀ id ∈ g.pass.order, ∀ id' ∈ g.pass.order,
    g'.counterpart? id = g'.counterpart? id' → id = id'
  /-- They are evaluated in the order of the stored nodes. -/
  order : g'.order.map some = g.pass.order.map g'.counterpart?
  /-- The order has the same ranks. -/
  ranks : g'.order.map g'.pass.ranks.get = g.pass.order.map g.pass.ranks.get
  /-- Only independent variables and flattened nodes stand for recorded nodes. -/
  images : ∀ id k, g'.counterpart? id = some k → k ∈ g.roster ∨ ∃ built, g'.flatNode? k = some built
  /-- Operands of flattened nodes are constants, independent variables and flattened nodes. -/
  operands : ∀ b built, g'.flatNode? b = some built → ∀ x ∈ built.operation.operands,
    (∃ v, x = .const v) ∨ ∃ k, x = .node k ∧ (k ∈ g.roster ∨ ∃ m, g'.flatNode? k = some m)
  /-- The identifiers that were issued belong to the flattened nodes. -/
  built : ∀ b, (∃ n, g'.flatNode? b = some n) ↔ g.next ≤ b ∧ b < g'.next
  /-- They are counted. -/
  flatCount : g'.flatCount + g.next = g'.next

/-- Flattening extends the graph. -/
theorem Flattenable.flatExtension (hg : g.Flattenable outputs seen) :
    g.FlatExtension (g.flatten outputs).2 := by
  obtain ⟨done, owner, f, heq, hvalid, hdone, hframed, hdense⟩ := hg.exists_flatten_of_turn
    (P := fun done owner f => Flattening.Framed g done owner f ∧ Flattening.DenseBut g f none)
    ⟨Flattening.framed_start g, Flattening.denseBut_start g⟩
    (fun _ _ _ _ _ _ hvalid hid hnew hdeps hturn hP =>
      ⟨hP.1.turn hg hvalid hid hnew hdeps hturn, hP.2.turn hg hvalid hid hnew hdeps hturn⟩)
  have horder := Flattening.order_eq hg
  rw [heq]
  have hcounterpart : ∀ id ∈ g.pass.order, ∃ b n, (f.graph g).counterpart? id = some b ∧
      f.nodes.get b = some n ∧ owner b = id :=
    fun id hid => hvalid.exists_counterpart hg hdone (horder ▸ hid)
  exact {
    recorded := rfl
    count := rfl
    roster := rfl
    stored := rfl
    kept := by
      intro id node hnode
      have hlt := hg.wellFormed.issued id (contains_of_recorded hnode)
      exact ⟨hvalid.slots id hlt, hvalid.ranks id hlt, hvalid.refs id hlt, rfl⟩
    counterpart := by
      intro id hid
      obtain ⟨b, n, hb, hn, rfl⟩ := hcounterpart id hid
      obtain ⟨node, hnode, hname⟩ := Option.map_eq_some_iff.mp (hframed.name b n hn)
      exact ⟨b, n, node, hb, hn, Flattening.recorded_of_node? hg hnode, hname.symm,
        hvalid.slot b n hn, hvalid.rank b n hn, hframed.refs b n hn⟩
    counterpart_inj := by
      intro id hid id' hid' hsame
      obtain ⟨b, _, hb, _, rfl⟩ := hcounterpart id hid
      obtain ⟨b', _, hb', _, rfl⟩ := hcounterpart id' hid'
      rw [hb, hb', Option.some_inj] at hsame
      rw [hsame]
    order := by
      have hself : ∀ b ∈ (f.graph g).order, (f.graph g).counterpart? (owner b) = some b := by
        intro b hb
        obtain ⟨hid, n, hn⟩ := (hvalid.mem_order hg hdone).mp hb
        obtain ⟨c, m, hc, hm, howner⟩ := hcounterpart (owner b) (horder ▸ hid)
        rw [hc, hvalid.owner_inj c m b n hm hn howner]
      rw [← horder, ← hvalid.map_owner_order hg hdone, List.map_map]
      exact List.map_congr_left fun b hb => (hself b hb).symm
    ranks := by
      rw [← horder, ← hvalid.map_owner_order hg hdone, List.map_map]
      refine List.map_congr_left fun b hb => ?_
      obtain ⟨_, n, hn⟩ := (hvalid.mem_order hg hdone).mp hb
      exact hvalid.rank b n hn
    images := by
      intro id k hk
      change (f.images.get id).bind Arg.node? = some k at hk
      obtain ⟨y, hy, hnode⟩ := Option.bind_eq_some_iff.mp hk
      rw [Arg.node?_eq_some] at hnode
      exact hframed.images id k (hnode ▸ hy)
    operands := by
      intro b built hb x hx
      cases x with
      | const v => exact .inl ⟨v, rfl⟩
      | node k =>
        obtain ⟨_, hk⟩ := hvalid.reference b built hb k (Operation.mem_references.mpr hx)
        exact .inr ⟨k, rfl, hk.imp_right And.left⟩
    built := fun b => ⟨fun ⟨n, hn⟩ => hvalid.range b n hn,
      fun ⟨hle, hlt⟩ => (hdense b hle hlt).resolve_left (by simp)⟩
    flatCount := hframed.count }

/-- The live nodes are the recorded ones and those that were built. -/
theorem FlatExtension.contains_iff (h : g.FlatExtension g') (id : NodeId) :
    g'.contains id = true ↔
      (∃ node, g.recorded.get id = some node) ∨ g.next ≤ id ∧ id < g'.next := by
  rw [← h.built id, ← h.recorded, contains, node?_eq, Option.isSome_or, Bool.or_eq_true,
    Option.isSome_iff_exists, Option.isSome_iff_exists]

end Graph

end Straightline
