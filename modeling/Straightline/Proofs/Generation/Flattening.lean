import Mathlib.Logic.Function.Basic
import Straightline.Proofs.Generation.Chains
import Straightline.Proofs.Generation.Scheduled
import Straightline.Proofs.Generation.Sharing

/-!
# The invariant of flattening

Every built node has an owner: the recorded node that it stands for at the moment. Flattening takes
the recorded nodes in dependency order. A node gets a new built node, or it takes over the built
node of an operand that it alone reads. The invariant says that a built node refers to independent
variables and to built nodes whose owners lie under its own owner, and that such a referred node
has a reader already, so that nobody takes it over later.
-/

namespace Straightline

/-- A graph that is scheduled and not flattened yet, with the exact reference counts of what the
outputs reach. -/
structure Graph.Flattenable {α : Type} (g : Graph α) (outputs : List (Arg α))
    (seen : List NodeId) : Prop extends g.Scheduled outputs where
  /-- The graph is well formed. -/
  wellFormed : g.WellFormed
  /-- There is no flattened graph. -/
  unflattened : g.pass.flat = none
  /-- The outputs are live. -/
  live : ∀ id, .node id ∈ outputs → g.contains id = true
  /-- The reference counts are exact. -/
  counted : References.Counted g.references (outputs.filterMap Arg.node?) seen [] g.pass.refs
  /-- Only what the outputs reach is stored. -/
  order_seen : ∀ id ∈ g.order, id ∈ seen

/-- A scheduled graph can be flattened. -/
theorem Graph.WellFormed.exists_flattenable {α : Type} {g : Graph α} {outputs : List (Arg α)}
    (h : g.WellFormed) (policy : Policy α)
    (hlive : ∀ id, Arg.node id ∈ outputs → ∃ node, g.recorded.get id = some node) :
    ∃ seen, (g.scheduled policy outputs).Flattenable outputs seen := by
  have hcontains : ∀ id, Arg.node id ∈ outputs → g.beginPass.contains id = true :=
    fun id hid => contains_beginPass.mpr (hlive id hid)
  obtain ⟨seen, refs, hcount, hcounted⟩ := countReferences_complete h.beginPass.closed_all
    h.beginPass.issued hcontains
  have hrefs : (g.scheduled policy outputs).pass.refs = refs := congrArg Prod.snd hcount
  refine ⟨seen, h.scheduled_spec policy hlive, h.scheduled, rfl, hcontains, ?_, ?_⟩
  · rw [hrefs]
    exact hcounted
  · intro id hid
    exact hcounted.mem_seen.mpr (h.reaches_scheduled policy hlive hid)

theorem Graph.Flattenable.contains_of_seen {α : Type} {g : Graph α} {outputs : List (Arg α)}
    {seen : List NodeId} (h : g.Flattenable outputs seen) {id : NodeId} (hid : id ∈ seen) :
    g.contains id = true := by
  obtain ⟨root, hroot, hreach⟩ := h.counted.mem_seen.mp hid
  exact h.closed.contains_of_reaches (h.live root (Arg.mem_filterMap_node?.mp hroot)) hreach

theorem Graph.Flattenable.lt_of_seen {α : Type} {g : Graph α} {outputs : List (Arg α)}
    {seen : List NodeId} (h : g.Flattenable outputs seen) {id : NodeId} (hid : id ∈ seen) :
    id < g.next :=
  h.wellFormed.issued id (h.contains_of_seen hid)

theorem Graph.Flattenable.roster_lt_next {α : Type} {g : Graph α} {outputs : List (Arg α)}
    {seen : List NodeId} (h : g.Flattenable outputs seen) {id : NodeId} (hid : id ∈ g.roster) :
    id < g.next :=
  h.wellFormed.issued id (contains_iff.mpr ⟨_, h.roster_independent id hid⟩)

namespace Flattening

variable {α : Type} {g : Graph α} {outputs : List (Arg α)} {seen done : List NodeId}
  {owner : NodeId → NodeId} {f : Flattening α} {id : NodeId}

/-- Without a flattened graph the live nodes are recorded. -/
theorem recorded_of_node? (hg : g.Flattenable outputs seen) {n : Node α}
    (hn : g.node? id = some n) : g.recorded.get id = some n := by
  rwa [Graph.node?, hg.unflattened, Option.bind_none, Option.or_none] at hn

/-- No node is a chain yet. -/
theorem unchained (hg : g.Flattenable outputs seen) (id : NodeId) (family : Family)
    (terms : List (Sense × Arg α)) : g.operation? id ≠ some (.chain family terms) := by
  intro hop
  obtain ⟨n, hn, heq⟩ := Option.map_eq_some_iff.mp hop
  have hchain := hg.wellFormed.unchained id n (recorded_of_node? hg hn)
  simp [heq, Operation.opcode, Opcode.isChain] at hchain

/-- Some node that is done reads a node, through aliases at most. -/
def Consumed (g : Graph α) (done : List NodeId) (t : NodeId) : Prop :=
  ∃ c ∈ done, ¬ g.IsAlias c ∧ ∃ a ∈ g.references c, g.Resolves (.node a) (.node t)

/-- A node without a slot that some node which is done alone reads. -/
def Absorbed (g : Graph α) (done : List NodeId) (t : NodeId) : Prop :=
  g.slot t = 0 ∧ ∃ c ∈ done, ¬ g.IsAlias c ∧ ∃ a ∈ g.references c, g.Exclusive a t

/-- The operand that stands for a recorded one: a constant and an independent variable for
themselves, any other node for the built node that it owns. -/
inductive Stands (g : Graph α) (owner : NodeId → NodeId) (nodes : Table (Option (Node α))) :
    Arg α → Arg α → Prop where
  /-- A constant stands for itself. -/
  | const (v : α) : Stands g owner nodes (.const v) (.const v)
  /-- An independent variable stands for itself. -/
  | independent {t : NodeId} (ht : t ∈ g.roster) : Stands g owner nodes (.node t) (.node t)
  /-- A built node stands for its owner. -/
  | built {k : NodeId} {n : Node α} (hk : nodes.get k = some n) :
    Stands g owner nodes (.node (owner k)) (.node k)

/-- What flattening maintains. -/
structure Valid (g : Graph α) (seen done : List NodeId) (owner : NodeId → NodeId)
    (f : Flattening α) : Prop where
  /-- The nodes that are done are reached from the outputs. -/
  reached : ∀ c ∈ done, c ∈ seen
  /-- Identifiers are issued behind those of the recorded nodes. -/
  next_le : g.next ≤ f.next
  /-- Recorded nodes keep their slots. -/
  slots : ∀ id : Nat, id < g.next → f.slots.get id = g.slot id
  /-- Recorded nodes keep their ranks. -/
  ranks : ∀ id : Nat, id < g.next → f.ranks.get id = g.pass.ranks.get id
  /-- Recorded nodes keep their reference counts. -/
  refs : ∀ id : Nat, id < g.next → f.refs.get id = g.pass.refs.get id
  /-- Recorded nodes own themselves. -/
  owner_of_lt : ∀ id : Nat, id < g.next → owner id = id
  /-- Built nodes have new identifiers. -/
  range : ∀ b n, f.nodes.get b = some n → g.next ≤ b ∧ b < f.next
  /-- Owners are done, and no independent variable is an owner. -/
  owner_mem : ∀ b n, f.nodes.get b = some n → owner b ∈ done ∧ owner b ∉ g.roster
  /-- Different built nodes have different owners. -/
  owner_inj : ∀ b n c m, f.nodes.get b = some n → f.nodes.get c = some m → owner b = owner c →
    b = c
  /-- A built node has the slot of its owner. -/
  slot : ∀ b n, f.nodes.get b = some n → f.slots.get b = g.slot (owner b)
  /-- A built node has the rank of its owner. -/
  rank : ∀ b n, f.nodes.get b = some n → f.ranks.get b = g.pass.ranks.get (owner b)
  /-- A built node has an operation of its own. -/
  operation : ∀ b n, f.nodes.get b = some n → n.operation ≠ .independent
  /-- A built chain has a term. -/
  chains : ∀ b n family terms, f.nodes.get b = some n → n.operation = .chain family terms →
    terms ≠ []
  /-- A built node refers to independent variables and to built nodes with a reader, and what it
  refers to lies under its owner. -/
  reference : ∀ b n, f.nodes.get b = some n → ∀ k ∈ n.operation.references,
    Under g.references g.slot (owner b) (owner k) ∧
      (k ∈ g.roster ∨ (∃ m, f.nodes.get k = some m) ∧ Consumed g done (owner k))
  /-- Nodes that are done have an operand that stands for them, unless their reader absorbed
  them. -/
  image : ∀ id ∈ done, ∃ r, g.Resolves (.node id) r ∧ g.IsEnd r ∧
    (Stands g owner f.nodes r (f.image (.node id)) ∨ ∃ t, r = .node t ∧ Absorbed g done t)

theorem Consumed.mono {t : NodeId} (h : Consumed g done t) : Consumed g (done ++ [id]) t := by
  obtain ⟨c, hc, hrest⟩ := h
  exact ⟨c, List.mem_append_left _ hc, hrest⟩

theorem Absorbed.mono {t : NodeId} (h : Absorbed g done t) : Absorbed g (done ++ [id]) t := by
  obtain ⟨hslot, c, hc, hrest⟩ := h
  exact ⟨hslot, c, List.mem_append_left _ hc, hrest⟩

@[simp] theorem image_const (v : α) : f.image (.const v) = .const v := rfl

theorem image_remember (y : Arg α) (k : NodeId) :
    (f.remember id y).image (.node k) = if k = id then y else f.image (.node k) := by
  simp only [image, remember, Table.get_set]
  split <;> rfl

theorem image_assign (name : Option String) (host : NodeId) (op : Operation (Arg α)) (k : NodeId) :
    (f.assign id name host op).image (.node k) =
      if k = id then .node host else f.image (.node k) := by
  simp only [image, assign, Table.get_set]
  split <;> rfl

theorem nodes_assign (name : Option String) (host : NodeId) (op : Operation (Arg α)) (b : NodeId) :
    (f.assign id name host op).nodes.get b =
      if b = host then some { operation := op, name := name } else f.nodes.get b :=
  Table.get_set ..

/-- A built node after an assignment is the assigned one or was there before. -/
theorem nodes_assign_eq_some {name : Option String} {host b : NodeId} {op : Operation (Arg α)}
    {n : Node α} (hb : (f.assign id name host op).nodes.get b = some n) :
    (b = host ∧ n.operation = op) ∨ (b ≠ host ∧ f.nodes.get b = some n) := by
  rw [nodes_assign] at hb
  split at hb
  · next heq =>
    cases hb
    exact .inl ⟨heq, rfl⟩
  · next hne => exact .inr ⟨hne, hb⟩

/-- An assignment loses no built node. -/
theorem exists_nodes_assign (id : NodeId) (name : Option String) (host : NodeId)
    (op : Operation (Arg α)) {b : NodeId} (hb : ∃ n, f.nodes.get b = some n) :
    ∃ n, (f.assign id name host op).nodes.get b = some n := by
  rw [nodes_assign]
  split
  · exact ⟨_, rfl⟩
  · exact hb

/-- What stands for an operand still does after an assignment, unless it is the assigned node. -/
theorem Stands.assign {name : Option String} {host : NodeId} {op : Operation (Arg α)} {r y : Arg α}
    (h : Stands g owner f.nodes r y) :
    Stands g (Function.update owner host id) (f.assign id name host op).nodes r y ∨
      r = .node (owner host) ∧ ∃ n, f.nodes.get host = some n := by
  cases h with
  | const v => exact .inl (.const v)
  | independent ht => exact .inl (.independent ht)
  | @built b n hb =>
    by_cases hhost : b = host
    · subst hhost
      exact .inr ⟨rfl, n, hb⟩
    · have hkept : (f.assign id name host op).nodes.get b = some n := by
        rw [nodes_assign, if_neg hhost, hb]
      have hstands : Stands g (Function.update owner host id) (f.assign id name host op).nodes
          (.node (Function.update owner host id b)) (.node b) := .built hkept
      rw [Function.update_of_ne hhost] at hstands
      exact .inl hstands

/-- The assigned node stands for its new owner. -/
theorem stands_assign_self (g : Graph α) (owner : NodeId → NodeId) (f : Flattening α) (id : NodeId)
    (name : Option String) (host : NodeId) (op : Operation (Arg α)) :
    Stands g (Function.update owner host id) (f.assign id name host op).nodes (.node id)
      (.node host) := by
  have hself : (f.assign id name host op).nodes.get host =
      some { operation := op, name := name } := by
    rw [nodes_assign, if_pos rfl]
  have hstands : Stands g (Function.update owner host id) (f.assign id name host op).nodes
      (.node (Function.update owner host id host)) (.node host) := .built hself
  rwa [Function.update_self] at hstands

/-- No built node is an independent variable. -/
theorem Valid.not_mem_roster (hg : g.Flattenable outputs seen) (h : Valid g seen done owner f)
    {b : NodeId} {n : Node α} (hb : f.nodes.get b = some n) : b ∉ g.roster := by
  intro hroster
  exact absurd (hg.roster_lt_next hroster) (Nat.not_lt_of_le (h.range b n hb).1)

/-- A recorded node whose turn it is: it is neither an independent variable nor an alias, and its
operands are done. -/
structure Ready (g : Graph α) (seen done : List NodeId) (id : NodeId) : Prop where
  /-- The outputs reach the node. -/
  reached : id ∈ seen
  /-- The node is not done. -/
  new : id ∉ done
  /-- The node is not an independent variable. -/
  dependent : id ∉ g.roster
  /-- The node is not an alias. -/
  plain : ¬ g.IsAlias id
  /-- The operands are done. -/
  deps : ∀ k ∈ g.references id, k ∈ done

theorem ready (hg : g.Flattenable outputs seen) (hid : id ∈ seen)
    (hnew : id ∉ done) (hdeps : ∀ k ∈ g.references id, k ∈ done) {op : Operation (Arg α)}
    (hop : g.operation? id = some op) (hne : op ≠ .independent) (hplain : ¬ g.IsAlias id) :
    Ready g seen done id := by
  refine ⟨hid, hnew, fun hroster => ?_, hplain, hdeps⟩
  rw [hg.roster_independent id hroster, Option.some_inj] at hop
  exact hne hop.symm

/-- A constant, or a node that the given one refers to. -/
def OperandOf (g : Graph α) (id : NodeId) (x : Arg α) : Prop :=
  ∀ a, x = .node a → a ∈ g.references id

/-- The operands of its operation are operands of a node. -/
theorem operandOf_of_mem {op : Operation (Arg α)} (hop : g.operation? id = some op) {x : Arg α}
    (hx : x ∈ op.operands) : OperandOf g id x := by
  rintro a rfl
  exact Graph.mem_references_of_operand hop hx

theorem operandOf_binary {op : Binary} {l r x : Arg α}
    (hop : g.operation? id = some (.binary op l r)) (hx : x = l ∨ x = r) : OperandOf g id x :=
  operandOf_of_mem hop (by simpa [Operation.operands] using hx)

/-- The operands of a node whose turn it is were not absorbed. -/
theorem Valid.operand (hg : g.Flattenable outputs seen) (h : Valid g seen done owner f)
    (hid : Ready g seen done id) {x : Arg α} (hx : OperandOf g id x) :
    ∃ r, g.Resolves x r ∧ g.IsEnd r ∧ Stands g owner f.nodes r (f.image x) := by
  cases x with
  | const v => exact ⟨.const v, .refl, fun _ h => by simp at h, .const v⟩
  | node a =>
    have ha := hx a rfl
    obtain ⟨r, hres, hend, hstands | ⟨t, rfl, _, c, hc, hca, b, hb, hexcl⟩⟩ :=
      h.image a (hid.deps a ha)
    · exact ⟨r, hres, hend, hstands⟩
    · -- The node that absorbed the operand would be this one, which is not done.
      obtain ⟨rfl, _⟩ :=
        hexcl.unique hg.counted hres (h.reached c hc) hid.reached hca hid.plain hb ha
      exact absurd hc hid.new

/-- The built node behind an exclusive operand of a node whose turn it is. -/
structure Spliced (g : Graph α) (owner : NodeId → NodeId) (f : Flattening α) (family : Family)
    (x : Arg α) (host : NodeId) (terms : List (Sense × Arg α)) (a : NodeId) (n : Node α) :
    Prop where
  /-- The operand is a node. -/
  operand : x = .node a
  /-- The host is a built node. -/
  node : f.nodes.get host = some n
  /-- Its operation has the terms. -/
  terms : n.operation.terms? family = some terms
  /-- The way to its owner is exclusive. -/
  exclusive : g.Exclusive a (owner host)
  /-- Its owner has no slot. -/
  slot : g.slot (owner host) = 0

/-- An operand that can be spliced. -/
theorem Valid.spliced (hg : g.Flattenable outputs seen) (h : Valid g seen done owner f)
    (hid : Ready g seen done id) {x : Arg α} (hx : OperandOf g id x)
    {family : Family} {host : NodeId} {terms : List (Sense × Arg α)}
    (hsplice : f.spliceable? g family x = some (host, terms)) :
    ∃ a n, Spliced g owner f family x host terms a n := by
  simp only [spliceable?, Option.bind_eq_bind, Option.bind_eq_some_iff] at hsplice
  obtain ⟨k, hk, n, hn, ts, hts, hrest⟩ := hsplice
  split at hrest
  · next hexclusive =>
    obtain ⟨rfl, rfl⟩ : k = host ∧ ts = terms := by simpa using hrest
    obtain ⟨a, t, rfl, hexcl, hslot, hend⟩ := Graph.exists_exclusive hg.closed
      hg.wellFormed.issued h.slots h.refs
      (fun a ha => hg.contains_of_seen (h.reached a (hid.deps a (hx a ha)))) hexclusive
    obtain ⟨r, hres, hendr, hstands⟩ := h.operand hg hid hx
    obtain rfl := Graph.Resolves.end_unique hres hexcl.resolves hendr hend
    rw [Arg.node?_eq_some.mp hk] at hstands
    cases hstands with
    | independent ht => exact absurd ht (h.not_mem_roster hg hn)
    | built _ => exact ⟨a, n, rfl, hn, hts, hexcl, hslot⟩
  · simp at hrest

/-- Nobody refers to a built node that can be spliced. -/
theorem Valid.unread (hg : g.Flattenable outputs seen) (h : Valid g seen done owner f)
    (hid : Ready g seen done id) {x : Arg α} (hx : OperandOf g id x)
    {family : Family} {host a : NodeId} {terms : List (Sense × Arg α)} {n : Node α}
    (hsplice : Spliced g owner f family x host terms a n) {b : NodeId} {m : Node α}
    (hb : f.nodes.get b = some m) : host ∉ m.operation.references := by
  intro hmem
  rcases (h.reference b m hb host hmem).2 with hroster | ⟨_, c, hc, hca, d, hd, hres⟩
  · exact h.not_mem_roster hg hsplice.node hroster
  · -- The reader that is done and this one would be the same.
    obtain ⟨rfl, _⟩ := hsplice.exclusive.unique hg.counted hres hid.reached (h.reached c hc)
      hid.plain hca (hx a hsplice.operand) hd
    exact hid.new hc

/-- An operand that cannot be spliced stands for another node than one that can. -/
theorem Valid.image_ne (hg : g.Flattenable outputs seen) (h : Valid g seen done owner f)
    (hid : Ready g seen done id) {x y : Arg α} (hx : OperandOf g id x)
    (hy : OperandOf g id y) {family : Family} {host a : NodeId}
    {terms : List (Sense × Arg α)} {n : Node α}
    (hsplice : Spliced g owner f family x host terms a n) (hne : x ≠ y) :
    f.image y ≠ .node host := by
  intro himage
  obtain ⟨r, hres, hend, hstands⟩ := h.operand hg hid hy
  rw [himage] at hstands
  cases hstands with
  | independent ht => exact h.not_mem_roster hg hsplice.node ht
  | built _ =>
    cases y with
    | const v => simp at himage
    | node b =>
      obtain ⟨_, rfl⟩ := hsplice.exclusive.unique hg.counted hres hid.reached hid.reached
        hid.plain hid.plain (hx a hsplice.operand) (hy b rfl)
      exact hne hsplice.operand

/-- What a term of the chain of a node may refer to. -/
def MayRefer (g : Graph α) (done : List NodeId) (owner : NodeId → NodeId)
    (nodes : Table (Option (Node α))) (id k : NodeId) : Prop :=
  Under g.references g.slot id (owner k) ∧
    (k ∈ g.roster ∨ (∃ m, nodes.get k = some m) ∧ Consumed g (done ++ [id]) (owner k))

/-- A node whose turn it is may refer to what stands for its operands. -/
theorem Valid.mayRefer_image (hg : g.Flattenable outputs seen) (h : Valid g seen done owner f)
    (hid : Ready g seen done id) {x : Arg α} (hx : OperandOf g id x)
    {k : NodeId} (hk : f.image x = .node k) : MayRefer g done owner f.nodes id k := by
  obtain ⟨r, hres, _, hstands⟩ := h.operand hg hid hx
  rw [hk] at hstands
  cases x with
  | const v => simp at hk
  | node a =>
    cases hstands with
    | independent ht =>
      refine ⟨?_, .inl ht⟩
      rw [h.owner_of_lt k (hg.roster_lt_next ht)]
      exact Graph.Resolves.under hres (hx a rfl)
    | built hm =>
      refine ⟨Graph.Resolves.under hres (hx a rfl), .inr ⟨⟨_, hm⟩, ?_⟩⟩
      exact ⟨id, by simp, hid.plain, a, hx a rfl, hres⟩

/-- A node whose turn it is may refer to what a built node refers to that it splices. -/
theorem Valid.mayRefer_spliced (h : Valid g seen done owner f) {x : Arg α}
    (hx : OperandOf g id x) {family : Family} {host a : NodeId}
    {terms : List (Sense × Arg α)} {n : Node α}
    (hsplice : Spliced g owner f family x host terms a n) {k : NodeId}
    (hk : k ∈ n.operation.references) : MayRefer g done owner f.nodes id k := by
  obtain ⟨hunder, hrest⟩ := h.reference host n hsplice.node k hk
  have hhost : Under g.references g.slot id (owner host) :=
    Graph.Resolves.under hsplice.exclusive.resolves (hx a hsplice.operand)
  exact ⟨hhost.trans hsplice.slot hunder, hrest.imp_right fun hb => ⟨hb.1, hb.2.mono⟩⟩

/-- A node that is reached joins the nodes that are done. -/
theorem Valid.reached_concat (h : Valid g seen done owner f) (hid : id ∈ seen) :
    ∀ c ∈ done ++ [id], c ∈ seen := by
  intro c hc
  rcases List.mem_append.mp hc with hc | hc
  · exact h.reached c hc
  · exact List.mem_singleton.mp hc ▸ hid

/-- Let a built node take a new operation and a new owner. -/
theorem Valid.assign (hg : g.Flattenable outputs seen) (h : Valid g seen done owner f)
    (hid : Ready g seen done id) {name : Option String} {host : NodeId} {op : Operation (Arg α)}
    (hrange : g.next ≤ host ∧ host < f.next) (hop : op ≠ .independent)
    (hchain : ∀ family terms, op = .chain family terms → terms ≠ [])
    (hunread : ∀ b n, f.nodes.get b = some n → host ∉ n.operation.references)
    (hrefs : ∀ k ∈ op.references, k ≠ host ∧ MayRefer g done owner f.nodes id k)
    (habsorbed : ∀ n, f.nodes.get host = some n → Absorbed g (done ++ [id]) (owner host)) :
    Valid g seen (done ++ [id]) (Function.update owner host id) (f.assign id name host op) := by
  have hne : ∀ k : Nat, k < g.next → k ≠ host := by
    intro k hk heq
    exact absurd hrange.1 (Nat.not_le_of_lt (heq ▸ hk))
  have howner : ∀ k, k ≠ host → Function.update owner host id k = owner k :=
    fun k hk => Function.update_of_ne hk _ _
  have hhost : Function.update owner host id host = id := Function.update_self ..
  -- The new owner is not done, so it owned nothing before.
  have hother : ∀ b n, b ≠ host → f.nodes.get b = some n →
      Function.update owner host id b ≠ id := by
    intro b n hb hn heq
    rw [howner b hb] at heq
    exact hid.new (heq ▸ (h.owner_mem b n hn).1)
  exact {
    reached := h.reached_concat hid.reached
    next_le := h.next_le
    slots := fun k hk => (Table.get_set_of_ne _ _ (hne k hk)).trans (h.slots k hk)
    ranks := fun k hk => (Table.get_set_of_ne _ _ (hne k hk)).trans (h.ranks k hk)
    refs := fun k hk => (Table.get_set_of_ne _ _ (hne k hk)).trans (h.refs k hk)
    owner_of_lt := fun k hk => (howner k (hne k hk)).trans (h.owner_of_lt k hk)
    range := by
      intro b n hb
      rcases nodes_assign_eq_some hb with ⟨rfl, _⟩ | ⟨_, hb⟩
      · exact hrange
      · exact h.range b n hb
    owner_mem := by
      intro b n hb
      rcases nodes_assign_eq_some hb with ⟨rfl, _⟩ | ⟨hne, hb⟩
      · rw [hhost]
        exact ⟨by simp, hid.dependent⟩
      · rw [howner b hne]
        exact (h.owner_mem b n hb).imp_left (List.mem_append_left _)
    owner_inj := by
      intro b n c m hb hc heq
      rcases nodes_assign_eq_some hb, nodes_assign_eq_some hc with
        ⟨⟨rfl, _⟩ | ⟨hbne, hbold⟩, ⟨rfl, _⟩ | ⟨hcne, hcold⟩⟩
      · rfl
      · rw [hhost] at heq
        exact absurd heq.symm (hother c m hcne hcold)
      · rw [hhost] at heq
        exact absurd heq (hother b n hbne hbold)
      · rw [howner b hbne, howner c hcne] at heq
        exact h.owner_inj b n c m hbold hcold heq
    slot := by
      intro b n hb
      rcases nodes_assign_eq_some hb with ⟨rfl, _⟩ | ⟨hne, hb⟩
      · rw [hhost]
        exact (Table.get_set_self ..).trans (h.slots id (hg.lt_of_seen hid.reached))
      · rw [howner b hne]
        exact (Table.get_set_of_ne _ _ hne).trans (h.slot b n hb)
    rank := by
      intro b n hb
      rcases nodes_assign_eq_some hb with ⟨rfl, _⟩ | ⟨hne, hb⟩
      · rw [hhost]
        exact (Table.get_set_self ..).trans (h.ranks id (hg.lt_of_seen hid.reached))
      · rw [howner b hne]
        exact (Table.get_set_of_ne _ _ hne).trans (h.rank b n hb)
    operation := by
      intro b n hb
      rcases nodes_assign_eq_some hb with ⟨_, rfl⟩ | ⟨_, hb⟩
      · exact hop
      · exact h.operation b n hb
    chains := by
      intro b n family terms hb
      rcases nodes_assign_eq_some hb with ⟨_, rfl⟩ | ⟨_, hb⟩
      · exact hchain family terms
      · exact h.chains b n family terms hb
    reference := by
      intro b n hb k hk
      rcases nodes_assign_eq_some hb with ⟨rfl, rfl⟩ | ⟨hne, hb⟩
      · obtain ⟨hkhost, hunder, hrest⟩ := hrefs k hk
        rw [hhost, howner k hkhost]
        exact ⟨hunder, hrest.imp_right fun hm => ⟨exists_nodes_assign _ _ _ _ hm.1, hm.2⟩⟩
      · have hkhost : k ≠ host := fun heq => hunread b n hb (heq ▸ hk)
        obtain ⟨hunder, hrest⟩ := h.reference b n hb k hk
        rw [howner b hne, howner k hkhost]
        exact ⟨hunder, hrest.imp_right fun hm => ⟨exists_nodes_assign _ _ _ _ hm.1, hm.2.mono⟩⟩
    image := by
      intro k hk
      rw [image_assign]
      rcases List.mem_append.mp hk with hk | hk
      · have hkid : k ≠ id := fun heq => hid.new (heq ▸ hk)
        rw [if_neg hkid]
        obtain ⟨r, hres, hend, hstands | ⟨t, ht, habs⟩⟩ := h.image k hk
        · refine ⟨r, hres, hend, hstands.assign.imp_right ?_⟩
          rintro ⟨rfl, n, hn⟩
          exact ⟨_, rfl, habsorbed n hn⟩
        · exact ⟨r, hres, hend, .inr ⟨t, ht, habs.mono⟩⟩
      · obtain rfl := List.mem_singleton.mp hk
        rw [if_pos rfl]
        refine ⟨.node k, .refl, ?_, .inl (stands_assign_self ..)⟩
        rintro t ht
        obtain rfl : k = t := by simpa using ht
        exact hid.plain }

/-- Let an operand stand for a node without building one. -/
theorem Valid.remember (h : Valid g seen done owner f) (hid : id ∈ seen) (hnew : id ∉ done)
    {r y : Arg α} (hres : g.Resolves (.node id) r) (hend : g.IsEnd r)
    (hy : Stands g owner f.nodes r y ∨ ∃ t, r = .node t ∧ Absorbed g done t) :
    Valid g seen (done ++ [id]) owner (f.remember id y) where
  reached := h.reached_concat hid
  next_le := h.next_le
  slots := h.slots
  ranks := h.ranks
  refs := h.refs
  owner_of_lt := h.owner_of_lt
  range := h.range
  owner_mem b n hb := (h.owner_mem b n hb).imp_left (List.mem_append_left _)
  owner_inj := h.owner_inj
  slot := h.slot
  rank := h.rank
  operation := h.operation
  chains := h.chains
  reference b n hb k hk :=
    (h.reference b n hb k hk).imp_right (Or.imp_right fun hm => ⟨hm.1, hm.2.mono⟩)
  image k hk := by
    rw [image_remember]
    rcases List.mem_append.mp hk with hk | hk
    · have hne : k ≠ id := fun heq => hnew (heq ▸ hk)
      rw [if_neg hne]
      obtain ⟨r, hres, hend, hstands⟩ := h.image k hk
      exact ⟨r, hres, hend, hstands.imp_right fun ⟨t, ht, habs⟩ => ⟨t, ht, habs.mono⟩⟩
    · obtain rfl := List.mem_singleton.mp hk
      rw [if_pos rfl]
      exact ⟨r, hres, hend, hy.imp_right fun ⟨t, ht, habs⟩ => ⟨t, ht, habs.mono⟩⟩

/-- A new identifier. -/
theorem Valid.issue (h : Valid g seen done owner f) :
    Valid g seen done owner { f with count := f.count + 1, next := f.next + 1 } :=
  { h with
    next_le := Nat.le_succ_of_le h.next_le
    range := fun b n hb => (h.range b n hb).imp_right Nat.lt_succ_of_lt }

/-- The next identifier is new. -/
theorem Valid.ne_next (hg : g.Flattenable outputs seen) (h : Valid g seen done owner f) {k : NodeId}
    (hk : k ∈ g.roster ∨ ∃ m, f.nodes.get k = some m) : k ≠ f.next := by
  rintro rfl
  rcases hk with hroster | ⟨m, hm⟩
  · exact absurd (hg.roster_lt_next hroster) (Nat.not_lt_of_le h.next_le)
  · exact Nat.lt_irrefl _ (h.range _ m hm).2

/-- Nobody refers to the next identifier. -/
theorem Valid.unread_next (hg : g.Flattenable outputs seen) (h : Valid g seen done owner f)
    {b : NodeId} {n : Node α} (hb : f.nodes.get b = some n) : f.next ∉ n.operation.references := by
  intro hmem
  exact h.ne_next hg ((h.reference b n hb _ hmem).2.imp_right And.left) rfl

/-- What a node built for the operation of a node refers to. -/
theorem Valid.mayRefer_derived (hg : g.Flattenable outputs seen) (h : Valid g seen done owner f)
    (hid : Ready g seen done id) {op : Operation (Arg α)} (hop : g.operation? id = some op)
    {k : NodeId} (hk : k ∈ (op.map f.image).references) :
    k ≠ f.next ∧ MayRefer g done owner f.nodes id k := by
  rw [Operation.mem_references, Operation.operands_map, List.mem_map] at hk
  obtain ⟨x, hx, himage⟩ := hk
  have hrefer := h.mayRefer_image hg hid (operandOf_of_mem hop hx) himage
  exact ⟨h.ne_next hg (hrefer.2.imp_right And.left), hrefer⟩

/-- Build a new node for the operation of a node whose turn it is. -/
theorem Valid.derive (hg : g.Flattenable outputs seen) (h : Valid g seen done owner f)
    (hid : Ready g seen done id) (name : Option String) {op : Operation (Arg α)}
    (hop : g.operation? id = some op) (hne : op ≠ .independent) :
    Valid g seen (done ++ [id]) (Function.update owner f.next id)
      (f.derive id name (op.map f.image)) := by
  refine h.issue.assign hg hid ⟨h.next_le, Nat.lt_succ_self _⟩ ?_ ?_
    (fun b n => h.unread_next hg) (fun k => h.mayRefer_derived hg hid hop) ?_
  · intro heq
    have hcode := congrArg Operation.opcode heq
    rw [Operation.opcode_map, Operation.opcode, Operation.opcode_eq_independent] at hcode
    exact hne hcode
  · intro family terms heq
    cases op with
    | chain own ts =>
      have hts := hg.chains id own ts hop
      simp only [Operation.map, Operation.chain.injEq] at heq
      rw [← heq.2]
      simpa using hts
    | _ => simp [Operation.map] at heq
  · intro n hn
    exact absurd rfl (h.ne_next hg (.inr ⟨n, hn⟩))

/-- The operations that have terms of a family. -/
theorem terms?_eq_some {β : Type} {op : Operation β} {family : Family} {terms : List (Sense × β)}
    (h : op.terms? family = some terms) :
    (∃ sense l r, op = .binary (.arith ⟨family, sense⟩) l r ∧
      terms = [(.direct, l), (sense, r)]) ∨ op = .chain family terms := by
  cases op with
  | binary op l r =>
    cases op with
    | arith tag =>
      simp only [Operation.terms?] at h
      split at h
      · next hfamily =>
        cases h
        exact .inl ⟨tag.sense, l, r, by rw [← hfamily], rfl⟩
      · cases h
    | pow => cases h
  | chain own ts =>
    simp only [Operation.terms?] at h
    split at h
    · next hfamily =>
      cases h
      exact .inr (by rw [hfamily])
    · cases h
  | _ => cases h

/-- The operands of an operation are those of its terms. -/
theorem operands_of_terms? {β : Type} {op : Operation β} {family : Family}
    {terms : List (Sense × β)} (h : op.terms? family = some terms) :
    op.operands = terms.map Prod.snd := by
  rcases terms?_eq_some h with ⟨sense, l, r, rfl, rfl⟩ | rfl
  · rfl
  · rfl

/-- A built node has a term. -/
theorem Valid.terms_ne_nil (h : Valid g seen done owner f) {b : NodeId} {n : Node α}
    (hn : f.nodes.get b = some n) {family : Family} {terms : List (Sense × Arg α)}
    (hterms : n.operation.terms? family = some terms) : terms ≠ [] := by
  rcases terms?_eq_some hterms with ⟨sense, l, r, _, rfl⟩ | hop
  · simp
  · exact h.chains b n family terms hn hop

/-- Some built nodes were written as chains, with the same terms. -/
structure Reshapes (f f' : Flattening α) : Prop where
  /-- Nothing else changed. -/
  same : f' = { f with nodes := f'.nodes }
  /-- A node has the operation it had, or is a chain of its terms. -/
  back : ∀ b m, f'.nodes.get b = some m → ∃ n, f.nodes.get b = some n ∧
    (m.operation = n.operation ∨
      ∃ family terms, m.operation = .chain family terms ∧ n.operation.terms? family = some terms)
  /-- No node is lost. -/
  kept : ∀ b n, f.nodes.get b = some n → ∃ m, f'.nodes.get b = some m

theorem Reshapes.refl (f : Flattening α) : Reshapes f f :=
  ⟨rfl, fun _ m hm => ⟨m, hm, .inl rfl⟩, fun _ n hn => ⟨n, hn⟩⟩

theorem reshapes_makeChain {b : NodeId} {n : Node α} {family : Family}
    {terms : List (Sense × Arg α)} (hn : f.nodes.get b = some n)
    (hterms : n.operation.terms? family = some terms) :
    Reshapes f (f.makeChain b family terms) := by
  have hnodes : ∀ k, (f.makeChain b family terms).nodes.get k =
      if k = b then some { n with operation := .chain family terms } else f.nodes.get k := by
    intro k
    simp only [makeChain, Table.get_modify, hn, Option.map_some]
  refine ⟨rfl, ?_, ?_⟩
  · intro k m hm
    rw [hnodes] at hm
    split at hm
    · next heq =>
      cases hm
      exact ⟨n, heq ▸ hn, .inr ⟨family, terms, rfl, hterms⟩⟩
    · exact ⟨m, hm, .inl rfl⟩
  · intro k m hm
    rw [hnodes]
    split
    · exact ⟨_, rfl⟩
    · exact ⟨m, hm⟩

theorem Reshapes.built {f' : Flattening α} (hs : Reshapes f f') {k : NodeId}
    (hk : ∃ n, f.nodes.get k = some n) : ∃ m, f'.nodes.get k = some m :=
  hk.elim (hs.kept k)

/-- Writing nodes as chains keeps what they refer to. -/
theorem Reshapes.references {f' : Flattening α} (hs : Reshapes f f') {b : NodeId} {m : Node α}
    (hm : f'.nodes.get b = some m) :
    ∃ n, f.nodes.get b = some n ∧ m.operation.references = n.operation.references := by
  obtain ⟨n, hn, hop | ⟨family, terms, hop, hterms⟩⟩ := hs.back b m hm
  · exact ⟨n, hn, by rw [hop]⟩
  · refine ⟨n, hn, ?_⟩
    rw [Operation.references, Operation.references, hop, operands_of_terms? hterms]
    rfl

/-- Writing nodes as chains keeps what stands for an operand. -/
theorem Reshapes.stands {f' : Flattening α} (hs : Reshapes f f') {r y : Arg α}
    (h : Stands g owner f.nodes r y) : Stands g owner f'.nodes r y := by
  cases h with
  | const v => exact .const v
  | independent ht => exact .independent ht
  | built hn =>
    obtain ⟨m, hm⟩ := hs.kept _ _ hn
    exact .built hm

/-- Writing nodes as chains keeps the invariant. -/
theorem Valid.reshape (h : Valid g seen done owner f) {f' : Flattening α} (hs : Reshapes f f') :
    Valid g seen done owner f' := by
  rw [hs.same]
  exact { h with
    range := by
      intro b m hm
      obtain ⟨n, hn, _⟩ := hs.back b m hm
      exact h.range b n hn
    owner_mem := by
      intro b m hm
      obtain ⟨n, hn, _⟩ := hs.back b m hm
      exact h.owner_mem b n hn
    owner_inj := by
      intro b m c k hm hk
      obtain ⟨n, hn, _⟩ := hs.back b m hm
      obtain ⟨n', hn', _⟩ := hs.back c k hk
      exact h.owner_inj b n c n' hn hn'
    slot := by
      intro b m hm
      obtain ⟨n, hn, _⟩ := hs.back b m hm
      exact h.slot b n hn
    rank := by
      intro b m hm
      obtain ⟨n, hn, _⟩ := hs.back b m hm
      exact h.rank b n hn
    operation := by
      intro b m hm
      obtain ⟨n, hn, hop | ⟨family, terms, hop, _⟩⟩ := hs.back b m hm
      · rw [hop]
        exact h.operation b n hn
      · simp [hop]
    chains := by
      intro b m family terms hm heq
      obtain ⟨n, hn, hop | ⟨family', terms', hop, hterms⟩⟩ := hs.back b m hm
      · exact h.chains b n family terms hn (hop ▸ heq)
      · rw [hop] at heq
        simp only [Operation.chain.injEq] at heq
        obtain ⟨rfl, rfl⟩ := heq
        exact h.terms_ne_nil hn hterms
    reference := by
      intro b m hm k hk
      obtain ⟨n, hn, hrefs⟩ := hs.references hm
      rw [hrefs] at hk
      obtain ⟨hunder, hrest⟩ := h.reference b n hn k hk
      exact ⟨hunder, hrest.imp_right fun hb => ⟨hs.built hb.1, hb.2⟩⟩
    image := by
      intro k hk
      obtain ⟨r, hres, hend, hstands⟩ := h.image k hk
      exact ⟨r, hres, hend, hstands.imp_left hs.stands⟩ }

/-- The terms that an operand contributes to the chain of its reader. -/
def operandTerms (g : Graph α) (f : Flattening α) (family : Family) (x : Arg α) :
    List (Sense × Arg α) :=
  ((f.spliceable? g family x).map Prod.snd).getD [(.direct, f.image x)]

/-- A node whose turn it is may refer to the terms of its operands, and no term refers to a built
node that it splices. -/
theorem Valid.mayRefer_terms (hg : g.Flattenable outputs seen) (h : Valid g seen done owner f)
    (hid : Ready g seen done id) {x y : Arg α} (hx : OperandOf g id x)
    (hy : OperandOf g id y) {family : Family} {host a : NodeId}
    {terms : List (Sense × Arg α)} {n : Node α}
    (hsome : f.spliceable? g family x = some (host, terms))
    (hsplice : Spliced g owner f family x host terms a n) {k : NodeId}
    (hk : .node k ∈ (f.operandTerms g family y).map Prod.snd) :
    k ≠ host ∧ MayRefer g done owner f.nodes id k := by
  cases hother : f.spliceable? g family y with
  | none =>
    have hne : x ≠ y := by
      rintro rfl
      rw [hother] at hsome
      cases hsome
    have himage : f.image y = .node k := by
      simpa [operandTerms, hother, eq_comm] using hk
    refine ⟨?_, h.mayRefer_image hg hid hy himage⟩
    rintro rfl
    exact h.image_ne hg hid hx hy hsplice hne himage
  | some found =>
    obtain ⟨other, ts⟩ := found
    obtain ⟨b, m, hspliced⟩ := h.spliced hg hid hy hother
    have hmem : k ∈ m.operation.references := by
      rw [Operation.mem_references, operands_of_terms? hspliced.terms]
      simpa [operandTerms, hother] using hk
    refine ⟨?_, h.mayRefer_spliced hy hspliced hmem⟩
    rintro rfl
    exact h.unread hg hid hx hsplice hspliced.node hmem

theorem Valid.operandTerms_ne_nil (hg : g.Flattenable outputs seen)
    (h : Valid g seen done owner f) (hid : Ready g seen done id) {x : Arg α}
    (hx : OperandOf g id x) (family : Family) :
    f.operandTerms g family x ≠ [] := by
  cases hsome : f.spliceable? g family x with
  | none => simp [operandTerms, hsome]
  | some found =>
    obtain ⟨host, terms⟩ := found
    obtain ⟨a, n, hspliced⟩ := h.spliced hg hid hx hsome
    simpa [operandTerms, hsome] using h.terms_ne_nil hspliced.node hspliced.terms

/-- Turning a chain around changes its senses only. -/
theorem map_snd_through {β : Type} (sense : Sense) (terms : List (Sense × β)) :
    (sense.through terms).map Prod.snd = terms.map Prod.snd := by
  rw [Sense.through_eq_map, List.map_map]
  rfl

/-- A node that splices an operand takes over its built node, that of the left operand if it can,
possibly after the other operand was written as a chain. -/
theorem exists_combine (g : Graph α) (f : Flattening α) (id : NodeId) (name : Option String)
    (tag : Tag) {l r : Arg α}
    (hsome : f.spliceable? g tag.family l ≠ none ∨ f.spliceable? g tag.family r ≠ none) :
    ∃ x host terms f', (x = l ∨ x = r) ∧ (x = l ∨ f.spliceable? g tag.family l = none) ∧
      f.spliceable? g tag.family x = some (host, terms) ∧
      (f' = f ∨ ∃ right ts, f.spliceable? g tag.family r = some (right, ts) ∧
        f' = f.makeChain right tag.family ts) ∧
      f.combine g id name tag l r = f'.assign id name host
        (.chain tag.family (f.operandTerms g tag.family l ++
          tag.sense.through (f.operandTerms g tag.family r))) := by
  cases hleft : f.spliceable? g tag.family l with
  | none =>
    cases hright : f.spliceable? g tag.family r with
    | none => simp [hleft, hright] at hsome
    | some found =>
      obtain ⟨host, terms⟩ := found
      refine ⟨r, host, terms, f, .inr rfl, .inr rfl, hright, .inl rfl, ?_⟩
      simp [combine, operandTerms, hleft, hright]
  | some found =>
    obtain ⟨host, terms⟩ := found
    cases hright : f.spliceable? g tag.family r with
    | none =>
      refine ⟨l, host, terms, f, .inl rfl, .inl rfl, hleft, .inl rfl, ?_⟩
      simp [combine, operandTerms, hleft, hright, Sense.through_single]
    | some found =>
      obtain ⟨right, rightTerms⟩ := found
      refine ⟨l, host, terms, f.makeChain right tag.family rightTerms, .inl rfl, .inl rfl, hleft,
        .inr ⟨right, rightTerms, rfl, rfl⟩, ?_⟩
      simp [combine, operandTerms, hleft, hright]

/-- What the chain of a node that splices an operand refers to. -/
theorem Valid.mayRefer_combined (hg : g.Flattenable outputs seen) (h : Valid g seen done owner f)
    (hid : Ready g seen done id) {family : Family} {sense : Sense} {l r x : Arg α}
    (hl : OperandOf g id l) (hr : OperandOf g id r)
    (hx : OperandOf g id x) {host : NodeId}
    {terms : List (Sense × Arg α)} (hsome : f.spliceable? g family x = some (host, terms))
    {k : NodeId} (hk : k ∈ (Operation.chain family
      (f.operandTerms g family l ++ sense.through (f.operandTerms g family r))).references) :
    k ≠ host ∧ MayRefer g done owner f.nodes id k := by
  obtain ⟨a, n, hsplice⟩ := h.spliced hg hid hx hsome
  rw [Operation.mem_references, Operation.operands, List.map_append, List.mem_append,
    map_snd_through] at hk
  rcases hk with hk | hk
  · exact h.mayRefer_terms hg hid hx hl hsome hsplice hk
  · exact h.mayRefer_terms hg hid hx hr hsome hsplice hk

/-- Nobody refers to a built node that can be spliced, also after nodes were written as chains. -/
theorem Valid.unread_reshaped (hg : g.Flattenable outputs seen) (h : Valid g seen done owner f)
    (hid : Ready g seen done id) {x : Arg α} (hx : OperandOf g id x) {family : Family}
    {host : NodeId} {terms : List (Sense × Arg α)}
    (hsome : f.spliceable? g family x = some (host, terms)) {f' : Flattening α}
    (hs : Reshapes f f') {b : NodeId} {m : Node α} (hm : f'.nodes.get b = some m) :
    host ∉ m.operation.references := by
  obtain ⟨a, n, hsplice⟩ := h.spliced hg hid hx hsome
  obtain ⟨n', hn', hrefs⟩ := hs.references hm
  rw [hrefs]
  exact h.unread hg hid hx hsplice hn'

/-- A node that splices an operand takes over its built node. -/
theorem Valid.splice (hg : g.Flattenable outputs seen) (h : Valid g seen done owner f)
    (hid : Ready g seen done id) {name : Option String} {family : Family} {sense : Sense}
    {l r x : Arg α} (hl : OperandOf g id l)
    (hr : OperandOf g id r) (hx : OperandOf g id x)
    {host : NodeId} {terms : List (Sense × Arg α)}
    (hsome : f.spliceable? g family x = some (host, terms)) {f' : Flattening α}
    (hs : Reshapes f f') :
    Valid g seen (done ++ [id]) (Function.update owner host id)
      (f'.assign id name host (.chain family
        (f.operandTerms g family l ++ sense.through (f.operandTerms g family r)))) := by
  obtain ⟨a, n, hsplice⟩ := h.spliced hg hid hx hsome
  refine (h.reshape hs).assign hg hid ?_ (by simp) ?_
    (fun b m => h.unread_reshaped hg hid hx hsome hs) ?_ ?_
  · rw [hs.same]
    exact h.range host n hsplice.node
  · intro own ts heq
    simp only [Operation.chain.injEq] at heq
    rw [← heq.2]
    exact List.append_ne_nil_of_left_ne_nil (h.operandTerms_ne_nil hg hid hl family) _
  · intro k hk
    obtain ⟨hne, hunder, hrest⟩ := h.mayRefer_combined hg hid hl hr hx hsome hk
    exact ⟨hne, hunder, hrest.imp_right fun hb => ⟨hs.built hb.1, hb.2⟩⟩
  · intro m _
    exact ⟨hsplice.slot, id, by simp, hid.plain, a, hx a hsplice.operand, hsplice.exclusive⟩

end Flattening

end Straightline
