import Straightline.Generation.Flattening
import Straightline.Proofs.Generation.Chains
import Straightline.Proofs.Generation.Congruence

/-!
# Flattening under other identifiers

Flattening issues identifiers behind those of the recorded nodes. In a graph where more
identifiers were issued before, the same steps build the same nodes under later identifiers. The
two runs are related by a renaming that leaves the recorded nodes as they are, and one step after
the other keeps the relation.
-/

namespace Straightline

/-- A renaming that leaves identifiers below a first one as they are and keeps the others in a
row. -/
structure IsShift (ρ : NodeId → NodeId) (first : Nat) : Prop where
  /-- Different identifiers stay different. -/
  inj : Function.Injective ρ
  /-- Identifiers below the first one stay. -/
  fixed : ∀ id < first, ρ id = id
  /-- The others stay in a row. -/
  succ : ∀ id, first ≤ id → ρ (id + 1) = ρ id + 1

/-- No identifier behind is left out. -/
theorem IsShift.exists_of_le {ρ : NodeId → NodeId} {first id : Nat} (h : IsShift ρ first)
    (hid : ρ first ≤ id) : ∃ k, first ≤ k ∧ ρ k = id := by
  induction hid with
  | refl => exact ⟨first, Nat.le_refl _, rfl⟩
  | step _ ih =>
    obtain ⟨k, hk, rfl⟩ := ih
    exact ⟨k + 1, Nat.le_succ_of_le hk, h.succ k hk⟩

/-- Identifiers from a first one on are moved by a distance. -/
def shift (first distance : Nat) (id : NodeId) : NodeId := if id < first then id else id + distance

theorem shift_of_lt {first id : Nat} (distance : Nat) (h : id < first) :
    shift first distance id = id := if_pos h

theorem shift_of_le {first id : Nat} (distance : Nat) (h : first ≤ id) :
    shift first distance id = id + distance := if_neg (Nat.not_lt_of_le h)

theorem isShift_shift (first distance : Nat) : IsShift (shift first distance) first where
  inj := by
    intro a b hab
    unfold shift at hab
    grind
  fixed _ h := shift_of_lt distance h
  succ id h := by
    rw [shift_of_le distance h, shift_of_le distance (Nat.le_succ_of_le h), Nat.add_right_comm]

section Rename

variable {α : Type}

/-- Rename the node of an operand. -/
def Arg.rename (ρ : NodeId → NodeId) : Arg α → Arg α
  | .node id => .node (ρ id)
  | .const v => .const v

/-- Rename the operands of a node. -/
def Node.rename (ρ : NodeId → NodeId) (n : Node α) : Node α :=
  { n with operation := n.operation.map (Arg.rename ρ) }

variable {ρ : NodeId → NodeId}

@[simp] theorem Arg.rename_node (id : NodeId) :
    (Arg.node id : Arg α).rename ρ = .node (ρ id) := rfl

@[simp] theorem Arg.rename_const (v : α) : (Arg.const v).rename ρ = .const v := rfl

@[simp] theorem Arg.node?_rename (x : Arg α) : (x.rename ρ).node? = x.node?.map ρ := by
  cases x <;> rfl

/-- Operands are renamed one by one. -/
theorem Operation.references_rename (op : Operation (Arg α)) :
    (op.map (Arg.rename ρ)).references = op.references.map ρ := by
  rw [references, references, operands_map, List.filterMap_map, List.map_filterMap]
  exact List.filterMap_congr fun x _ => Arg.node?_rename x

/-- Operations on nodes that keep their identifiers are not changed by a renaming. -/
theorem Operation.map_rename_of_fixed {op : Operation (Arg α)}
    (h : ∀ k ∈ op.references, ρ k = k) : op.map (Arg.rename ρ) = op := by
  have hid : op.map (fun x => x) = op := by cases op <;> simp [map]
  refine Eq.trans (map_congr fun x hx => ?_) hid
  cases x with
  | const v => rfl
  | node k => rw [Arg.rename_node, h k (mem_references.mpr hx)]

end Rename

/-- A graph within another that was scheduled alike, with a renaming of the identifiers behind its
nodes to those behind the nodes of the other. -/
structure Graph.Embeds {α : Type} (ρ : NodeId → NodeId) (g g' : Graph α) : Prop where
  /-- The recorded nodes keep their identifiers. -/
  shift : IsShift ρ g.next
  /-- The next identifier is renamed. -/
  next : g'.next = ρ g.next
  /-- Identifiers are only issued. -/
  next_le : g.next ≤ g'.next
  /-- The live nodes are live in the other graph. -/
  within : g.Within g'
  /-- The graph is well formed. -/
  wellFormed : g.WellFormed
  /-- The roster is the same. -/
  roster : g'.roster = g.roster
  /-- The results of the pass are the same. -/
  pass : g'.pass = g.pass
  /-- No last uses are known yet. -/
  lastUses : g.pass.lastUses = ∅

namespace Flattening

variable {α : Type} {ρ : NodeId → NodeId} {first : Nat} {g g' : Graph α} {f f' : Flattening α}
  {id : NodeId}

/-- Two states of flattening agree up to a renaming of the built nodes. -/
structure Renames (ρ : NodeId → NodeId) (first : Nat) (f f' : Flattening α) : Prop where
  /-- Identifiers are issued behind the first one. -/
  next_le : first ≤ f.next
  /-- The next identifier is renamed. -/
  next : f'.next = ρ f.next
  /-- As many nodes were built. -/
  count : f'.count = f.count
  /-- The built nodes are renamed. -/
  nodes : ∀ id, f'.nodes.get (ρ id) = (f.nodes.get id).map (Node.rename ρ)
  /-- The operands that stand for recorded nodes are renamed. -/
  images : ∀ id, f'.images.get id = (f.images.get id).map (Arg.rename ρ)
  /-- Slots are the same. -/
  slots : ∀ id : Nat, id < f.next → f'.slots.get (ρ id) = f.slots.get id
  /-- Ranks are the same. -/
  ranks : ∀ id : Nat, id < f.next → f'.ranks.get (ρ id) = f.ranks.get id
  /-- Reference counts are the same. -/
  refs : ∀ id : Nat, id < f.next → f'.refs.get (ρ id) = f.refs.get id

/-- Writing at a renamed place. -/
theorem get_set_rename {β γ : Type} [Inhabited β] [Inhabited γ] (hinj : Function.Injective ρ)
    {t : Table β} {t' : Table γ} {h : β → γ} {host k : NodeId} {b : β}
    (hk : t'.get (ρ k) = h (t.get k)) :
    (t'.set (ρ host) (h b)).get (ρ k) = h ((t.set host b).get k) := by
  rw [Table.get_set, Table.get_set]
  by_cases heq : k = host
  · rw [if_pos heq, if_pos (congrArg ρ heq)]
  · rw [if_neg heq, if_neg fun h => heq (hinj h), hk]

/-- Writing the value of a recorded node at a renamed place. -/
theorem get_copy_rename (hρ : IsShift ρ first) {t t' : Table Nat} {next : Nat}
    (hfirst : first ≤ next) (ht : ∀ k : Nat, k < next → t'.get (ρ k) = t.get k)
    (hid : id < first) (host : NodeId) {k : Nat} (hk : k < next ∨ k = host) :
    (t'.set (ρ host) (t'.get id)).get (ρ k) = (t.set host (t.get id)).get k := by
  have hvalue : t'.get id = t.get id := by
    have hsame := ht id (Nat.lt_of_lt_of_le hid hfirst)
    rwa [hρ.fixed id hid] at hsame
  rw [Table.get_set, Table.get_set, hvalue]
  by_cases heq : k = host
  · rw [if_pos heq, if_pos (congrArg ρ heq)]
  · rw [if_neg heq, if_neg fun h => heq (hρ.inj h), ht k (hk.resolve_right heq)]

namespace Renames

theorem image (h : Renames ρ first f f') (hρ : IsShift ρ first) {x : Arg α}
    (hx : ∀ k : Nat, x = .node k → k < first) : f'.image x = (f.image x).rename ρ := by
  cases x with
  | const v => rfl
  | node k =>
    simp only [Flattening.image, h.images]
    cases f.images.get k with
    | none => simp [hρ.fixed k (hx k rfl)]
    | some y => rfl

theorem remember (h : Renames ρ first f f') (id : NodeId) (y : Arg α) :
    Renames ρ first (f.remember id y) (f'.remember id (y.rename ρ)) :=
  { h with
    images := by
      intro k
      simp only [Flattening.remember, Table.get_set]
      split
      · rfl
      · exact h.images k }

/-- A built node is renamed with its operation, also if its identifier is issued with it. -/
theorem assign_issued (h : Renames ρ first f f') (hρ : IsShift ρ first) (hid : id < first)
    (name : Option String) (host : NodeId) (op : Operation (Arg α)) {count count' next next' : Nat}
    (hcount : count' = count) (hnext : next' = ρ next) (hfirst : first ≤ next)
    (hissued : ∀ k : Nat, k < next → k < f.next ∨ k = host) :
    Renames ρ first ({ f with count := count, next := next }.assign id name host op)
      ({ f' with count := count', next := next' }.assign id name (ρ host)
        (op.map (Arg.rename ρ))) where
  next_le := hfirst
  next := hnext
  count := hcount
  nodes k := get_set_rename (h := Option.map (Node.rename ρ))
    (b := some { operation := op, name := name }) hρ.inj (h.nodes k)
  images k := by
    simp only [Flattening.assign, Table.get_set]
    split
    · rfl
    · exact h.images k
  slots k hk := get_copy_rename hρ h.next_le h.slots hid host (hissued k hk)
  ranks k hk := get_copy_rename hρ h.next_le h.ranks hid host (hissued k hk)
  refs k hk := get_copy_rename hρ h.next_le h.refs hid host (hissued k hk)

theorem assign (h : Renames ρ first f f') (hρ : IsShift ρ first) (hid : id < first)
    (name : Option String) (host : NodeId) (op : Operation (Arg α)) :
    Renames ρ first (f.assign id name host op)
      (f'.assign id name (ρ host) (op.map (Arg.rename ρ))) :=
  h.assign_issued hρ hid name host op h.count h.next h.next_le fun _ => .inl

/-- A new built node is renamed. -/
theorem derive (h : Renames ρ first f f') (hρ : IsShift ρ first) (hid : id < first)
    (name : Option String) (op : Operation (Arg α)) :
    Renames ρ first (f.derive id name op) (f'.derive id name (op.map (Arg.rename ρ))) := by
  have hnext : f'.next + 1 = ρ (f.next + 1) := by rw [h.next, hρ.succ f.next h.next_le]
  have hassign := h.assign_issued hρ hid name f.next op (congrArg (· + 1) h.count) hnext
    (Nat.le_succ_of_le h.next_le) fun k hk => Nat.lt_or_eq_of_le (Nat.le_of_lt_succ hk)
  rwa [← h.next] at hassign

theorem makeChain (h : Renames ρ first f f') (hρ : IsShift ρ first) (host : NodeId)
    (family : Family) (terms : List (Sense × Arg α)) :
    Renames ρ first (f.makeChain host family terms)
      (f'.makeChain (ρ host) family (terms.map fun t => (t.1, t.2.rename ρ))) :=
  { h with
    nodes := by
      intro k
      simp only [Flattening.makeChain, Table.get_modify]
      by_cases heq : k = host
      · rw [if_pos heq, if_pos (congrArg ρ heq), h.nodes, Option.map_map, Option.map_map]
        rfl
      · rw [if_neg heq, if_neg fun hk => heq (hρ.inj hk), h.nodes] }

/-- Whether an operand has one reader is decided alike, whatever the depth. -/
theorem isExclusive (h : Renames ρ g.next f f') (hg : g.Embeds ρ g') {rank : NodeId → Nat}
    (hrank : Ranked g.references rank) {depth depth' : Nat} {x : Arg α}
    (hx : ∀ k, x = .node k → g.contains k = true ∧ rank k < depth ∧ rank k < depth') :
    f'.isExclusive g' depth' x = f.isExclusive g depth x := by
  induction depth generalizing depth' x with
  | zero =>
    cases x with
    | const v => cases depth' <;> rfl
    | node k =>
      have hlt := (hx k rfl).2.1
      omega
  | succ depth ih =>
    cases x with
    | const v => cases depth' <;> rfl
    | node k =>
      obtain ⟨hlive, hdepth, hdepth'⟩ := hx k rfl
      cases depth' with
      | zero => omega
      | succ depth' =>
        have hlt := hg.wellFormed.issued k hlive
        have hnext := Nat.lt_of_lt_of_le hlt h.next_le
        have hrefs := h.refs k hnext
        have hslots := h.slots k hnext
        rw [hg.shift.fixed k hlt] at hrefs hslots
        simp only [Flattening.isExclusive, hrefs, hslots, hg.within.operation? hlive]
        split
        · rfl
        · split
          · next y hop =>
            -- What a copy refers to has a smaller rank, so both depths still suffice for it.
            refine ih fun m hm => ?_
            have hmem : m ∈ g.references k :=
              Graph.mem_references_of_operand hop (by simp [Operation.operands, hm])
            have hdrop := hrank k m hmem
            exact ⟨hg.wellFormed.closed_all k m hmem, by omega, by omega⟩
          · rfl

/-- Operands are spliced alike. -/
theorem spliceable? (h : Renames ρ g.next f f') (hg : g.Embeds ρ g') (family : Family) {x : Arg α}
    (hx : ∀ k, x = .node k → g.contains k = true) :
    f'.spliceable? g' family x = (f.spliceable? g family x).map fun found =>
      (ρ found.1, found.2.map fun t => (t.1, t.2.rename ρ)) := by
  obtain ⟨rank, hrank, hbound⟩ := hg.wellFormed.exists_ranked
  have hexclusive : f'.isExclusive g' (g'.next + 1) x = f.isExclusive g (g.next + 1) x := by
    refine h.isExclusive hg hrank fun k hk => ⟨hx k hk, ?_, ?_⟩
    · exact Nat.lt_succ_of_le (hbound k)
    · exact Nat.lt_succ_of_le (Nat.le_trans (hbound k) hg.next_le)
  have himage := h.image hg.shift fun k hk => hg.wellFormed.issued k (hx k hk)
  simp only [Flattening.spliceable?, Option.bind_eq_bind, himage, Arg.node?_rename, hexclusive]
  cases (f.image x).node? with
  | none => rfl
  | some host =>
    simp only [Option.map_some, Option.bind_some, h.nodes]
    cases f.nodes.get host with
    | none => rfl
    | some n =>
      simp only [Option.map_some, Option.bind_some, Node.rename, Operation.terms?_map]
      cases n.operation.terms? family with
      | none => rfl
      | some terms =>
        simp only [Option.map_some, Option.bind_some]
        split <;> rfl

/-- Arithmetic nodes are combined alike. -/
theorem combine (h : Renames ρ g.next f f') (hg : g.Embeds ρ g') (hid : id < g.next)
    (name : Option String) (tag : Tag) {l r : Arg α}
    (hl : ∀ k, l = .node k → g.contains k = true) (hr : ∀ k, r = .node k → g.contains k = true) :
    Renames ρ g.next (f.combine g id name tag l r) (f'.combine g' id name tag l r) := by
  have himageL := h.image hg.shift fun k hk => hg.wellFormed.issued k (hl k hk)
  have himageR := h.image hg.shift fun k hk => hg.wellFormed.issued k (hr k hk)
  simp only [Flattening.combine, h.spliceable? hg tag.family hl, h.spliceable? hg tag.family hr,
    himageL, himageR]
  cases f.spliceable? g tag.family l with
  | none =>
    cases f.spliceable? g tag.family r with
    | none => exact h.derive hg.shift hid name (.binary (.arith tag) (f.image l) (f.image r))
    | some found =>
      have hassign := h.assign hg.shift hid name found.1
        (.chain tag.family ((.direct, f.image l) :: tag.sense.through found.2))
      simpa [Operation.map, Sense.map_through] using hassign
  | some found =>
    cases f.spliceable? g tag.family r with
    | none =>
      have hassign := h.assign hg.shift hid name found.1
        (.chain tag.family (found.2 ++ [(tag.sense, f.image r)]))
      simpa [Operation.map] using hassign
    | some other =>
      have hassign := (h.makeChain hg.shift other.1 tag.family other.2).assign hg.shift hid name
        found.1 (.chain tag.family (found.2 ++ tag.sense.through other.2))
      simpa [Operation.map, Sense.map_through] using hassign

/-- Recorded nodes are built alike. -/
theorem build (h : Renames ρ g.next f f') (hg : g.Embeds ρ g') (hid : g.contains id = true) :
    Renames ρ g.next (f.build g id) (f'.build g' id) := by
  obtain ⟨node, hnode⟩ := Option.isSome_iff_exists.mp hid
  have hlt := hg.wellFormed.issued id hid
  have hoperand : ∀ x ∈ node.operation.operands, ∀ k, x = .node k → g.contains k = true := by
    rintro x hx k rfl
    refine hg.wellFormed.closed_all id k (Graph.mem_references_of_operand ?_ hx)
    rw [Graph.operation?, hnode, Option.map_some]
  have hderive : Renames ρ g.next (f.derive id node.name (node.operation.map f.image))
      (f'.derive id node.name (node.operation.map f'.image)) := by
    have hmap : node.operation.map f'.image =
        (node.operation.map f.image).map (Arg.rename ρ) := by
      rw [Operation.map_map]
      exact Operation.map_congr fun x hx =>
        h.image hg.shift fun k hk => hg.wellFormed.issued k (hoperand x hx k hk)
    rw [hmap]
    exact h.derive hg.shift hlt node.name _
  have hslot : f'.slots.get id = f.slots.get id := by
    have hsame := h.slots id (Nat.lt_of_lt_of_le hlt h.next_le)
    rwa [hg.shift.fixed id hlt] at hsame
  simp only [Flattening.build, hnode, hg.within id node hnode]
  cases hop : node.operation with
  | independent =>
    have hremember := h.remember id (.node id)
    rwa [Arg.rename_node, hg.shift.fixed id hlt] at hremember
  | copy x =>
    rw [hop] at hoperand hderive
    have himage := h.image hg.shift fun k hk =>
      hg.wellFormed.issued k (hoperand x (by simp [Operation.operands]) k hk)
    simp only [hslot]
    split
    · rw [himage]
      exact h.remember id (f.image x)
    · exact hderive
  | binary op l r =>
    rw [hop] at hoperand hderive
    cases op with
    | arith tag =>
      exact h.combine hg hlt node.name tag (hoperand l (by simp [Operation.operands]))
        (hoperand r (by simp [Operation.operands]))
    | pow => exact hderive
  | unary op x =>
    rw [hop] at hderive
    exact hderive
  | select c l r t e =>
    rw [hop] at hderive
    exact hderive
  | chain family terms =>
    rw [hop] at hderive
    exact hderive

/-- The whole run is renamed. -/
theorem run (h : Renames ρ g.next f f') (hg : g.Embeds ρ g') {nodes : List NodeId}
    (hnodes : ∀ id ∈ nodes, g.contains id = true) :
    Renames ρ g.next (nodes.foldl (Flattening.build g) f)
      (nodes.foldl (Flattening.build g') f') := by
  induction nodes generalizing f f' with
  | nil => exact h
  | cons id nodes ih =>
    exact ih (h.build hg (hnodes id List.mem_cons_self))
      fun k hk => hnodes k (List.mem_cons_of_mem _ hk)

end Renames

end Flattening

end Straightline
