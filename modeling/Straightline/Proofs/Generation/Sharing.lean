import Straightline.Generation.Flattening
import Straightline.Proofs.Generation.Order

/-!
# Operands with one reader

A copy without a slot is an alias: whoever refers to it means the operand behind it. An operand is
exclusive if every node on the way through its aliases is referred to once. Reference counts are
exact, so the way from a reader to an exclusive operand is the only way from any reader that is not
an alias itself.
-/

namespace Straightline

/-- One node lies under another: it is an operand, or it lies under an operand without a slot. -/
inductive Under (deps : NodeId → List NodeId) (slot : NodeId → Nat) : NodeId → NodeId → Prop where
  /-- The node is an operand. -/
  | direct {id k : NodeId} (hk : k ∈ deps id) : Under deps slot id k
  /-- The node lies under an operand without a slot. -/
  | through {id m k : NodeId} (hm : m ∈ deps id) (hslot : slot m = 0)
      (hunder : Under deps slot m k) : Under deps slot id k

namespace Under

variable {deps : NodeId → List NodeId} {slot : NodeId → Nat} {id m k : NodeId}

/-- What lies under a node without a slot lies under every node above it. -/
theorem trans (h : Under deps slot id m) (hslot : slot m = 0) (h' : Under deps slot m k) :
    Under deps slot id k := by
  induction h with
  | direct hm => exact .through hm hslot h'
  | through hn hzero _ ih => exact .through hn hzero (ih hslot h')

/-- A node with a slot that lies under another is read by it. -/
theorem reads (h : Under deps slot id k) (hslot : slot k ≠ 0) : Reads deps slot id k := by
  induction h with
  | direct hk => exact .direct hk hslot
  | through hm hzero _ ih => exact .through hm hzero (ih hslot)

/-- A node lies under another through what that one reads. -/
theorem trans_reads (h : Under deps slot id m) (hslot : slot m = 0) (h' : Reads deps slot m k) :
    Reads deps slot id k := by
  induction h with
  | direct hm => exact .through hm hslot h'
  | through hn hzero _ ih => exact .through hn hzero (ih hslot h')

theorem lt_of_ranked {rank : NodeId → Nat} (hrank : Ranked deps rank)
    (h : Under deps slot id k) : rank k < rank id := by
  induction h with
  | direct hk => exact hrank _ _ hk
  | through hm _ _ ih => exact Nat.lt_trans ih (hrank _ _ hm)

end Under

namespace References

variable {deps : NodeId → List NodeId} {roots seen : List NodeId} {refs : Table Nat}

/-- A node that is counted once has one reader, which refers to it once. -/
theorem Counted.reader_unique (h : Counted deps roots seen [] refs) {k : NodeId}
    (hk : refs.get k ≤ 1) {c d : NodeId} (hc : c ∈ seen) (hd : d ∈ seen) (hkc : k ∈ deps c)
    (hkd : k ∈ deps d) : c = d := by
  have hbalance := h.balance k
  rw [List.count_nil, Nat.add_zero, List.count_append] at hbalance
  obtain ⟨front, back, rfl⟩ := List.append_of_mem hc
  by_contra hne
  have hother : d ∈ front ∨ d ∈ back := by
    rcases List.mem_append.mp hd with hd | hd
    · exact .inl hd
    · exact .inr ((List.mem_cons.mp hd).resolve_left fun heq => hne heq.symm)
  have hpos := List.count_pos_iff.mpr hkc
  rw [List.flatMap_append, List.flatMap_cons, List.count_append, List.count_append] at hbalance
  rcases hother with hd | hd
  · have hposd := List.count_pos_iff.mpr (List.mem_flatMap.mpr ⟨d, hd, hkd⟩)
    omega
  · have hposd := List.count_pos_iff.mpr (List.mem_flatMap.mpr ⟨d, hd, hkd⟩)
    omega

/-- What a counted node refers to is counted. -/
theorem Counted.mem_of_deps (h : Counted deps roots seen [] refs) {c k : NodeId} (hc : c ∈ seen)
    (hk : k ∈ deps c) : k ∈ seen := by
  obtain ⟨root, hroot, hreach⟩ := h.mem_seen.mp hc
  exact h.mem_seen.mpr ⟨root, hroot, hreach.tail hk⟩

end References

namespace Graph

variable {α : Type}

/-- A copy without a slot that is looked through. -/
def IsAlias (g : Graph α) (id : NodeId) : Prop :=
  g.slot id = 0 ∧ ∃ x, g.operation? id = some (.copy x)

/-- An operand stands for the one behind it, if it is an alias. -/
def Alias (g : Graph α) (x y : Arg α) : Prop :=
  ∃ id, x = .node id ∧ g.slot id = 0 ∧ g.operation? id = some (.copy y)

/-- An operand stands for another through any number of aliases. -/
abbrev Resolves (g : Graph α) : Arg α → Arg α → Prop := Relation.ReflTransGen g.Alias

/-- An alias whose target is referred to once. -/
def Owns (g : Graph α) (x y : Arg α) : Prop :=
  g.Alias x y ∧ ∀ k, y = .node k → g.pass.refs.get k ≤ 1

/-- The way through aliases to a node, on which every node is referred to once. -/
def Exclusive (g : Graph α) (a t : NodeId) : Prop :=
  g.pass.refs.get a ≤ 1 ∧ Relation.ReflTransGen g.Owns (.node a) (.node t)

variable {g : Graph α} {roots seen : List NodeId}

theorem Exclusive.resolves {a t : NodeId} (h : g.Exclusive a t) :
    g.Resolves (.node a) (.node t) :=
  Relation.ReflTransGen.mono (fun _ _ hstep => hstep.1) _ _ h.2

/-- The target of an alias is its operand. -/
theorem Alias.mem_references {a b : NodeId} (h : g.Alias (.node a) (.node b)) :
    b ∈ g.references a := by
  obtain ⟨id, heq, _, hop⟩ := h
  obtain rfl : a = id := by simpa using heq
  exact mem_references_of_operand hop (by simp [Operation.operands])

theorem Alias.isAlias {a : NodeId} {y : Arg α} (h : g.Alias (.node a) y) : g.IsAlias a := by
  obtain ⟨id, heq, hslot, hop⟩ := h
  obtain rfl : a = id := by simpa using heq
  exact ⟨hslot, y, hop⟩

/-- Aliases lead from nodes. -/
theorem Alias.exists_node {x y : Arg α} (h : g.Alias x y) : ∃ a, x = .node a := by
  obtain ⟨id, heq, _⟩ := h
  exact ⟨id, heq⟩

/-- A node with a slot stands for itself. -/
theorem Resolves.eq_of_slot {k : NodeId} {x : Arg α} (h : g.Resolves (.node k) x)
    (hslot : g.slot k ≠ 0) : x = .node k := by
  rcases h.cases_head with heq | ⟨_, halias, _⟩
  · exact heq.symm
  · exact absurd halias.isAlias.1 hslot

/-- A node behind an operand lies under the node that has the operand. -/
theorem Resolves.under {c a t : NodeId} (h : g.Resolves (.node a) (.node t))
    (ha : a ∈ g.references c) : Under g.references g.slot c t := by
  generalize hy : Arg.node t = y at h
  induction h generalizing t with
  | refl =>
    obtain rfl : t = a := by simpa using hy
    exact .direct ha
  | tail _ hstep ih =>
    subst hy
    obtain ⟨m, rfl⟩ := hstep.exists_node
    exact (ih rfl).trans hstep.isAlias.1 (.direct hstep.mem_references)

/-- A node behind one of a list that has all its references is in the list. -/
theorem Resolves.mem_of_closed {done : List NodeId}
    (hclosed : ∀ c ∈ done, ∀ k ∈ g.references c, k ∈ done) {a t : NodeId}
    (h : g.Resolves (.node a) (.node t)) (ha : a ∈ done) : t ∈ done := by
  generalize hy : Arg.node t = y at h
  induction h generalizing t with
  | refl =>
    obtain rfl : t = a := by simpa using hy
    exact ha
  | tail _ hstep ih =>
    subst hy
    obtain ⟨m, rfl⟩ := hstep.exists_node
    exact hclosed m (ih rfl) t hstep.mem_references

/-- A node behind a counted one is counted. -/
theorem Resolves.mem_seen (hcounted : References.Counted g.references roots seen [] g.pass.refs)
    {a t : NodeId} (h : g.Resolves (.node a) (.node t)) (ha : a ∈ seen) : t ∈ seen :=
  h.mem_of_closed (fun _ hc _ hk => hcounted.mem_of_deps hc hk) ha

/-- An operand that stands for itself: a constant or a node that is not an alias. -/
def IsEnd (g : Graph α) (x : Arg α) : Prop := ∀ id, x = .node id → ¬ g.IsAlias id

theorem isEnd_node {id : NodeId} (h : ¬ g.IsAlias id) : g.IsEnd (.node id) := by
  intro k heq
  obtain rfl : id = k := by simpa using heq
  exact h

/-- Behind an operand there is one end. -/
theorem Resolves.end_unique {x y z : Arg α} (hy : g.Resolves x y) (hz : g.Resolves x z)
    (hyEnd : g.IsEnd y) (hzEnd : g.IsEnd z) : y = z := by
  have hunique : Relator.RightUnique g.Alias := by
    rintro u v w ⟨id, rfl, _, hv⟩ ⟨id', heq, _, hw⟩
    obtain rfl : id = id' := by simpa using heq
    rw [hv] at hw
    simpa using hw
  have hstop : ∀ {u v}, g.IsEnd u → g.Resolves u v → u = v := by
    intro u v hu huv
    rcases huv.cases_head with heq | ⟨w, hstep, _⟩
    · exact heq
    · obtain ⟨id, rfl⟩ := hstep.exists_node
      exact absurd hstep.isAlias (hu id rfl)
  rcases Relation.ReflTransGen.total_of_right_unique hunique hy hz with hyz | hzy
  · exact hstop hyEnd hyz
  · exact (hstop hzEnd hzy).symm

/-- An exclusive operand is reached from one reader, by one operand. -/
theorem Exclusive.unique (hcounted : References.Counted g.references roots seen [] g.pass.refs)
    {a b t c d : NodeId} (h : g.Exclusive a t) (h' : g.Resolves (.node b) (.node t))
    (hc : c ∈ seen) (hd : d ∈ seen) (hca : ¬ g.IsAlias c) (hda : ¬ g.IsAlias d)
    (ha : a ∈ g.references c) (hb : b ∈ g.references d) : c = d ∧ a = b := by
  obtain ⟨hrefs, hpath⟩ := h
  generalize hy : Arg.node t = y at hpath
  -- Both ways are compared from their common end, where the reader is the same at each step.
  induction hpath generalizing t with
  | refl =>
    obtain rfl : t = a := by simpa using hy
    rcases h'.cases_tail with heq | ⟨x, hx, hstep⟩
    · obtain rfl : t = b := by simpa using heq
      exact ⟨hcounted.reader_unique hrefs hc hd ha hb, rfl⟩
    · obtain ⟨m, rfl⟩ := hstep.exists_node
      have hm := Resolves.mem_seen hcounted hx (hcounted.mem_of_deps hd hb)
      obtain rfl := hcounted.reader_unique hrefs hc hm ha hstep.mem_references
      exact absurd hstep.isAlias hca
  | tail hprev hown ih =>
    subst hy
    obtain ⟨m, rfl⟩ := hown.1.exists_node
    have hm : m ∈ seen :=
      Resolves.mem_seen hcounted (Exclusive.resolves ⟨hrefs, hprev⟩) (hcounted.mem_of_deps hc ha)
    rcases h'.cases_tail with heq | ⟨x, hx, hstep⟩
    · obtain rfl : t = b := by simpa using heq
      obtain rfl := hcounted.reader_unique (hown.2 t rfl) hd hm hb hown.1.mem_references
      exact absurd hown.1.isAlias hda
    · obtain ⟨n, rfl⟩ := hstep.exists_node
      have hn := Resolves.mem_seen hcounted hx (hcounted.mem_of_deps hd hb)
      obtain rfl := hcounted.reader_unique (hown.2 t rfl) hm hn hown.1.mem_references
        hstep.mem_references
      exact ih hx rfl

/-- The test for exclusive operands finds the way to a node that is no copy and has no slot. -/
theorem exists_exclusive {f : Flattening α} (hclosed : g.Closed) (hbounded : g.Bounded)
    (hslots : ∀ id : Nat, id < g.next → f.slots.get id = g.slot id)
    (hrefs : ∀ id : Nat, id < g.next → f.refs.get id = g.pass.refs.get id) {depth : Nat} {x : Arg α}
    (hx : ∀ id, x = .node id → g.contains id = true) (h : f.isExclusive g depth x = true) :
    ∃ a t, x = .node a ∧ g.Exclusive a t ∧ g.slot t = 0 ∧ g.IsEnd (.node t) := by
  induction depth generalizing x with
  | zero => simp [Flattening.isExclusive] at h
  | succ depth ih =>
    cases x with
    | const v => simp [Flattening.isExclusive] at h
    | node a =>
      have hlive := hx a rfl
      have hlt := hbounded a hlive
      simp only [Flattening.isExclusive, hslots a hlt, hrefs a hlt] at h
      split at h
      · simp at h
      · next hfree =>
        obtain ⟨honce, hslot⟩ : g.pass.refs.get a ≤ 1 ∧ g.slot a = 0 := by simpa using hfree
        split at h
        · next y hop =>
          have hy : ∀ id, y = .node id → g.contains id = true := by
            rintro id rfl
            exact hclosed a id (mem_references_of_operand hop (by simp [Operation.operands]))
          obtain ⟨b, t, rfl, hexcl, hzero, hend⟩ := ih hy h
          refine ⟨a, t, rfl, ⟨honce, .head ⟨⟨a, rfl, hslot, hop⟩, ?_⟩ hexcl.2⟩, hzero, hend⟩
          intro k hk
          obtain rfl : b = k := by simpa using hk
          exact hexcl.1
        · next hcopy =>
          refine ⟨a, a, rfl, ⟨honce, .refl⟩, hslot, ?_⟩
          rintro id heq ⟨_, y, hop⟩
          obtain rfl : a = id := by simpa using heq
          exact hcopy y hop

end Graph

end Straightline
