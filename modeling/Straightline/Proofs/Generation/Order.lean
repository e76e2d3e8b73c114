import Straightline.Proofs.Generation.Issue
import Straightline.Proofs.Generation.Visit

/-!
# The evaluation order

A stored node reads the nodes with a slot among its operands, and through operands without a slot
what those read. Scheduling keeps an invariant: when a node is used for the first time, everything
below it was used before, and whether it is stored is settled for good. So a node that joins the
queue finds in it all stored nodes that it reads, and what it reads does not change any more.
-/

namespace Straightline

/-- One node reads another that has a slot, directly or through nodes without one. -/
inductive Reads (deps : NodeId → List NodeId) (slot : NodeId → Nat) : NodeId → NodeId → Prop where
  /-- The node is an operand. -/
  | direct {id k : NodeId} (hk : k ∈ deps id) (hslot : slot k ≠ 0) : Reads deps slot id k
  /-- An operand without a slot reads the node. -/
  | through {id m k : NodeId} (hm : m ∈ deps id) (hslot : slot m = 0)
      (hread : Reads deps slot m k) : Reads deps slot id k

namespace Reads

variable {deps : NodeId → List NodeId} {slot slot' : NodeId → Nat} {id k : NodeId}

/-- What is read has a slot. -/
theorem slot_ne_zero (h : Reads deps slot id k) : slot k ≠ 0 := by
  induction h with
  | direct _ hslot => exact hslot
  | through _ _ _ ih => exact ih

/-- What is read is reached through an operand. -/
theorem exists_reaches (h : Reads deps slot id k) : ∃ m ∈ deps id, Reaches deps m k := by
  induction h with
  | direct hk _ => exact ⟨_, hk, .refl⟩
  | through hm _ _ ih =>
    obtain ⟨n, hn, hreach⟩ := ih
    exact ⟨_, hm, .head hn hreach⟩

/-- Reading depends on the slots of what is reached below the node alone. -/
theorem congr (h : Reads deps slot id k)
    (hsame : ∀ m ∈ deps id, ∀ j, Reaches deps m j → (slot' j = 0 ↔ slot j = 0)) :
    Reads deps slot' id k := by
  induction h with
  | direct hk hslot => exact .direct hk fun hzero => hslot ((hsame _ hk _ .refl).mp hzero)
  | through hm hslot _ ih =>
    refine .through hm ((hsame _ hm _ .refl).mpr hslot) (ih fun n hn j hj => ?_)
    exact hsame _ hm j (.head hn hj)

/-- Reading depends on what is live alone, if the operands of live nodes are live. -/
theorem of_live {deps' : NodeId → List NodeId} {live : NodeId → Prop}
    (h : Reads deps' slot' id k) (hid : live id) (hdeps : ∀ a, live a → deps' a = deps a)
    (hclosed : ∀ a, live a → ∀ b ∈ deps a, live b)
    (hslot : ∀ a, live a → (slot' a = 0 ↔ slot a = 0)) : Reads deps slot id k := by
  induction h with
  | @direct id k hk hne =>
    rw [hdeps id hid] at hk
    exact .direct hk fun hzero => hne ((hslot k (hclosed id hid k hk)).mpr hzero)
  | @through id m k hm hzero _ ih =>
    rw [hdeps id hid] at hm
    have hlive := hclosed id hid m hm
    exact .through hm ((hslot m hlive).mp hzero) (ih hlive)

end Reads

@[simp] theorem Operation.opcode_eq_independent {β : Type} {op : Operation β} :
    op.opcode = .independent ↔ op = .independent := by
  cases op <;> simp [Operation.opcode]

namespace Schedule

variable {α : Type} {g : Graph α} {policy : Policy α} {refs : Table Nat} {reserved : List NodeId}
  {s s' : Schedule} {id : NodeId}

/-- The stored nodes that a stored node reads, the independent variables apart. -/
def Needs (g : Graph α) (slots : Table Nat) (id k : NodeId) : Prop :=
  Reads g.references slots.get id k ∧ g.operation? k ≠ some .independent

/-- What scheduling maintains. -/
structure Valid (g : Graph α) (reserved : List NodeId) (s : Schedule) : Prop where
  /-- Slots beyond the reserved ones belong to queued nodes. -/
  issued : ∃ temporaries, Issued s.slots s.lastId (reserved ++ temporaries) ∧
    ∀ id ∈ temporaries, id ∈ s.queue.toList
  /-- No node is queued twice. -/
  nodup : s.queue.toList.Nodup
  /-- The rank of a queued node is its place. -/
  rank : ∀ i id, s.queue.toList[i]? = some id → s.ranks.get id = i + 1
  /-- Other nodes have no rank. -/
  unranked : ∀ id, id ∉ s.queue.toList → s.ranks.get id = 0
  /-- A queued node has a slot. -/
  stored : ∀ id ∈ s.queue.toList, s.slots.get id ≠ 0
  /-- A queued node is not an independent variable. -/
  operation : ∀ id ∈ s.queue.toList, ∃ op, g.operation? id = some op ∧ op ≠ .independent
  /-- A queued node was used. -/
  used : ∀ id ∈ s.queue.toList, s.uses.get id ≠ 0
  /-- What is below a used node was used. -/
  below : ∀ id, s.uses.get id ≠ 0 → ∀ k ∈ g.references id, s.uses.get k ≠ 0
  /-- A used node with a slot is queued. -/
  decided : ∀ id, s.uses.get id ≠ 0 → s.slots.get id ≠ 0 → g.operation? id ≠ some .independent →
    id ∈ s.queue.toList
  /-- A queued node stands after the stored nodes that it reads. -/
  order : Sorted (Needs g s.slots) s.queue.toList

/-- Everything that a used node reaches was used. -/
theorem Valid.used_of_reaches (h : Valid g reserved s) {k : NodeId} (hid : s.uses.get id ≠ 0)
    (hreach : Reaches g.references id k) : s.uses.get k ≠ 0 := by
  induction hreach with
  | refl => exact hid
  | tail _ hstep ih => exact h.below _ ih _ hstep

/-- Before anything is scheduled, the reserved slots are issued and nothing is queued. -/
theorem valid_start {slots : Table Nat} {lastId : Nat} (h : Issued slots lastId reserved) :
    Valid g reserved { slots := slots, lastId := lastId } where
  issued := ⟨[], by simpa using h, by simp⟩
  nodup := List.nodup_nil
  rank i id hi := by simp at hi
  unranked id _ := by simp
  stored id hid := by simp at hid
  operation id hid := by simp at hid
  used id hid := by simp at hid
  below id hid := by simp at hid
  decided id hid := by simp at hid
  order := sorted_nil _

/-- A use adds its node to the used ones. -/
theorem used_use {k : NodeId} : (s.use id).uses.get k ≠ 0 ↔ k = id ∨ s.uses.get k ≠ 0 := by
  rw [uses_use, Table.get_set]
  by_cases heq : k = id <;> simp [heq]

/-- Using a node below which everything was used leaves nothing unused below a used node. -/
theorem Valid.below_use (h : Valid g reserved s)
    (hbelow : ∀ k ∈ g.references id, s.uses.get k ≠ 0) {k : NodeId}
    (hk : (s.use id).uses.get k ≠ 0) {m : NodeId} (hm : m ∈ g.references k) :
    (s.use id).uses.get m ≠ 0 := by
  refine used_use.mpr (.inr ?_)
  rcases used_use.mp hk with rfl | hk
  · exact hbelow m hm
  · exact h.below k hk m hm

/-- A use keeps the invariant if it settles nothing or settles a node that is not stored. -/
theorem Valid.use (h : Valid g reserved s)
    (hbelow : ∀ k ∈ g.references id, s.uses.get k ≠ 0)
    (hdecided : s.slots.get id ≠ 0 → g.operation? id ≠ some .independent → id ∈ s.queue.toList) :
    Valid g reserved (s.use id) where
  issued := h.issued
  nodup := h.nodup
  rank := h.rank
  unranked := h.unranked
  stored := h.stored
  operation := h.operation
  used k hk := used_use.mpr (.inr (h.used k hk))
  below _ hk _ hm := h.below_use hbelow hk hm
  decided k hk hslot hop := by
    rcases used_use.mp hk with rfl | hk
    · exact hdecided hslot hop
    · exact h.decided k hk hslot hop
  order := h.order

@[simp] theorem queue_enqueue (s : Schedule) (id : NodeId) :
    (s.enqueue id).queue = s.queue.push id := by
  simp only [enqueue]
  split <;> rfl

@[simp] theorem ranks_enqueue (s : Schedule) (id : NodeId) :
    (s.enqueue id).ranks = s.ranks.set id (s.queue.size + 1) := by
  simp only [enqueue]
  split <;> rfl

/-- Queueing a node changes no slot but its own. -/
theorem slots_enqueue_of_ne (s : Schedule) {id k : NodeId} (hk : k ≠ id) :
    (s.enqueue id).slots.get k = s.slots.get k := by
  simp only [enqueue]
  split
  · exact Table.get_set_of_ne _ _ hk
  · rfl

/-- A queued node has a slot. -/
theorem slots_enqueue_self (s : Schedule) (id : NodeId) : (s.enqueue id).slots.get id ≠ 0 := by
  simp only [enqueue]
  split
  · simp
  · next hslot => exact hslot

/-- Queueing a node issues at most a slot for it. -/
theorem issued_enqueue {s : Schedule} {ids : List NodeId} (h : Issued s.slots s.lastId ids)
    (id : NodeId) :
    ∃ extra, Issued (s.enqueue id).slots (s.enqueue id).lastId (ids ++ extra) ∧
      ∀ k ∈ extra, k = id := by
  by_cases hslot : s.slots.get id = 0
  · refine ⟨[id], ?_, fun k hk => List.mem_singleton.mp hk⟩
    simpa only [enqueue, hslot, if_true] using h.concat hslot
  · refine ⟨[], ?_, fun k hk => by simp at hk⟩
    simpa only [enqueue, hslot, if_false, List.append_nil] using h

/-- Storing a node at its first use keeps the invariant. -/
theorem Valid.store (h : Valid g reserved s) (hfirst : s.uses.get id = 0)
    (hbelow : ∀ k ∈ g.references id, s.uses.get k ≠ 0)
    (hop : ∃ op, g.operation? id = some op ∧ op ≠ .independent) :
    Valid g reserved ((s.use id).enqueue id) := by
  have hnew : id ∉ s.queue.toList := fun hmem => h.used id hmem hfirst
  -- The node itself is not below anything that was used before.
  have hapart : ∀ k, s.uses.get k ≠ 0 → ∀ j, Reaches g.references k j → j ≠ id := by
    rintro k hk j hj rfl
    exact h.used_of_reaches hk hj hfirst
  have hslots : ∀ j, j ≠ id → ((s.use id).enqueue id).slots.get j = s.slots.get j :=
    fun j hj => slots_enqueue_of_ne (s.use id) hj
  have hsame : ∀ k, (∀ m ∈ g.references k, s.uses.get m ≠ 0) → ∀ j,
      Reads g.references ((s.use id).enqueue id).slots.get k j →
      Reads g.references s.slots.get k j ∧ j ≠ id := by
    intro k hk j hread
    obtain ⟨m, hm, hreach⟩ := hread.exists_reaches
    refine ⟨hread.congr fun n hn i hi => ?_, hapart m (hk m hm) j hreach⟩
    rw [hslots i (hapart n (hk n hn) i hi)]
  have hqueue : ((s.use id).enqueue id).queue.toList = s.queue.toList ++ [id] := by
    rw [queue_enqueue, Array.toList_push]
    rfl
  have hmem : ∀ k, k ∈ ((s.use id).enqueue id).queue.toList ↔ k ∈ s.queue.toList ∨ k = id := by
    intro k
    rw [hqueue, List.mem_append, List.mem_singleton]
  exact {
    issued := by
      obtain ⟨temporaries, hissued, hqueued⟩ := h.issued
      have hused : Issued (s.use id).slots (s.use id).lastId (reserved ++ temporaries) := hissued
      obtain ⟨extra, hissued', hextra⟩ := issued_enqueue hused id
      refine ⟨temporaries ++ extra, by rwa [← List.append_assoc], ?_⟩
      intro k hk
      rw [hmem]
      exact (List.mem_append.mp hk).imp (hqueued k) (hextra k)
    nodup := by
      rw [hqueue]
      exact List.nodup_append'.mpr ⟨h.nodup, List.nodup_singleton _, by simpa using hnew⟩
    rank := by
      intro i k hk
      rw [hqueue] at hk
      rw [ranks_enqueue, Table.get_set]
      rcases Nat.lt_or_ge i s.queue.toList.length with hlt | hge
      · rw [List.getElem?_append_left hlt] at hk
        have hne : k ≠ id := by
          rintro rfl
          exact hnew (List.mem_of_getElem? hk)
        rw [if_neg hne]
        exact h.rank i k hk
      · obtain ⟨hlen, _⟩ := List.getElem?_eq_some_iff.mp hk
        rw [List.length_append, List.length_singleton] at hlen
        obtain rfl : i = s.queue.toList.length := by omega
        obtain rfl : id = k := by simpa using hk
        rw [if_pos rfl]
        rfl
    unranked := by
      intro k hk
      rw [hmem, not_or] at hk
      rw [ranks_enqueue, Table.get_set, if_neg hk.2]
      exact h.unranked k hk.1
    stored := by
      intro k hk
      by_cases heq : k = id
      · rw [heq]
        exact slots_enqueue_self _ _
      · rw [hslots k heq]
        exact h.stored k (((hmem k).mp hk).resolve_right heq)
    operation := by
      intro k hk
      rcases (hmem k).mp hk with hk | rfl
      · exact h.operation k hk
      · exact hop
    used := by
      intro k hk
      rw [uses_enqueue]
      exact used_use.mpr (((hmem k).mp hk).symm.imp_right (h.used k))
    below := by
      intro k hk m hm
      rw [uses_enqueue] at hk ⊢
      exact h.below_use hbelow hk hm
    decided := by
      intro k hk hslot hopk
      rw [hmem]
      by_cases heq : k = id
      · exact .inr heq
      · rw [uses_enqueue] at hk
        rw [hslots k heq] at hslot
        exact .inl (h.decided k ((used_use.mp hk).resolve_left heq) hslot hopk)
    order := by
      rw [hqueue]
      refine Sorted.concat (h.order.mono ?_) ?_
      · intro k hk j hneeds
        exact ⟨(hsame k (h.below k (h.used k hk)) j hneeds.1).1, hneeds.2⟩
      · intro j hneeds
        obtain ⟨hread, hne⟩ := hsame id hbelow j hneeds.1
        obtain ⟨m, hm, hreach⟩ := hread.exists_reaches
        exact h.decided j (h.used_of_reaches (hbelow m hm) hreach) hread.slot_ne_zero hneeds.2 }

/-- What scheduling some nodes gives: the invariant, with these nodes used. -/
structure Settles (g : Graph α) (reserved : List NodeId) (ids : List NodeId) (s s' : Schedule) :
    Prop where
  /-- The invariant holds. -/
  valid : Valid g reserved s'
  /-- What was used stays used. -/
  kept : ∀ k, s.uses.get k ≠ 0 → s'.uses.get k ≠ 0
  /-- The nodes are used. -/
  used : ∀ id ∈ ids, s'.uses.get id ≠ 0
  /-- Nothing is used that they do not reach. -/
  only : ∀ k, s'.uses.get k ≠ 0 → s.uses.get k ≠ 0 ∨ ∃ id ∈ ids, Reaches g.references id k

theorem Settles.refl (h : Valid g reserved s) {ids : List NodeId}
    (hids : ∀ id ∈ ids, s.uses.get id ≠ 0) : Settles g reserved ids s s :=
  ⟨h, fun _ hk => hk, hids, fun _ hk => .inl hk⟩

theorem Settles.trans {ids ids' : List NodeId} {s'' : Schedule}
    (h : Settles g reserved ids s s') (h' : Settles g reserved ids' s' s'') :
    Settles g reserved (ids ++ ids') s s'' where
  valid := h'.valid
  kept k hk := h'.kept k (h.kept k hk)
  used k hk := by
    rcases List.mem_append.mp hk with hk | hk
    · exact h'.kept k (h.used k hk)
    · exact h'.used k hk
  only k hk := by
    rcases h'.only k hk with hold | ⟨id, hid, hreach⟩
    · exact (h.only k hold).imp_right fun ⟨id, hid, hreach⟩ =>
        ⟨id, List.mem_append_left _ hid, hreach⟩
    · exact .inr ⟨id, List.mem_append_right _ hid, hreach⟩

/-- What is used below a node is used through it. -/
theorem Settles.below {s'' : Schedule} {ids : List NodeId}
    (h : Settles g reserved (g.references id) s s') (hid : id ∈ ids)
    (h' : Settles g reserved ids s' s'') : Settles g reserved ids s s'' where
  valid := h'.valid
  kept k hk := h'.kept k (h.kept k hk)
  used := h'.used
  only k hk := by
    rcases h'.only k hk with hold | hreach
    · exact (h.only k hold).imp_right fun ⟨m, hm, hreach⟩ => ⟨id, hid, .head hm hreach⟩
    · exact .inr hreach

/-- A use settles its node, whatever else is decided. -/
theorem Settles.of_use (h : Valid g reserved s') (huses : s'.uses = (s.use id).uses) :
    Settles g reserved [id] s s' where
  valid := h
  kept k hk := by
    rw [huses]
    exact used_use.mpr (.inr hk)
  used k hk := by
    rw [huses]
    exact used_use.mpr (.inl (List.mem_singleton.mp hk))
  only k hk := by
    rw [huses] at hk
    rcases used_use.mp hk with rfl | hk
    · exact .inr ⟨k, List.mem_singleton_self k, .refl⟩
    · exact .inl hk

/-- A node is visited at its first use alone, later everything below it is used already. -/
theorem Valid.settles_first (h : Valid g reserved s)
    (hvisit : Settles g reserved (g.references id) s s') :
    Settles g reserved (g.references id) s (if s.uses.get id = 0 then s' else s) := by
  by_cases hfirst : s.uses.get id = 0
  · rwa [if_pos hfirst]
  · rw [if_neg hfirst]
    exact .refl h (h.below id hfirst)

/-- Counting a use of a node keeps the invariant once everything below the node was used. -/
theorem settles_count (policy : Policy α) (refs : Table Nat) (h : Valid g reserved s)
    {parent child : NodeId} (arg : Nat) (hparent : g.contains parent = true)
    (hchild : g.contains child = true) (hbelow : ∀ k ∈ g.references child, s.uses.get k ≠ 0) :
    Settles g reserved [child] s (s.count g policy refs parent arg child) := by
  refine .of_use ?_ (uses_count ..)
  unfold count
  by_cases hfirst : s.uses.get child = 0
  · rw [if_pos hfirst]
    obtain ⟨node, hnode⟩ := Option.isSome_iff_exists.mp hchild
    obtain ⟨parentOp, hparentOp⟩ := Graph.contains_iff.mp hparent
    have hop : g.operation? child = some node.operation := by simp [Graph.operation?, hnode]
    have hunranked : (s.use child).ranks.get child = 0 :=
      h.unranked child fun hmem => h.used child hmem hfirst
    simp only [decideStorage, hnode, hparentOp, hunranked, ne_eq, not_true_eq_false, or_false]
    split
    · next hind =>
      refine h.use hbelow fun _ hne => absurd ?_ hne
      rw [hop, Operation.opcode_eq_independent.mp hind]
    · next hind =>
      split
      · exact h.store hfirst hbelow ⟨_, hop, fun heq => hind (by rw [heq]; rfl)⟩
      · next hskip =>
        refine h.use hbelow fun hslot _ => absurd ?_ hskip
        have hslot' : (s.use child).slots.get child ≠ 0 := hslot
        simp [hslot']
  · rw [if_neg hfirst]
    exact h.use hbelow fun hslot hne => h.decided child hfirst hslot hne

/-- Going through operands uses them all. -/
theorem settles_visitOperands {parent : NodeId}
    (hparent : g.contains parent = true) {below : NodeId → Schedule → Schedule}
    {operands : List (Arg α)}
    (hlive : ∀ child, .node child ∈ operands → g.contains child = true)
    (hbelow : ∀ child, .node child ∈ operands → ∀ s, Valid g reserved s →
      Settles g reserved (g.references child) s (below child s))
    (h : Valid g reserved s) (arg : Nat) :
    Settles g reserved (operands.filterMap Arg.node?) s
      (visitOperands g policy refs below parent operands arg s) := by
  induction operands generalizing s arg with
  | nil => exact .refl h (by simp)
  | cons x rest ih =>
    have hrest := fun {s} (h : Valid g reserved s) arg => ih
      (fun child hchild => hlive child (List.mem_cons_of_mem _ hchild))
      (fun child hchild => hbelow child (List.mem_cons_of_mem _ hchild)) h arg
    cases x with
    | const v => exact hrest h (arg + 1)
    | node child =>
      have hdown := h.settles_first (hbelow child List.mem_cons_self s h)
      have hcount := settles_count policy refs hdown.valid arg hparent
        (hlive child List.mem_cons_self) hdown.used
      exact hdown.below List.mem_cons_self (hcount.trans (hrest hcount.valid (arg + 1)))

/-- A visit uses everything below the node. -/
theorem settles_visit {rank : NodeId → Nat} (hrank : Ranked g.references rank)
    (hclosed : g.Closed) {depth : Nat} (hdepth : rank id < depth) (hlive : g.contains id = true)
    (h : Valid g reserved s) :
    Settles g reserved (g.references id) s (visit g policy refs depth id s) := by
  induction depth generalizing id s with
  | zero => omega
  | succ depth ih =>
    have hrefs : g.references id = (g.operands id).filterMap Arg.node? := by
      obtain ⟨op, hop⟩ := Graph.contains_iff.mp hlive
      rw [Graph.references_of_operation hop]
      simp [Graph.operands, hop, Operation.references]
    have hchild : ∀ child, .node child ∈ g.operands id → child ∈ g.references id :=
      fun child hchild => mem_references_of_mem_operands hchild
    rw [hrefs]
    refine settles_visitOperands hlive
      (fun child hmem => hclosed id child (hchild child hmem)) ?_ h 0
    intro child hmem s hs
    have hlt := hrank id child (hchild child hmem)
    exact ih (by omega) (hclosed id child (hchild child hmem)) hs

/-- Scheduling an output uses it. An output has a slot from the start, so it is queued. -/
theorem settles_visitOutput (policy : Policy α) (refs : Table Nat) {rank : NodeId → Nat}
    (hrank : Ranked g.references rank) (hclosed : g.Closed) {depth : Nat}
    (hdepth : rank id < depth) (hlive : g.contains id = true) (h : Valid g reserved s)
    (hreserved : id ∈ reserved) :
    Settles g reserved [id] s (visitOutput g policy refs depth s id) := by
  have hdown : Settles g reserved (g.references id) s
      (if s.uses.get id = 0 then visit g policy refs depth id s else s) :=
    h.settles_first (settles_visit hrank hclosed hdepth hlive h)
  unfold visitOutput
  generalize (if s.uses.get id = 0 then visit g policy refs depth id s else s) = s' at hdown
  obtain ⟨op, hop⟩ := Graph.contains_iff.mp hlive
  have hslot : s'.slots.get id ≠ 0 := by
    obtain ⟨temporaries, hissued, _⟩ := hdown.valid.issued
    exact hissued.ne_zero_iff.mpr (List.mem_append_left _ hreserved)
  have hcode : (g.operation? id).map Operation.opcode ≠ some .independent ↔
      op ≠ .independent := by
    rw [hop]
    simp
  refine hdown.below List.mem_cons_self ?_
  dsimp only
  split
  · next hstore =>
    have hfirst : s'.uses.get id = 0 := by
      by_contra hne
      have hqueued := hdown.valid.decided id hne hslot
        (by simpa [hop] using hcode.mp hstore.1)
      obtain ⟨i, hi⟩ := List.mem_iff_getElem?.mp hqueued
      have hzero : s'.ranks.get id = 0 := hstore.2
      rw [hdown.valid.rank i id hi] at hzero
      omega
    exact .of_use (hdown.valid.store hfirst hdown.used ⟨op, hop, hcode.mp hstore.1⟩)
      (uses_enqueue _ _)
  · next hskip =>
    refine .of_use (hdown.valid.use hdown.used fun _ hne => ?_) rfl
    by_contra hmem
    exact hskip ⟨hcode.mpr (by simpa [hop] using hne), hdown.valid.unranked id hmem⟩

/-- Scheduling keeps the invariant and uses every output. -/
theorem settles_run (policy : Policy α) (refs : Table Nat) {rank : NodeId → Nat} {bound : Nat}
    (hrank : Ranked g.references rank) (hbound : ∀ id, rank id ≤ bound) (hclosed : g.Closed)
    (hbounded : g.Bounded) {slots : Table Nat} {lastId : Nat}
    (hissued : Issued slots lastId reserved) {outputs : List (Arg α)}
    (hlive : ∀ id, Arg.node id ∈ outputs → g.contains id = true)
    (hreserved : ∀ id, Arg.node id ∈ outputs → id ∈ reserved) :
    Settles g reserved (outputs.filterMap Arg.node?) { slots := slots, lastId := lastId }
      (run g policy refs slots lastId outputs) := by
  rw [run_eq_visitOutput hrank hclosed hbounded (fun id => Nat.lt_succ_of_le (hbound id)) slots
    lastId hlive]
  have hroots : ∀ id ∈ outputs.filterMap Arg.node?, g.contains id = true ∧ id ∈ reserved :=
    fun id hid =>
      ⟨hlive id (Arg.mem_filterMap_node?.mp hid), hreserved id (Arg.mem_filterMap_node?.mp hid)⟩
  have hstart : Valid g reserved { slots := slots, lastId := lastId } := valid_start hissued
  generalize ({ slots := slots, lastId := lastId } : Schedule) = s at hstart
  generalize outputs.filterMap Arg.node? = roots at hroots
  induction roots generalizing s with
  | nil => exact .refl hstart (by simp)
  | cons id roots ih =>
    obtain ⟨hidLive, hidReserved⟩ := hroots id List.mem_cons_self
    have hhead := settles_visitOutput policy refs hrank hclosed
      (Nat.lt_succ_of_le (hbound id)) hidLive hstart hidReserved
    exact hhead.trans (ih _ hhead.valid fun k hk => hroots k (List.mem_cons_of_mem _ hk))

end Schedule

end Straightline
