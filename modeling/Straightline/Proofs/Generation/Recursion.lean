import Straightline.Proofs.Generation.ReferenceCount
import Straightline.Proofs.Generation.Scheduled

/-!
# The evaluation order by recursion

What scheduling computes, said without stacks, counters and slots. The outputs are taken in turn. A
node is visited when it is reached first: its operands are taken in order, and each that was not
visited is visited. After the visit of an operand, before the next operand, it joins the queue if it
is stored; an output joins the queue after its visit unless it is there. Scheduling keeps the
nodes that were visited and the queue of this recursion: a node was visited once it has a use, and
it is an output that is not queued yet where it has a slot and no rank.
-/

namespace Straightline

namespace Schedule

variable {α : Type}

/-- The state of the recursion. -/
structure Tour where
  /-- The nodes that were visited. -/
  visited : List NodeId := []
  /-- The stored nodes so far, in evaluation order. -/
  queue : List NodeId := []

section Rules

variable (g : Graph α) (policy : Policy α) (refs : Table Nat) (roots : List NodeId)

/-- Whether a node is stored that an operand leads to first: an output is, and any other node if the
policy stores it, or the operands at this place; an independent variable never is. -/
def isStored (parent : NodeId) (arg : Nat) (child : NodeId) : Bool :=
  (g.node? child).any fun node =>
    node.operation.opcode ≠ .independent &&
      (roots.contains child || policy.stores node (refs.get child) ||
        (g.operation? parent).any fun op => policy.demands op.opcode arg)

/-- Leave a node that an operand led to first. -/
def Tour.leave (t : Tour) (parent : NodeId) (arg : Nat) (child : NodeId) : Tour where
  visited := child :: t.visited
  queue := if isStored g policy refs roots parent arg child then t.queue ++ [child] else t.queue

/-- Leave an output that was visited. -/
def Tour.leaveOutput (t : Tour) (id : NodeId) : Tour where
  visited := id :: t.visited
  queue :=
    if (g.operation? id).map Operation.opcode = some .independent ∨ id ∈ t.queue then t.queue
    else t.queue ++ [id]

/-- Go through operands of a node from a position on. -/
inductive Visits : NodeId → List (Arg α) → Nat → Tour → Tour → Prop where
  /-- There is no further operand. -/
  | done {parent : NodeId} {arg : Nat} {t : Tour} : Visits parent [] arg t t
  /-- A constant is passed over. -/
  | const {parent : NodeId} {v : α} {rest : List (Arg α)} {arg : Nat} {t t' : Tour}
    (hrest : Visits parent rest (arg + 1) t t') : Visits parent (.const v :: rest) arg t t'
  /-- A node that was not visited is visited and left. -/
  | first {parent child : NodeId} {rest : List (Arg α)} {arg : Nat} {t t' t'' : Tour}
    (hnew : child ∉ t.visited) (hvisit : Visits child (g.operands child) 0 t t')
    (hrest : Visits parent rest (arg + 1) (t'.leave g policy refs roots parent arg child) t'') :
    Visits parent (.node child :: rest) arg t t''
  /-- A node that was visited is passed over. -/
  | again {parent child : NodeId} {rest : List (Arg α)} {arg : Nat} {t t' : Tour}
    (hold : child ∈ t.visited) (hrest : Visits parent rest (arg + 1) t t') :
    Visits parent (.node child :: rest) arg t t'

/-- Take outputs in turn. -/
inductive Covers : List NodeId → Tour → Tour → Prop where
  /-- There is no further output. -/
  | done {t : Tour} : Covers [] t t
  /-- An output that was not visited is visited and left. -/
  | first {id : NodeId} {rest : List NodeId} {t t' t'' : Tour} (hnew : id ∉ t.visited)
    (hvisit : Visits g policy refs roots id (g.operands id) 0 t t')
    (hrest : Covers rest (t'.leaveOutput g id) t'') : Covers (id :: rest) t t''
  /-- An output that was visited is left again. -/
  | again {id : NodeId} {rest : List NodeId} {t t' : Tour} (hold : id ∈ t.visited)
    (hrest : Covers rest (t.leaveOutput g id) t') : Covers (id :: rest) t t'

/-- The queue of the recursion. -/
def Orders (queue : List NodeId) : Prop :=
  ∃ t, Covers g policy refs roots roots {} t ∧ t.queue = queue

end Rules

section Unique

variable {g : Graph α} {policy : Policy α} {refs : Table Nat} {roots : List NodeId}

/-- The recursion leaves no choice among operands. -/
theorem Visits.unique {parent : NodeId} {operands : List (Arg α)} {arg : Nat} {t t₁ t₂ : Tour}
    (h : Visits g policy refs roots parent operands arg t t₁)
    (h' : Visits g policy refs roots parent operands arg t t₂) : t₁ = t₂ := by
  induction h generalizing t₂ with
  | done =>
    cases h' with
    | done => rfl
  | const _ ih =>
    cases h' with
    | const hrest' => exact ih hrest'
  | first hnew _ _ ihvisit ihrest =>
    cases h' with
    | first _ hvisit' hrest' =>
      obtain rfl := ihvisit hvisit'
      exact ihrest hrest'
    | again hold' _ => exact absurd hold' hnew
  | again hold _ ih =>
    cases h' with
    | first hnew' _ _ => exact absurd hold hnew'
    | again _ hrest' => exact ih hrest'

/-- Nor among outputs. -/
theorem Covers.unique {ids : List NodeId} {t t₁ t₂ : Tour}
    (h : Covers g policy refs roots ids t t₁) (h' : Covers g policy refs roots ids t t₂) :
    t₁ = t₂ := by
  induction h generalizing t₂ with
  | done =>
    cases h' with
    | done => rfl
  | first hnew hvisit _ ih =>
    cases h' with
    | first _ hvisit' hrest' =>
      obtain rfl := hvisit.unique hvisit'
      exact ih hrest'
    | again hold' _ => exact absurd hold' hnew
  | again hold _ ih =>
    cases h' with
    | first hnew' _ _ => exact absurd hold hnew'
    | again _ hrest' => exact ih hrest'

end Unique

section Refinement

variable {g : Graph α} {policy : Policy α} {refs : Table Nat} {roots reserved : List NodeId}
  {s : Schedule} {t : Tour}

/-- Independent variables apart, slots are reserved for the outputs and for nothing else. -/
def Reserves (g : Graph α) (roots reserved : List NodeId) : Prop :=
  ∀ k op, g.operation? k = some op → op ≠ .independent → (k ∈ reserved ↔ k ∈ roots)

/-- A schedule keeps the state of the recursion. -/
structure Mirrors (reserved : List NodeId) (s : Schedule) (t : Tour) : Prop where
  /-- A node was visited once it has a use. -/
  visited : ∀ k, k ∈ t.visited ↔ s.uses.get k ≠ 0
  /-- The queues are the same. -/
  queue : t.queue = s.queue.toList
  /-- Queued nodes were visited. -/
  queued : ∀ k ∈ t.queue, k ∈ t.visited
  /-- The queued nodes have ranks. -/
  ranked : ∀ k, s.ranks.get k ≠ 0 ↔ k ∈ t.queue
  /-- Slots were reserved, or issued to queued nodes. -/
  slotted : ∀ k, s.slots.get k ≠ 0 ↔ k ∈ reserved ∨ k ∈ t.queue

theorem mirrors_start {slots : Table Nat} {lastId : Nat} (h : Issued slots lastId reserved) :
    Mirrors reserved { slots := slots, lastId := lastId } {} where
  visited k := by simp
  queue := rfl
  queued k hk := by simp at hk
  ranked k := by simp
  slotted k := by simpa using h.ne_zero_iff

/-- A use that queues nothing. -/
theorem Mirrors.use (h : Mirrors reserved s t) (id : NodeId) :
    Mirrors reserved (s.use id) { t with visited := id :: t.visited } where
  visited k := by rw [used_use, List.mem_cons, h.visited]
  queue := h.queue
  queued k hk := List.mem_cons_of_mem _ (h.queued k hk)
  ranked := h.ranked
  slotted := h.slotted

/-- A later use of a node. -/
theorem Mirrors.use_again (h : Mirrors reserved s t) {id : NodeId} (hid : id ∈ t.visited) :
    Mirrors reserved (s.use id) t where
  visited k := by
    rw [used_use, h.visited]
    exact ⟨.inr, fun hk => hk.elim (fun heq => heq ▸ (h.visited id).mp hid) fun hk => hk⟩
  queue := h.queue
  queued := h.queued
  ranked := h.ranked
  slotted := h.slotted

/-- A visited node joins the queue. -/
theorem Mirrors.enqueue (h : Mirrors reserved s t) {id : NodeId} (hid : id ∈ t.visited) :
    Mirrors reserved (s.enqueue id) { t with queue := t.queue ++ [id] } where
  visited k := by rw [uses_enqueue, h.visited]
  queue := by rw [queue_enqueue, Array.toList_push, h.queue]
  queued k hk := by
    rcases List.mem_append.mp hk with hk | hk
    · exact h.queued k hk
    · exact List.mem_singleton.mp hk ▸ hid
  ranked k := by
    rw [ranks_enqueue, Table.get_set, List.mem_append, List.mem_singleton, ← h.ranked]
    by_cases heq : k = id <;> simp [heq]
  slotted k := by
    rw [List.mem_append, List.mem_singleton, ← or_assoc, ← h.slotted]
    by_cases heq : k = id
    · exact iff_of_true (heq ▸ slots_enqueue_self s id) (.inr heq)
    · rw [slots_enqueue_of_ne s heq]
      exact (or_iff_left heq).symm

/-- At the first use of a node it is decided as by the recursion whether it is stored. -/
theorem Mirrors.count_first (h : Mirrors reserved s t)
    (hreserved : Reserves g roots reserved)
    {parent child : NodeId} (hparent : g.contains parent = true) (arg : Nat)
    (hfirst : s.uses.get child = 0) :
    Mirrors reserved (s.count g policy refs parent arg child)
      (t.leave g policy refs roots parent arg child) := by
  obtain ⟨op, hop⟩ := Graph.contains_iff.mp hparent
  have hused := h.use child
  have hnew : child ∉ t.queue := fun hmem => (h.visited child).mp (h.queued child hmem) hfirst
  have hunranked : (s.use child).ranks.get child = 0 := by
    by_contra hranked
    exact hnew ((h.ranked child).mp hranked)
  rw [count, if_pos hfirst, decideStorage, Tour.leave, isStored]
  cases hnode : g.node? child with
  | none => simpa [hnode] using hused
  | some node =>
    have hchild : g.operation? child = some node.operation := by simp [Graph.operation?, hnode]
    simp only [hop, hunranked, ne_eq, not_true_eq_false, or_false, Option.any_some]
    by_cases hind : node.operation.opcode = .independent
    · simpa [hind] using hused
    · -- A node that is not queued has a slot only if one was reserved for it.
      have hslot : (s.use child).slots.get child ≠ 0 ↔ child ∈ roots := by
        rw [← hreserved child _ hchild fun heq => hind (by rw [heq]; rfl)]
        exact (h.slotted child).trans (or_iff_left hnew)
      rw [if_neg hind]
      simp only [hind, hslot, not_false_eq_true, decide_true, Bool.true_and,
        List.contains_eq_mem]
      split
      · exact hused.enqueue List.mem_cons_self
      · exact hused

/-- Going through operands. -/
theorem Mirrors.exists_visits (policy : Policy α) (refs : Table Nat)
    (hreserved : Reserves g roots reserved)
    {parent : NodeId} (hparent : g.contains parent = true) {below : NodeId → Schedule → Schedule}
    {operands : List (Arg α)}
    (hbelow : ∀ child, .node child ∈ operands → ∀ s t, Mirrors reserved s t →
      s.uses.get child = 0 → (below child s).uses.get child = 0 ∧
        ∃ t', Visits g policy refs roots child (g.operands child) 0 t t' ∧
          Mirrors reserved (below child s) t')
    (h : Mirrors reserved s t) (arg : Nat) :
    ∃ t', Visits g policy refs roots parent operands arg t t' ∧
      Mirrors reserved (visitOperands g policy refs below parent operands arg s) t' := by
  induction operands generalizing s t arg with
  | nil => exact ⟨t, .done, h⟩
  | cons x rest ih =>
    have hrest := fun {s t} (h : Mirrors reserved s t) =>
      ih (fun child hchild => hbelow child (List.mem_cons_of_mem _ hchild)) h (arg + 1)
    cases x with
    | const v =>
      obtain ⟨t', hvisits, hmirrors⟩ := hrest h
      exact ⟨t', .const hvisits, hmirrors⟩
    | node child =>
      rw [visitOperands]
      by_cases hfirst : s.uses.get child = 0
      · obtain ⟨hopen, t', hvisit, hmirrors⟩ := hbelow child List.mem_cons_self s t h hfirst
        obtain ⟨t'', hvisits, hmirrors⟩ := hrest (hmirrors.count_first hreserved hparent arg hopen)
        refine ⟨t'', .first (fun hmem => (h.visited child).mp hmem hfirst) hvisit hvisits, ?_⟩
        simpa only [if_pos hfirst] using hmirrors
      · have hold : child ∈ t.visited := (h.visited child).mpr hfirst
        obtain ⟨t', hvisits, hmirrors⟩ := hrest (h.use_again hold)
        refine ⟨t', .again hold hvisits, ?_⟩
        simpa only [if_neg hfirst, count] using hmirrors

/-- A visit. -/
theorem Mirrors.exists_visit (policy : Policy α) (refs : Table Nat)
    (hreserved : Reserves g roots reserved)
    {rank : NodeId → Nat} (hrank : Ranked g.references rank) (hclosed : g.Closed) {depth : Nat}
    {id : NodeId} (hdepth : rank id < depth) (hlive : g.contains id = true)
    (h : Mirrors reserved s t) :
    ∃ t', Visits g policy refs roots id (g.operands id) 0 t t' ∧
      Mirrors reserved (visit g policy refs depth id s) t' := by
  induction depth generalizing id s t with
  | zero => omega
  | succ depth ih =>
    refine h.exists_visits policy refs hreserved hlive (fun child hmem s t hs hfirst => ?_) 0
    -- A visit counts no use of the node itself, so its first use is still to come.
    have hchild := mem_references_of_mem_operands hmem
    have hlt := hrank id child hchild
    refine ⟨?_, ih (by omega) (hclosed id child hchild) hs⟩
    rw [uses_visit_of_le hrank (Nat.le_refl _), hfirst]

/-- An output joins the queue as by the recursion. -/
theorem Mirrors.leaveOutput (h : Mirrors reserved s t) (g : Graph α) (id : NodeId) :
    Mirrors reserved
      (if (g.operation? id).map Operation.opcode ≠ some .independent ∧
          (s.use id).ranks.get id = 0 then (s.use id).enqueue id else s.use id)
      (t.leaveOutput g id) := by
  have hused := h.use id
  have hstores : ((g.operation? id).map Operation.opcode ≠ some .independent ∧
      (s.use id).ranks.get id = 0) ↔
      ¬ ((g.operation? id).map Operation.opcode = some .independent ∨ id ∈ t.queue) := by
    rw [not_or, ← h.ranked id, not_not]
    rfl
  rw [Tour.leaveOutput]
  split
  · next hstore =>
    rw [if_neg (hstores.mp hstore)]
    exact hused.enqueue List.mem_cons_self
  · next hskip =>
    rw [if_pos (not_not.mp (mt hstores.mpr hskip))]
    exact hused

/-- All outputs. -/
theorem Mirrors.exists_covers (policy : Policy α) (refs : Table Nat)
    (hreserved : Reserves g roots reserved)
    {rank : NodeId → Nat} (hrank : Ranked g.references rank) (hclosed : g.Closed) {depth : Nat}
    (hdepth : ∀ id, rank id < depth) {ids : List NodeId}
    (hlive : ∀ id ∈ ids, g.contains id = true) (h : Mirrors reserved s t) :
    ∃ t', Covers g policy refs roots ids t t' ∧
      Mirrors reserved (ids.foldl (visitOutput g policy refs depth) s) t' := by
  induction ids generalizing s t with
  | nil => exact ⟨t, .done, h⟩
  | cons id ids ih =>
    have hid := hlive id List.mem_cons_self
    have hrest := fun {s t} (h : Mirrors reserved s t) =>
      ih (fun k hk => hlive k (List.mem_cons_of_mem _ hk)) h
    rw [List.foldl_cons, visitOutput]
    by_cases hfirst : s.uses.get id = 0
    · rw [if_pos hfirst]
      obtain ⟨t', hvisit, hmirrors⟩ :=
        h.exists_visit policy refs hreserved hrank hclosed (hdepth id) hid
      obtain ⟨t'', hcovers, hfinal⟩ := hrest (hmirrors.leaveOutput g id)
      exact ⟨t'', .first (fun hmem => (h.visited id).mp hmem hfirst) hvisit hcovers, hfinal⟩
    · rw [if_neg hfirst]
      obtain ⟨t', hcovers, hfinal⟩ := hrest (h.leaveOutput g id)
      have hold := (h.visited id).mpr hfirst
      exact ⟨t', .again hold hcovers, hfinal⟩

end Refinement

section Stored

variable {g : Graph α} {policy : Policy α} {refs : Table Nat} {roots : List NodeId} {t t' : Tour}

/-- A node that is stored wherever it is used: an output, or one that the policy stores. -/
def Wanted (g : Graph α) (policy : Policy α) (refs : Table Nat) (roots : List NodeId)
    (id : NodeId) : Prop :=
  ∃ node, g.node? id = some node ∧ node.operation ≠ .independent ∧
    (id ∈ roots ∨ policy.stores node (refs.get id) = true)

/-- A wanted node is stored, whichever operand leads to it first. -/
theorem isStored_of_wanted {child : NodeId} (h : Wanted g policy refs roots child)
    (parent : NodeId) (arg : Nat) : isStored g policy refs roots parent arg child = true := by
  obtain ⟨node, hnode, hne, hroot | hstores⟩ := h
  · simp [isStored, hnode, hne, hroot]
  · simp [isStored, hnode, hne, hstores]

/-- Without demands on operands, it does not matter which operand leads to a node first. -/
theorem isStored_iff (hdemands : ∀ op arg, policy.demands op arg = false) (parent : NodeId)
    (arg : Nat) (child : NodeId) :
    isStored g policy refs roots parent arg child = true ↔ Wanted g policy refs roots child := by
  have hnone : ((g.operation? parent).any fun op => policy.demands op.opcode arg) = false := by
    cases g.operation? parent with
    | none => rfl
    | some op => exact hdemands op.opcode arg
  simp [isStored, Wanted, hnone, Option.any_eq_true]

/-- The queue holds exactly the wanted nodes among those visited. -/
def Tour.Exact (g : Graph α) (policy : Policy α) (refs : Table Nat) (roots : List NodeId)
    (t : Tour) : Prop :=
  ∀ k, k ∈ t.queue ↔ k ∈ t.visited ∧ Wanted g policy refs roots k

/-- One more node is visited and queued if it is wanted. -/
theorem Tour.Exact.cons (h : t.Exact g policy refs roots) {id : NodeId} {queue : List NodeId}
    (hqueue : ∀ k, k ∈ queue ↔ k ∈ t.queue ∨ k = id ∧ Wanted g policy refs roots id) :
    Tour.Exact g policy refs roots { visited := id :: t.visited, queue := queue } := by
  intro k
  rw [hqueue, h k, List.mem_cons, or_and_right, or_comm]
  refine or_congr_left (and_congr_right ?_)
  rintro rfl
  rfl

theorem Tour.Exact.leave (h : t.Exact g policy refs roots)
    (hdemands : ∀ op arg, policy.demands op arg = false) (parent : NodeId) (arg : Nat)
    (child : NodeId) :
    (t.leave g policy refs roots parent arg child).Exact g policy refs roots := by
  refine h.cons fun k => ?_
  rw [← isStored_iff hdemands parent arg child]
  split
  · next hstored => simp [hstored]
  · next hskip => simp [hskip]

theorem Tour.Exact.leaveOutput (h : t.Exact g policy refs roots) {id : NodeId} (hroot : id ∈ roots)
    (hlive : g.contains id = true) : (t.leaveOutput g id).Exact g policy refs roots := by
  obtain ⟨node, hnode⟩ := Option.isSome_iff_exists.mp hlive
  have hop : g.operation? id = some node.operation := by simp [Graph.operation?, hnode]
  have hwanted : Wanted g policy refs roots id ↔
      (g.operation? id).map Operation.opcode ≠ some .independent := by
    simp [Wanted, hnode, hop, hroot]
  refine h.cons fun k => ?_
  rw [hwanted]
  split
  · next hskip =>
    refine (or_iff_left_of_imp ?_).symm
    rintro ⟨rfl, hstored⟩
    exact hskip.resolve_left hstored
  · next hstored =>
    rw [List.mem_append, List.mem_singleton, and_iff_left fun hind => hstored (.inl hind)]

/-- What leaving a node keeps is kept among operands. -/
theorem Visits.preserves {P : Tour → Prop}
    (hleave : ∀ t parent arg child, P t → P (t.leave g policy refs roots parent arg child))
    {parent : NodeId} {operands : List (Arg α)} {arg : Nat}
    (hvisits : Visits g policy refs roots parent operands arg t t') (h : P t) : P t' := by
  induction hvisits with
  | done => exact h
  | const _ ih => exact ih h
  | first _ _ _ ihvisit ihrest => exact ihrest (hleave _ _ _ _ (ihvisit h))
  | again _ _ ih => exact ih h

/-- And among outputs. -/
theorem Covers.preserves {P : Tour → Prop}
    (hleave : ∀ t parent arg child, P t → P (t.leave g policy refs roots parent arg child))
    {ids : List NodeId} (houtput : ∀ id ∈ ids, ∀ t, P t → P (t.leaveOutput g id))
    (hcovers : Covers g policy refs roots ids t t') (h : P t) : P t' := by
  induction hcovers with
  | done => exact h
  | first _ hvisit _ ih =>
    exact ih (fun k hk => houtput k (List.mem_cons_of_mem _ hk))
      (houtput _ List.mem_cons_self _ (hvisit.preserves hleave h))
  | again _ _ ih =>
    exact ih (fun k hk => houtput k (List.mem_cons_of_mem _ hk))
      (houtput _ List.mem_cons_self _ h)

/-- Without demands on operands the queue stays exact. -/
theorem Covers.exact (hdemands : ∀ op arg, policy.demands op arg = false) {ids : List NodeId}
    (hids : ∀ id ∈ ids, id ∈ roots ∧ g.contains id = true)
    (hcovers : Covers g policy refs roots ids t t') (h : t.Exact g policy refs roots) :
    t'.Exact g policy refs roots :=
  hcovers.preserves (fun _ _ _ _ ht => ht.leave hdemands _ _ _)
    (fun id hid _ ht => ht.leaveOutput (hids id hid).1 (hids id hid).2) h

/-- The queue holds the wanted nodes among those visited, and maybe others. -/
def Tour.Complete (g : Graph α) (policy : Policy α) (refs : Table Nat) (roots : List NodeId)
    (t : Tour) : Prop :=
  ∀ k ∈ t.visited, Wanted g policy refs roots k → k ∈ t.queue

theorem Tour.Complete.leave (h : t.Complete g policy refs roots) (parent : NodeId) (arg : Nat)
    (child : NodeId) :
    (t.leave g policy refs roots parent arg child).Complete g policy refs roots := by
  intro k hk hwanted
  rw [Tour.leave]
  rcases List.mem_cons.mp hk with rfl | hk
  · rw [if_pos (isStored_of_wanted hwanted parent arg)]
    simp
  · split
    · exact List.mem_append_left _ (h k hk hwanted)
    · exact h k hk hwanted

theorem Tour.Complete.leaveOutput (h : t.Complete g policy refs roots) (id : NodeId) :
    (t.leaveOutput g id).Complete g policy refs roots := by
  intro k hk hwanted
  rw [Tour.leaveOutput]
  rcases List.mem_cons.mp hk with rfl | hk
  · obtain ⟨node, hnode, hne, _⟩ := hwanted
    split
    · next hskip =>
      refine hskip.resolve_left ?_
      simpa [Graph.operation?, hnode] using hne
    · simp
  · split
    · exact h k hk hwanted
    · exact List.mem_append_left _ (h k hk hwanted)

/-- Whatever the policy demands of operands, no wanted node is left out. -/
theorem Covers.complete {ids : List NodeId} (hcovers : Covers g policy refs roots ids t t')
    (h : t.Complete g policy refs roots) : t'.Complete g policy refs roots :=
  hcovers.preserves (fun _ parent arg child ht => ht.leave parent arg child)
    (fun id _ _ ht => ht.leaveOutput id) h

end Stored

end Schedule

namespace Graph

variable {α : Type} {g : Graph α} {outputs : List (Arg α)}

/-- Scheduling follows the recursion, and what was visited is what the outputs reach. -/
theorem WellFormed.exists_covers (h : g.WellFormed) (policy : Policy α)
    (hlive : ∀ id, Arg.node id ∈ outputs → ∃ node, g.recorded.get id = some node) :
    let refs := (g.beginPass.countReferences outputs).2
    let reserved := Reservation.make g.roster outputs
    let s := Schedule.run g.beginPass policy refs reserved.slots reserved.lastId outputs
    ∃ t, Schedule.Covers g.beginPass policy refs (outputs.filterMap Arg.node?)
        (outputs.filterMap Arg.node?) {} t ∧ t.queue = s.queue.toList ∧
      ∀ id, id ∈ t.visited ↔ g.beginPass.Reached outputs id := by
  have hbegin := h.beginPass
  obtain ⟨rank, hrank, hbound⟩ := hbegin.exists_ranked
  obtain ⟨extra, hissued, hextra, houtputs⟩ := Reservation.issued_make h.roster_nodup outputs
  obtain ⟨_, _, _, _, hsettles⟩ := h.settles_scheduled policy hlive
  have hdepth := fun id => Nat.lt_succ_of_le (hbound id)
  have hlive' : ∀ id, Arg.node id ∈ outputs → g.beginPass.contains id = true :=
    fun id hid => contains_beginPass.mpr (hlive id hid)
  have hreserved : Schedule.Reserves g.beginPass (outputs.filterMap Arg.node?)
      (g.roster ++ extra) := by
    intro k op hop hne
    have hroster : k ∉ g.roster := by
      intro hmem
      rw [h.mem_roster_beginPass, hop] at hmem
      exact hne (Option.some.inj hmem)
    rw [Arg.mem_filterMap_node?]
    refine ⟨fun hmem => hextra k ?_, houtputs k⟩
    exact (List.mem_append.mp hmem).resolve_left hroster
  obtain ⟨t, hcovers, hmirrors⟩ := (Schedule.mirrors_start hissued).exists_covers policy
    (g.beginPass.countReferences outputs).2 hreserved hrank hbegin.closed_all hdepth
    fun id hid => hlive' id (Arg.mem_filterMap_node?.mp hid)
  rw [← Schedule.run_eq_visitOutput hrank hbegin.closed_all hbegin.issued hdepth _ _ hlive']
    at hmirrors
  refine ⟨t, hcovers, hmirrors.queue, fun id => ?_⟩
  rw [hmirrors.visited]
  constructor
  · intro hused
    obtain ⟨root, hroot, hreach⟩ := (hsettles.only id hused).resolve_left (by simp)
    exact ⟨root, Arg.mem_filterMap_node?.mp hroot, hreach⟩
  · rintro ⟨root, hroot, hreach⟩
    exact hsettles.valid.used_of_reaches
      (hsettles.used root (Arg.mem_filterMap_node?.mpr hroot)) hreach

/-- Scheduling stores the wanted nodes that the outputs reach. -/
theorem WellFormed.mem_order_of_wanted (h : g.WellFormed) (policy : Policy α)
    (hlive : ∀ id, Arg.node id ∈ outputs → ∃ node, g.recorded.get id = some node) {id : NodeId}
    (hreached : g.beginPass.Reached outputs id)
    (hwanted : Schedule.Wanted g.beginPass policy (g.beginPass.countReferences outputs).2
      (outputs.filterMap Arg.node?) id) : id ∈ (g.scheduled policy outputs).order := by
  obtain ⟨t, hcovers, hqueue, hvisited⟩ := h.exists_covers policy hlive
  have hmem := hcovers.complete (fun k hk => by simp at hk) id ((hvisited id).mpr hreached) hwanted
  rw [hqueue] at hmem
  exact hmem

/-- The queue of the explicit stack is that of the recursion, and every queued node has a slot of
its own behind those of the roster. If no operand has to be stored, the queued nodes are the
reachable ones that are outputs or stored by the policy. For the policy that stores what is shared
these are the outputs and the nodes with more than one reference, requests included. -/
theorem WellFormed.run_follows_recursion (h : g.WellFormed) (policy : Policy α)
    (hlive : ∀ id, Arg.node id ∈ outputs → ∃ node, g.recorded.get id = some node) :
    let refs := (g.beginPass.countReferences outputs).2
    let reserved := Reservation.make g.roster outputs
    let s := Schedule.run g.beginPass policy refs reserved.slots reserved.lastId outputs
    (∀ queue, Schedule.Orders g.beginPass policy refs (outputs.filterMap Arg.node?) queue ↔
      queue = s.queue.toList) ∧
    s.lastId = s.queue.size + g.roster.length ∧
    ((∀ op arg, policy.demands op arg = false) → ∀ id, id ∈ s.queue.toList ↔
      g.beginPass.Reached outputs id ∧ ∃ node, g.recorded.get id = some node ∧
        node.operation ≠ .independent ∧
        (.node id ∈ outputs ∨ policy.stores node (refs.get id) = true)) ∧
    (policy = .shared → ∀ id, id ∈ s.queue.toList ↔
      g.beginPass.Reached outputs id ∧ ∃ node, g.recorded.get id = some node ∧
        node.operation ≠ .independent ∧
        (.node id ∈ outputs ∨
          1 < (requests outputs id).encard + (g.beginPass.edges outputs id).encard)) := by
  intro refs reserved s
  obtain ⟨t, hcovers, hqueue, hvisited⟩ := h.exists_covers policy hlive
  have hlive' : ∀ id, Arg.node id ∈ outputs → g.beginPass.contains id = true :=
    fun id hid => contains_beginPass.mpr (hlive id hid)
  have hstored : (∀ op arg, policy.demands op arg = false) → ∀ id, id ∈ s.queue.toList ↔
      g.beginPass.Reached outputs id ∧ ∃ node, g.recorded.get id = some node ∧
        node.operation ≠ .independent ∧
        (.node id ∈ outputs ∨ policy.stores node (refs.get id) = true) := by
    intro hdemands id
    have hexact := hcovers.exact hdemands
      (fun k hk => ⟨hk, hlive' k (Arg.mem_filterMap_node?.mp hk)⟩) fun k => by simp
    rw [← hqueue, hexact id, hvisited, Schedule.Wanted, node?_beginPass, Arg.mem_filterMap_node?]
  refine ⟨fun queue => ⟨?_, ?_⟩, h.lastId_scheduled policy hlive, hstored, ?_⟩
  · rintro ⟨t', hcovers', rfl⟩
    rw [hcovers'.unique hcovers, hqueue]
  · rintro rfl
    exact ⟨t, hcovers, hqueue⟩
  · rintro rfl id
    have hcount := countReferences_eq_encard h.beginPass.closed_all h.beginPass.issued hlive' id
    have hshared : ∀ node : Node α, Policy.shared.stores node (refs.get id) = true ↔
        1 < (requests outputs id).encard + (g.beginPass.edges outputs id).encard := by
      intro node
      rw [← hcount, Policy.shared, decide_eq_true_eq]
      exact Nat.one_lt_cast.symm
    simp only [hstored (fun _ _ => rfl) id, hshared]

/-- The sine `s` of a variable, its square, the exponential `e` of the square, and `e + s`. -/
def braid : Graph Int :=
  let ops : List (Operation (Arg Int)) :=
    [.unary (.call .sin) (.node 0), .binary .mul (.node 1) (.node 1), .unary (.call .exp) (.node 2),
      .binary .add (.node 3) (.node 1)]
  ops.foldl (fun g op => (g.record op).2) ({} : Graph Int).addIndependent.2

theorem wellFormed_braid : braid.WellFormed := by
  have hrefs : ∀ (g : Graph Int) (op : Operation (Arg Int)),
      (op.references.all fun k => (g.recorded.get k).isSome) = true →
        ∀ k ∈ op.references, ∃ m, g.recorded.get k = some m :=
    fun g op hall k hk => Option.isSome_iff_exists.mp (List.all_eq_true.mp hall k hk)
  have hsine := (WellFormed.empty 0).addIndependent.record
    (hrefs _ (.unary (.call .sin) (.node 0)) (by decide)) rfl (by decide) (by decide)
  have hsquare := hsine.record
    (hrefs _ (.binary .mul (.node 1) (.node 1)) (by decide)) rfl (by decide) (by decide)
  have hexp := hsquare.record
    (hrefs _ (.unary (.call .exp) (.node 2)) (by decide)) rfl (by decide) (by decide)
  exact hexp.record
    (hrefs _ (.binary .add (.node 3) (.node 1)) (by decide)) rfl (by decide) (by decide)

/-- The exponential and the sum are requested. What is shared is evaluated before them, or the
square if an exponential stores its operand. -/
theorem run_braid_follows_recursion :
    let outputs : List (Arg Int) := [.node 4, .node 3, .const 2, .node 4]
    let refs := (braid.beginPass.countReferences outputs).2
    braid.WellFormed ∧
      (∀ id, Arg.node id ∈ outputs → ∃ node, braid.recorded.get id = some node) ∧
      Schedule.Orders braid.beginPass .shared refs [4, 3, 4] [1, 3, 4] ∧
      Schedule.Orders braid.beginPass (.ofRule { operands := [(.unary (.call .exp), 0)] }) refs
        [4, 3, 4] [2, 3, 4] := by
  intro outputs refs
  have h := wellFormed_braid
  have hlive : ∀ id, Arg.node id ∈ outputs → ∃ node, braid.recorded.get id = some node := by
    intro id hid
    have hall : ∀ x ∈ outputs, ∀ k ∈ x.node?, (braid.recorded.get k).isSome = true := by decide
    exact Option.isSome_iff_exists.mp (hall _ hid id rfl)
  refine ⟨h, hlive, ?_, ?_⟩
  · exact ((h.run_follows_recursion .shared hlive).1 [1, 3, 4]).mpr (by decide +kernel)
  · exact ((h.run_follows_recursion (.ofRule { operands := [(.unary (.call .exp), 0)] }) hlive).1
      [2, 3, 4]).mpr (by decide +kernel)

end Graph

end Straightline
