import Straightline.Proofs.Generation.References

/-!
# Well-formed graphs

What holds of the graph of a handler at all times. Recorded nodes refer to recorded nodes, no node
depends on itself, and the roster is the list of the independent variables in the order of their
identifiers, which is the order of creation. The nodes of a flattened graph stand beside the
recorded ones and are referred to by each other only.
-/

namespace Straightline

/-- The number of operands of an operation kind, none for a chain, which takes any number. -/
def Opcode.arity? : Opcode → Option Nat
  | .independent => some 0
  | .copy | .unary _ => some 1
  | .binary _ => some 2
  | .select _ => some 4
  | .chain _ => none

/-- An operation has as many operands as its kind takes. -/
theorem Operation.length_operands {β : Type} (op : Operation β) {n : Nat}
    (h : op.opcode.arity? = some n) : op.operands.length = n := by
  cases op <;> simp_all [opcode, operands, Opcode.arity?]

namespace Graph

variable {α : Type}

/-- The node of the flattened graph behind an identifier. -/
def flatNode? (g : Graph α) (id : NodeId) : Option (Node α) :=
  g.pass.flat.bind fun flat => flat.nodes.get id

/-- The graph of a handler between two requests. -/
structure WellFormed (g : Graph α) : Prop where
  /-- Every reference of a recorded node leads to a recorded node. -/
  closed : ∀ id node, g.recorded.get id = some node → ∀ k ∈ node.operation.references,
    ∃ m, g.recorded.get k = some m
  /-- No node depends on itself. -/
  acyclic : Acyclic g.references
  /-- Every node has the operand count of its kind. -/
  arity : ∀ id node, g.node? id = some node → ∀ n, node.operation.opcode.arity? = some n →
    node.operation.operands.length = n
  /-- No recorded node is a chain. -/
  unchained : ∀ id node, g.recorded.get id = some node → node.operation.opcode.isChain = false
  /-- Every recorded node but an independent variable and a copy refers to a node. -/
  grounded : ∀ id node, g.recorded.get id = some node → node.operation.opcode ≠ .independent →
    node.operation.opcode ≠ .copy → node.operation.references ≠ []
  /-- The roster lists exactly the independent variables among the recorded nodes. -/
  mem_roster : ∀ id, id ∈ g.roster ↔
    ∃ node, g.recorded.get id = some node ∧ node.operation.opcode = .independent
  /-- The roster is in the order of creation, without repetitions. -/
  roster_sorted : g.roster.Pairwise (· < ·)
  /-- Every live identifier was issued. -/
  issued : g.Bounded
  /-- Every reference of a flattened node leads to a live node. -/
  flat_closed : ∀ id node, g.flatNode? id = some node → ∀ k ∈ node.operation.references,
    g.contains k = true
  /-- No identifier is both recorded and flattened. -/
  flat_apart : ∀ id node, g.flatNode? id = some node → g.recorded.get id = none

/-- A node is live as a recorded or as a flattened one. -/
theorem node?_eq (g : Graph α) (id : NodeId) :
    g.node? id = (g.recorded.get id).or (g.flatNode? id) := rfl

/-- A recorded node is live. -/
theorem node?_of_recorded {g : Graph α} {id : NodeId} {node : Node α}
    (h : g.recorded.get id = some node) : g.node? id = some node := by
  rw [node?_eq, h, Option.some_or]

theorem operation?_of_recorded {g : Graph α} {id : NodeId} {node : Node α}
    (h : g.recorded.get id = some node) : g.operation? id = some node.operation := by
  rw [operation?, node?_of_recorded h, Option.map_some]

theorem contains_of_recorded {g : Graph α} {id : NodeId} {node : Node α}
    (h : g.recorded.get id = some node) : g.contains id = true := by
  rw [contains, node?_of_recorded h, Option.isSome_some]

/-- Operands decide which node an operand list refers to. -/
theorem references_eq_map (g : Graph α) (id : NodeId) :
    g.references id = ((g.node? id).map fun n => n.operation.references).getD [] := by
  simp [references, operation?, Function.comp_def]

namespace WellFormed

variable {g : Graph α}

/-- Every reference of a live node leads to a live node. -/
theorem closed_all (h : g.WellFormed) : g.Closed := by
  intro id k hk
  rw [references_eq_map, node?_eq] at hk
  cases hrec : g.recorded.get id with
  | some node =>
    rw [hrec] at hk
    obtain ⟨m, hm⟩ := h.closed id node hrec k (by simpa using hk)
    exact contains_of_recorded hm
  | none =>
    rw [hrec, Option.none_or] at hk
    cases hflat : g.flatNode? id with
    | none => simp [hflat] at hk
    | some node => exact h.flat_closed id node hflat k (by simpa [hflat] using hk)

/-- References lead to issued identifiers. -/
theorem references_lt (h : g.WellFormed) : ∀ a, ∀ b ∈ g.references a, b < g.next :=
  fun a b hb => h.issued b (h.closed_all a b hb)

/-- The nodes can be ranked by what they depend on. -/
theorem exists_ranked (h : g.WellFormed) :
    ∃ rank, Ranked g.references rank ∧ ∀ id, rank id ≤ g.next :=
  h.acyclic.exists_ranked h.references_lt

theorem roster_nodup (h : g.WellFormed) : g.roster.Nodup :=
  h.roster_sorted.imp Nat.ne_of_lt

/-- The empty graph is well formed, whatever was issued before. -/
theorem empty (next : NodeId) : ({ next := next } : Graph α).WellFormed := by
  have hnode : ∀ id, ({ next := next } : Graph α).node? id = none := by
    intro id
    simp only [node?, Table.get_emptyCollection]
    rfl
  have hranked : Ranked ({ next := next } : Graph α).references fun _ => 0 := by
    intro a b hb
    simp [references_eq_map, hnode] at hb
  exact {
    closed := by simp
    acyclic := hranked.acyclic
    arity := by simp [hnode]
    unchained := by simp
    grounded := by simp
    mem_roster := by simp
    roster_sorted := List.Pairwise.nil
    issued := fun id h => by simp [contains, hnode] at h
    flat_closed := by simp [flatNode?]
    flat_apart := by simp [flatNode?] }

/-- Releasing every node leaves a well-formed graph. -/
theorem reset (g : Graph α) : g.reset.WellFormed := empty g.next

end WellFormed

/-- The next identifier belongs to no node. -/
theorem Bounded.node?_next {g : Graph α} (h : g.Bounded) : g.node? g.next = none := by
  by_contra hne
  have hlive : g.contains g.next = true := Option.isSome_iff_ne_none.mpr hne
  exact Nat.lt_irrefl _ (h g.next hlive)

/-- An operation was written into the recorded nodes, at an identifier that no flattened node
has. -/
structure Writes (g g' : Graph α) (target : NodeId) (op : Operation (Arg α)) : Prop where
  /-- The operation stands at the identifier, and nothing else changed. -/
  recorded : ∀ id, g'.recorded.get id =
    if id = target then some { operation := op } else g.recorded.get id
  /-- The flattened nodes stay. -/
  flat : ∀ id, g'.flatNode? id = g.flatNode? id
  /-- The identifier belongs to no flattened node. -/
  apart : g.flatNode? target = none

namespace Writes

variable {g g' : Graph α} {target : NodeId} {op : Operation (Arg α)}

theorem node? (h : Writes g g' target op) (id : NodeId) :
    g'.node? id = if id = target then some { operation := op } else g.node? id := by
  rw [node?_eq, h.recorded, h.flat, node?_eq]
  split <;> rfl

theorem references (h : Writes g g' target op) (id : NodeId) :
    g'.references id = if id = target then op.references else g.references id := by
  rw [references_eq_map, h.node?, references_eq_map]
  split <;> rfl

/-- A recorded node holds the written operation or was recorded before. -/
theorem recorded_cases (h : Writes g g' target op) {id : NodeId} {node : Node α}
    (hnode : g'.recorded.get id = some node) :
    node.operation = op ∨ g.recorded.get id = some node := by
  rw [h.recorded] at hnode
  split at hnode
  · cases hnode
    exact .inl rfl
  · exact .inr hnode

/-- No recorded node is lost. -/
theorem exists_recorded (h : Writes g g' target op) {id : NodeId}
    (hid : ∃ node, g.recorded.get id = some node) : ∃ node, g'.recorded.get id = some node := by
  rw [h.recorded]
  split
  · exact ⟨_, rfl⟩
  · exact hid

/-- Writing an operation on recorded operands keeps the graph well formed, if it closes no cycle
and the roster follows. -/
theorem wellFormed (h : Writes g g' target op) (hg : g.WellFormed) (hnext : g.next ≤ g'.next)
    (htarget : target < g'.next) (hrefs : ∀ k ∈ op.references, ∃ m, g.recorded.get k = some m)
    (hchain : op.opcode.isChain = false)
    (hground : op.opcode ≠ .independent → op.opcode ≠ .copy → op.references ≠ [])
    (hacyclic : Acyclic g'.references)
    (hroster : ∀ id, id ∈ g'.roster ↔
      id ∈ g.roster ∧ id ≠ target ∨ id = target ∧ op.opcode = .independent)
    (hsorted : g'.roster.Pairwise (· < ·)) : g'.WellFormed where
  closed := by
    intro id node hnode k hk
    apply h.exists_recorded
    rcases h.recorded_cases hnode with rfl | hold
    · exact hrefs k hk
    · exact hg.closed id node hold k hk
  acyclic := hacyclic
  arity _ node _ _ hn := node.operation.length_operands hn
  unchained := by
    intro id node hnode
    rcases h.recorded_cases hnode with rfl | hold
    · exact hchain
    · exact hg.unchained id node hold
  grounded := by
    intro id node hnode
    rcases h.recorded_cases hnode with rfl | hold
    · exact hground
    · exact hg.grounded id node hold
  mem_roster := by
    intro id
    rw [hroster id, hg.mem_roster id, h.recorded]
    by_cases heq : id = target <;> simp [heq]
  roster_sorted := hsorted
  issued := by
    intro id hlive
    rw [contains, h.node?] at hlive
    split at hlive
    · next heq => exact heq ▸ htarget
    · exact Nat.lt_of_lt_of_le (hg.issued id hlive) hnext
  flat_closed := by
    intro id node hnode k hk
    rw [h.flat] at hnode
    have hlive := hg.flat_closed id node hnode k hk
    rw [contains, h.node?]
    split
    · rfl
    · exact hlive
  flat_apart := by
    intro id node hnode
    rw [h.flat] at hnode
    have hne : id ≠ target := by
      rintro rfl
      rw [h.apart] at hnode
      cases hnode
    rw [h.recorded, if_neg hne]
    exact hg.flat_apart id node hnode

end Writes

/-- Recording writes an operation at the next identifier. -/
theorem Bounded.writes_record {g : Graph α} (h : g.Bounded) (op : Operation (Arg α)) :
    Writes g (g.record op).2 g.next op where
  recorded _ := Table.get_set ..
  flat _ := rfl
  apart := by
    have hfresh := h.node?_next
    rw [node?_eq, Option.or_eq_none_iff] at hfresh
    exact hfresh.2

/-- Recording leaves the recorded nodes as they are. -/
theorem WellFormed.recorded_record {g : Graph α} (h : g.WellFormed) (op : Operation (Arg α))
    {id : NodeId} {node : Node α} (hnode : g.recorded.get id = some node) :
    (g.record op).2.recorded.get id = some node := by
  have hne : id ≠ g.next := Nat.ne_of_lt (h.issued id (contains_of_recorded hnode))
  rw [(h.issued.writes_record op).recorded, if_neg hne, hnode]

/-- Recording a node on recorded operands keeps the graph well formed, up to the roster. -/
theorem WellFormed.record_aux {g : Graph α} (h : g.WellFormed) (op : Operation (Arg α))
    (roster : List NodeId)
    (hrefs : ∀ k ∈ op.references, ∃ m, g.recorded.get k = some m)
    (hchain : op.opcode.isChain = false)
    (hground : op.opcode ≠ .independent → op.opcode ≠ .copy → op.references ≠ [])
    (hroster : ∀ id, id ∈ roster ↔ id ∈ g.roster ∨ id = g.next ∧ op.opcode = .independent)
    (hsorted : roster.Pairwise (· < ·)) :
    ({ (g.record op).2 with roster := roster } : Graph α).WellFormed := by
  have hrecord := h.issued.writes_record op
  have hwrites : Writes g { (g.record op).2 with roster := roster } g.next op :=
    ⟨hrecord.recorded, hrecord.flat, hrecord.apart⟩
  refine hwrites.wellFormed h (Nat.le_succ _) (Nat.lt_succ_self _) hrefs hchain hground ?_ ?_
    hsorted
  · refine h.acyclic.of_fresh h.references_lt fun a b hb => ?_
    rw [hwrites.references] at hb
    split at hb
    · next heq =>
      obtain ⟨m, hm⟩ := hrefs b hb
      exact .inr ⟨heq, h.issued b (contains_of_recorded hm)⟩
    · exact .inl hb
  · intro id
    have hold : id ∈ g.roster → id ≠ g.next := by
      intro hid
      obtain ⟨node, hnode, _⟩ := (h.mem_roster id).mp hid
      exact Nat.ne_of_lt (h.issued id (contains_of_recorded hnode))
    rw [and_iff_left_of_imp hold]
    exact hroster id

/-- Recording an operation on recorded operands keeps the graph well formed. -/
theorem WellFormed.record {g : Graph α} (h : g.WellFormed) {op : Operation (Arg α)}
    (hrefs : ∀ k ∈ op.references, ∃ m, g.recorded.get k = some m)
    (hchain : op.opcode.isChain = false) (hnot : op.opcode ≠ .independent)
    (hground : op.opcode ≠ .copy → op.references ≠ []) : (g.record op).2.WellFormed :=
  h.record_aux op g.roster hrefs hchain (fun _ => hground) (by simp [hnot]) h.roster_sorted

/-- A new independent variable joins the roster at its end. -/
theorem WellFormed.addIndependent {g : Graph α} (h : g.WellFormed) :
    g.addIndependent.2.WellFormed := by
  refine h.record_aux .independent (g.roster ++ [g.next])
    (by simp [Operation.references, Operation.operands]) rfl (fun hne => absurd rfl hne)
    (by simp [Operation.opcode]) ?_
  refine List.pairwise_append.mpr ⟨h.roster_sorted, List.pairwise_singleton _ _, ?_⟩
  intro a ha b hb
  obtain ⟨node, hnode, _⟩ := (h.mem_roster a).mp ha
  rw [List.mem_singleton.mp hb]
  exact h.issued a (contains_of_recorded hnode)

/-- Elimination writes a copy of the solved expression over a recorded node. -/
theorem WellFormed.writes_eliminate {g : Graph α} (h : g.WellFormed) (index : Nat)
    {target : NodeId} (htarget : ∃ m, g.recorded.get target = some m) (solved : Arg α) :
    Writes g (g.eliminate index target solved) target (.copy solved) where
  recorded _ := Table.get_set ..
  flat _ := rfl
  apart := by
    by_contra hne
    obtain ⟨node, hnode⟩ := Option.ne_none_iff_exists'.mp hne
    obtain ⟨m, hm⟩ := htarget
    rw [h.flat_apart target node hnode] at hm
    cases hm

/-- Eliminating an independent variable keeps the graph well formed, if the solved expression is
recorded and does not lead back to the variable. -/
theorem WellFormed.eliminate {g : Graph α} (h : g.WellFormed) {index : Nat} {target : NodeId}
    {solved : Arg α} (hindex : g.rosterIndex? target = some index)
    (hsolved : ∀ k, solved.node? = some k →
      (∃ m, g.recorded.get k = some m) ∧ ¬ Reaches g.references k target) :
    (g.eliminate index target solved).WellFormed := by
  simp only [rosterIndex?] at hindex
  have hroster : g.roster.eraseIdx index = g.roster.erase target := by
    rw [List.erase_eq_eraseIdx, hindex]
  have hmem : target ∈ g.roster := by
    rw [← List.isSome_idxOf?, hindex, Option.isSome_some]
  obtain ⟨old, hold, _⟩ := (h.mem_roster target).mp hmem
  have hwrites := h.writes_eliminate index ⟨old, hold⟩ solved
  have hcopy : ∀ k ∈ (Operation.copy solved).references, solved.node? = some k := by
    intro k hk
    cases solved <;> simp_all [Operation.references, Operation.operands, Arg.node?]
  refine hwrites.wellFormed h (Nat.le_refl _) (h.issued target (contains_of_recorded hold))
    (fun k hk => (hsolved k (hcopy k hk)).1) rfl (fun _ hne => absurd rfl hne) ?_ ?_ ?_
  · cases solved with
    | const v =>
      refine h.acyclic.mono fun a b hb => ?_
      rw [hwrites.references] at hb
      split at hb
      · exact absurd (hcopy b hb) (by simp [Arg.node?])
      · exact hb
    | node k =>
      have hedge : ∀ a, ∀ b ∈ (g.eliminate index target (.node k)).references a,
          b ∈ g.references a ∨ a = target ∧ b = k := by
        intro a b hb
        rw [hwrites.references] at hb
        split at hb
        · next heq => exact .inr ⟨heq, by simpa [Arg.node?, eq_comm] using hcopy b hb⟩
        · exact .inl hb
      exact h.acyclic.of_new_edge hedge (hsolved k rfl).2
  · intro id
    change id ∈ g.roster.eraseIdx index ↔ _
    rw [hroster, h.roster_nodup.mem_erase_iff]
    simp [Operation.opcode, and_comm]
  · exact h.roster_sorted.sublist (List.eraseIdx_sublist ..)

/-- A pass without a flattened graph leaves the recorded graph well formed. -/
theorem WellFormed.setPass {g : Graph α} (h : g.WellFormed) {pass : Pass α}
    (hpass : pass.flat = none) : ({ g with pass := pass } : Graph α).WellFormed := by
  have hflat : ∀ id, ({ g with pass := pass } : Graph α).flatNode? id = none := by
    intro id
    simp [flatNode?, hpass]
  have hnode : ∀ id node, ({ g with pass := pass } : Graph α).node? id = some node →
      g.recorded.get id = some node := by
    intro id node hlive
    rwa [node?_eq, hflat, Option.or_none] at hlive
  exact { h with
    acyclic := by
      refine h.acyclic.mono fun a b hb => ?_
      rw [references_eq_map] at hb ⊢
      cases hlive : ({ g with pass := pass } : Graph α).node? a with
      | none => simp [hlive] at hb
      | some node =>
        rw [hlive] at hb
        rwa [node?_of_recorded (hnode a node hlive)]
    arity := fun _ node _ _ hn => node.operation.length_operands hn
    issued := by
      intro id hlive
      obtain ⟨node, hlive⟩ := Option.isSome_iff_exists.mp hlive
      exact h.issued id (contains_of_recorded (hnode id node hlive))
    flat_closed := by simp [hflat]
    flat_apart := by simp [hflat] }

/-- Only the operations, the roster and the issued identifiers matter. -/
theorem WellFormed.of_operations {g g' : Graph α} (h : g.WellFormed) (hnext : g'.next = g.next)
    (hroster : g'.roster = g.roster)
    (hrecorded : ∀ id, (g'.recorded.get id).map Node.operation =
      (g.recorded.get id).map Node.operation)
    (hflat : ∀ id, (g'.flatNode? id).map Node.operation =
      (g.flatNode? id).map Node.operation) : g'.WellFormed := by
  have hold : ∀ {x y : Option (Node α)}, x.map Node.operation = y.map Node.operation →
      ∀ node, x = some node → ∃ old, y = some old ∧ old.operation = node.operation := by
    rintro x y hxy node rfl
    exact Option.map_eq_some_iff.mp hxy.symm
  have hop : ∀ id, g'.operation? id = g.operation? id := by
    intro id
    rw [operation?, operation?, node?_eq, node?_eq, Option.map_or, Option.map_or, hrecorded,
      hflat]
  have hcontains : ∀ id, g'.contains id = g.contains id := by
    intro id
    rw [Bool.eq_iff_iff, contains_iff, contains_iff, hop]
  have hrefs : ∀ id, g'.references id = g.references id := by
    intro id
    rw [references, references, hop]
  exact {
    closed := by
      intro id node hnode k hk
      obtain ⟨old, hget, heq⟩ := hold (hrecorded id) node hnode
      rw [← heq] at hk
      obtain ⟨m, hm⟩ := h.closed id old hget k hk
      obtain ⟨m', hm', _⟩ := hold (hrecorded k).symm m hm
      exact ⟨m', hm'⟩
    acyclic := h.acyclic.mono fun a b hb => by rwa [hrefs] at hb
    arity := fun _ node _ _ hn => node.operation.length_operands hn
    unchained := by
      intro id node hnode
      obtain ⟨old, hget, heq⟩ := hold (hrecorded id) node hnode
      rw [← heq]
      exact h.unchained id old hget
    grounded := by
      intro id node hnode
      obtain ⟨old, hget, heq⟩ := hold (hrecorded id) node hnode
      rw [← heq]
      exact h.grounded id old hget
    mem_roster := by
      intro id
      rw [hroster, h.mem_roster id]
      constructor
      · rintro ⟨node, hnode, hcode⟩
        obtain ⟨new, hget, heq⟩ := hold (hrecorded id).symm node hnode
        exact ⟨new, hget, by rw [heq, hcode]⟩
      · rintro ⟨node, hnode, hcode⟩
        obtain ⟨old, hget, heq⟩ := hold (hrecorded id) node hnode
        exact ⟨old, hget, by rw [heq, hcode]⟩
    roster_sorted := by
      rw [hroster]
      exact h.roster_sorted
    issued := by
      intro id hlive
      rw [hnext]
      exact h.issued id (by rwa [hcontains] at hlive)
    flat_closed := by
      intro id node hnode k hk
      obtain ⟨old, hget, heq⟩ := hold (hflat id) node hnode
      rw [← heq] at hk
      rw [hcontains]
      exact h.flat_closed id old hget k hk
    flat_apart := by
      intro id node hnode
      obtain ⟨old, hget, _⟩ := hold (hflat id) node hnode
      have hnone := hrecorded id
      rw [h.flat_apart id old hget, Option.map_none, Option.map_eq_none_iff] at hnone
      exact hnone }

/-- A display name changes no operation. -/
theorem operation?_setName (g : Graph α) (id : NodeId) (name : String) (k : NodeId) :
    ((g.setName id name).recorded.get k).map Node.operation =
        (g.recorded.get k).map Node.operation ∧
      ((g.setName id name).flatNode? k).map Node.operation =
        (g.flatNode? k).map Node.operation := by
  unfold setName
  split
  · refine ⟨?_, rfl⟩
    dsimp only
    rw [Table.get_modify]
    split
    · next heq =>
      rw [heq]
      cases g.recorded.get id <;> rfl
    · rfl
  · refine ⟨rfl, ?_⟩
    simp only [flatNode?]
    cases g.pass.flat with
    | none => rfl
    | some flat =>
      simp only [Option.map_some, Option.bind_some, Table.get_modify]
      split
      · next heq =>
        rw [heq]
        cases flat.nodes.get id <;> rfl
      · rfl

/-- Naming a node keeps the graph well formed. -/
theorem WellFormed.setName {g : Graph α} (h : g.WellFormed) (id : NodeId) (name : String) :
    (g.setName id name).WellFormed := by
  have hsame : (g.setName id name).next = g.next ∧ (g.setName id name).roster = g.roster := by
    unfold Graph.setName
    split <;> exact ⟨rfl, rfl⟩
  exact h.of_operations hsame.1 hsame.2 (fun k => (operation?_setName g id name k).1)
    fun k => (operation?_setName g id name k).2

end Graph

end Straightline
