import Straightline.Proofs.Generation.Storage
import Straightline.Proofs.Render.Execution
import Straightline.Proofs.Render.Parsing

/-!
# Legible bundles

Recording evaluates operations on constants, so that a constant is negated only where an
elimination made a copy of one. If there is no such copy, flattening makes none, and as selects are
stored, the expressions of a bundle are legible: no constant is negated, and no sign is taken of a
select that is written in place.
-/

namespace Straightline

variable {α : Type}

/-- Copies and operations of one operand are of nodes. -/
def Operation.Varies : Operation (Arg α) → Prop
  | .copy x => ∃ k, x = .node k
  | .unary _ x => ∃ k, x = .node k
  | _ => True

/-- Operands that are nodes may be replaced by nodes. -/
theorem Operation.Varies.map {op : Operation (Arg α)} (h : op.Varies) {ρ : Arg α → Arg α}
    (hρ : ∀ k, .node k ∈ op.operands → ∃ j, ρ (.node k) = .node j) : (op.map ρ).Varies := by
  cases op with
  | copy x =>
    obtain ⟨k, rfl⟩ := h
    exact hρ k (by simp [operands])
  | unary u x =>
    obtain ⟨k, rfl⟩ := h
    exact hρ k (by simp [operands])
  | _ => trivial

theorem Operation.Varies.of_rename {op : Operation (Arg α)} {ρ : NodeId → NodeId}
    (h : (op.map (Arg.rename ρ)).Varies) : op.Varies := by
  have hnode : ∀ x : Arg α, (∃ k, x.rename ρ = .node k) → ∃ k, x = .node k := by
    rintro x ⟨k, hk⟩
    cases x with
    | const v => cases hk
    | node j => exact ⟨j, rfl⟩
  cases op with
  | copy x => exact hnode x h
  | unary u x => exact hnode x h
  | _ => trivial

theorem Terms.legible_ofList {ts : List (Sense × Expression α)} (h : ∀ t ∈ ts, t.2.Legible) :
    (ofList ts).Legible := by
  induction ts with
  | nil => trivial
  | cons t ts ih =>
    exact ⟨h t List.mem_cons_self, ih fun u hu => h u (List.mem_cons_of_mem _ hu)⟩

namespace Graph

variable {g : Graph α} {outputs : List (Arg α)} {P : NodeId → Prop}

/-- What legible expressions take: among the nodes that they can refer to, copies and operations of
one operand are of nodes, and selects have slots. -/
structure Legible (g : Graph α) (P : NodeId → Prop) : Prop where
  /-- The operands of such nodes are such nodes. -/
  closed : ∀ id, P id → ∀ k ∈ g.references id, P k
  /-- Copies and operations of one operand are of nodes. -/
  varies : ∀ id op, P id → g.operation? id = some op → op.Varies
  /-- Selects have slots. -/
  stored : ∀ id op, P id → g.operation? id = some op → op.opcode.isComparison = true →
    g.slot id ≠ 0

/-- What an operand of a legible graph expands to. A node does not expand to a constant, nor to a
select, as this has a slot. -/
def LegiblyExpands (P : NodeId → Prop) (x : Arg α) (e : Expression α) : Prop :=
  (∀ k, x = .node k → P k) →
    e.Legible ∧ ∀ k, x = .node k → e.isLiteral = false ∧ e.isChoice = false

/-- Legible expressions of operands give a legible expression of an operation. -/
theorem legible_of_unfolds {op : Operation (Arg α)} {e : Expression α}
    (h : Expression.Unfolds (LegiblyExpands P) op e) (hop : op.Varies)
    (hrefs : ∀ k ∈ op.references, P k) : e.Legible := by
  have hoperand : ∀ x ∈ op.operands, ∀ k, x = .node k → P k := by
    rintro x hx k rfl
    exact hrefs k (Operation.mem_references.mpr hx)
  cases h with
  | copy hx => exact (hx (hoperand _ (by simp [Operation.operands]))).1
  | @unary u x ex hx =>
    obtain ⟨k, rfl⟩ := hop
    obtain ⟨hlegible, hbare⟩ := hx (hoperand _ (by simp [Operation.operands]))
    cases u with
    | neg => exact ⟨(hbare k rfl).1, hlegible⟩
    | sign => exact ⟨(hbare k rfl).2, hlegible⟩
    | call f => exact hlegible
  | binary hl hr =>
    exact ⟨(hl (hoperand _ (by simp [Operation.operands]))).1,
      (hr (hoperand _ (by simp [Operation.operands]))).1⟩
  | select hl hr ht hf =>
    exact ⟨(hl (hoperand _ (by simp [Operation.operands]))).1,
      (hr (hoperand _ (by simp [Operation.operands]))).1,
      (ht (hoperand _ (by simp [Operation.operands]))).1,
      (hf (hoperand _ (by simp [Operation.operands]))).1⟩
  | chain hall =>
    refine Terms.legible_ofList fun u hu => ?_
    obtain ⟨t, htmem, _, ht⟩ := exists_mem_of_forall₂ hall hu
    exact (ht (hoperand _ (List.mem_map.mpr ⟨t, htmem, rfl⟩))).1

/-- Operands of a legible graph expand legibly. -/
theorem Legible.expand (h : g.Legible P) {depth : Nat} {x : Arg α} {e : Expression α}
    (he : g.expand depth x = .ok e) : LegiblyExpands P x e := by
  refine expand_induction (fun v _ => ⟨trivial, by rintro k ⟨⟩⟩)
    (fun id _ _ => ⟨trivial, fun _ _ => ⟨rfl, rfl⟩⟩) ?_ he
  intro id op ex hop hslot hunfolds hid
  have hvaries := h.varies id op (hid id rfl) hop
  have hrefs : ∀ k ∈ op.references, P k := by
    rw [← references_of_operation hop]
    exact h.closed id (hid id rfl)
  refine ⟨legible_of_unfolds hunfolds hvaries hrefs, fun _ _ => ?_⟩
  cases hunfolds with
  | copy hx =>
    -- A copy without a slot stands for its operand, which is a node again.
    obtain ⟨k, rfl⟩ := hvaries
    exact (hx fun j hj => hrefs j (Operation.mem_references.mpr
      (by simp [Operation.operands, hj]))).2 k rfl
  | unary _ => exact ⟨rfl, rfl⟩
  | binary _ _ => exact ⟨rfl, rfl⟩
  | select _ _ _ _ => exact absurd hslot (h.stored id _ (hid id rfl) hop rfl)
  | chain _ => exact ⟨rfl, rfl⟩

/-- So do stored nodes. -/
theorem Legible.expandNode (h : g.Legible P) {id : NodeId} (hid : P id) {e : Expression α}
    (he : g.expandNode id = .ok e) : e.Legible := by
  obtain ⟨op, hop, hunfolds⟩ := exists_unfolds (fun _ _ _ => h.expand) he
  refine legible_of_unfolds hunfolds (h.varies id op hid hop) ?_
  rw [← references_of_operation hop]
  exact h.closed id hid

/-- Legibility depends on the operations and on which nodes have a slot. -/
theorem Legible.shared (h : g.Legible P) (hg : g.Scheduled outputs) (reuse : Bool) :
    (g.shared reuse).Legible P := by
  cases reuse with
  | false => exact h
  | true =>
    exact ⟨h.closed, h.varies, fun id op hid hop hselect hzero =>
      h.stored id op hid hop hselect ((hg.slot_reuseSlots_eq_zero id).mp hzero)⟩

/-- Behind the aliases of a legible node there is a node. -/
theorem Legible.exists_node (h : g.Legible P) {k : NodeId} (hk : P k) {x : Arg α}
    (hres : g.Resolves (.node k) x) : ∃ j, x = .node j ∧ P j := by
  induction hres with
  | refl => exact ⟨k, rfl, hk⟩
  | tail _ hstep ih =>
    obtain ⟨j, rfl, hj⟩ := ih
    obtain ⟨id, heq, _, hop⟩ := hstep
    obtain rfl : j = id := by simpa using heq
    obtain ⟨i, rfl⟩ := h.varies j _ hj hop
    exact ⟨i, rfl, h.closed j hj i (mem_references_of_operand hop (by simp [Operation.operands]))⟩

/-- What stands for a legible node is legible. -/
theorem Flattens.legible {id : NodeId} {op : Operation (Arg α)} (hflat : g.Flattens id op)
    (h : g.Legible P) (hid : P id) :
    op.Varies ∧ (op.opcode.isComparison = true → g.slot id ≠ 0) := by
  cases hflat with
  | @kept op ρ hop _ _ _ hρ =>
    refine ⟨(h.varies id op hid hop).map fun k hk => ?_, fun hselect => ?_⟩
    · obtain ⟨j, hj, _⟩ := h.exists_node (h.closed id hid k (mem_references_of_operand hop hk))
        (hρ _ hk).1
      exact ⟨j, hj⟩
    · rw [Operation.opcode_map] at hselect
      exact h.stored id op hid hop hselect
  | chained => exact ⟨trivial, by rintro ⟨⟩⟩

/-- No recorded node is a copy of a constant. -/
def Uncopied (g : Graph α) : Prop :=
  ∀ id node v, g.recorded.get id = some node → node.operation ≠ .copy (.const v)

/-- The same as a check of all issued identifiers. -/
def isUncopied (g : Graph α) : Bool :=
  (List.range g.next).all fun id => (g.recorded.get id).all fun node =>
    match node.operation with
    | .copy (.const _) => false
    | _ => true

theorem WellFormed.uncopied (h : g.WellFormed) (hcheck : g.isUncopied = true) : g.Uncopied := by
  intro id node v hnode hop
  have hlt : id < g.next := h.issued id (contains_of_recorded hnode)
  have hid := List.all_eq_true.mp hcheck id (List.mem_range.mpr hlt)
  rw [hnode, Option.all_some, hop] at hid
  cases hid

/-- Recording evaluates operations on constants. -/
theorem WellFormed.varies_recorded (h : g.WellFormed) (hcopy : g.Uncopied) {id : NodeId}
    {node : Node α} (hnode : g.recorded.get id = some node) : node.operation.Varies := by
  have hgrounded := h.grounded id node hnode
  have huncopied := fun v => hcopy id node v hnode
  cases hop : node.operation with
  | copy x =>
    cases x with
    | const v => exact absurd hop (huncopied v)
    | node k => exact ⟨k, rfl⟩
  | unary u x =>
    cases x with
    | const v =>
      rw [hop] at hgrounded
      exact absurd rfl (hgrounded (by simp [Operation.opcode]) (by simp [Operation.opcode]))
    | node k => exact ⟨k, rfl⟩
  | _ => trivial

section Pass

variable {policy : Policy α}

/-- After scheduling, what the outputs reach is legible. -/
theorem WellFormed.legible_scheduled (h : g.WellFormed) (hcopy : g.Uncopied)
    (hpolicy : ∀ node refs, node.operation.opcode.isComparison = true →
      policy.stores node refs = true)
    (hlive : ∀ id, Arg.node id ∈ outputs → ∃ node, g.recorded.get id = some node) :
    (g.scheduled policy outputs).Legible fun id =>
      ∃ root, .node root ∈ outputs ∧ Reaches g.beginPass.references root id where
  closed := by
    rintro id ⟨root, hroot, hreach⟩ k hk
    exact ⟨root, hroot, hreach.tail hk⟩
  varies := by
    intro id op _ hop
    rw [operation?_scheduled, operation?_beginPass] at hop
    obtain ⟨node, hnode, rfl⟩ := Option.map_eq_some_iff.mp hop
    exact h.varies_recorded hcopy hnode
  stored := by
    rintro id op ⟨root, hroot, hreach⟩ hop hselect
    obtain ⟨node, hnode, rfl⟩ := Option.map_eq_some_iff.mp hop
    refine h.slot_scheduled hlive hroot hreach ⟨node, hnode, fun heq => ?_, fun refs => ?_⟩
    · rw [heq] at hselect
      cases hselect
    · exact hpolicy node refs hselect

/-- Flattening keeps legibility: the built nodes and the independent variables are legible. -/
theorem Flattenable.exists_legible {seen : List NodeId} (hg : g.Flattenable outputs seen)
    (hlegible : g.Legible fun id => ∃ root, .node root ∈ outputs ∧ Reaches g.references root id) :
    ∃ P, (g.flatten outputs).2.Legible P ∧ (∀ id, .node id ∈ (g.flatten outputs).1 → P id) ∧
      ∀ id ∈ (g.flatten outputs).2.order, P id := by
  have hreached : ∀ id ∈ seen, ∃ root, .node root ∈ outputs ∧ Reaches g.references root id := by
    intro id hid
    obtain ⟨root, hroot, hreach⟩ := hg.counted.mem_seen.mp hid
    exact ⟨root, Arg.mem_filterMap_node?.mp hroot, hreach⟩
  obtain ⟨done, owner, f, heq, hvalid, hdone, hshaped⟩ := hg.exists_flatten
  have hbuilt : ∀ b n, f.nodes.get b = some n → n.operation.Varies ∧
      (n.operation.opcode.isComparison = true → f.slots.get b ≠ 0) := by
    intro b n hn
    obtain ⟨op, hflat, hop⟩ := hshaped b n hn
    have hrenamed : (n.operation.map (Arg.rename owner)).Varies ∧
        ((n.operation.map (Arg.rename owner)).opcode.isComparison = true →
          g.slot (owner b) ≠ 0) := by
      rcases hop with rfl | ⟨_, family, terms, _, hchain⟩
      · exact hflat.legible hlegible (hreached _ (hvalid.reached _ (hvalid.owner_mem b n hn).1))
      · rw [hchain]
        exact ⟨trivial, by rintro ⟨⟩⟩
    rw [Operation.opcode_map, ← hvalid.slot b n hn] at hrenamed
    exact ⟨hrenamed.1.of_rename, hrenamed.2⟩
  have hindependent : ∀ id ∈ g.roster, (f.graph g).operation? id = some .independent :=
    fun id hid => Flattening.operation?_graph hg (hg.roster_independent id hid)
  rw [heq]
  refine ⟨fun id => id ∈ g.roster ∨ ∃ n, f.nodes.get id = some n, ?_, ?_, ?_⟩
  · refine ⟨?_, ?_, ?_⟩
    · rintro id (hroster | ⟨n, hn⟩) k hk
      · rw [references_of_operation (hindependent id hroster)] at hk
        cases hk
      · exact hvalid.references_built hg hn hk
    · rintro id op (hroster | ⟨n, hn⟩) hop
      · obtain rfl : Operation.independent = op :=
          Option.some.inj ((hindependent id hroster).symm.trans hop)
        trivial
      · obtain rfl : n.operation = op :=
          Option.some.inj ((hvalid.operation?_built hg hn).symm.trans hop)
        exact (hbuilt id n hn).1
    · rintro id op (hroster | ⟨n, hn⟩) hop hselect
      · obtain rfl : Operation.independent = op :=
          Option.some.inj ((hindependent id hroster).symm.trans hop)
        cases hselect
      · obtain rfl : n.operation = op :=
          Option.some.inj ((hvalid.operation?_built hg hn).symm.trans hop)
        exact (hbuilt id n hn).2 hselect
  · exact fun id hid => (hvalid.image_cases hg hdone hid).imp_right And.left
  · exact fun id hid => .inr ((hvalid.mem_order hg hdone).mp hid).2

/-- After a pass the outputs and the stored nodes are legible, if the policy stores selects. -/
theorem WellFormed.exists_legible (h : g.WellFormed) (hcopy : g.Uncopied)
    (hpolicy : ∀ node refs, node.operation.opcode.isComparison = true →
      policy.stores node refs = true)
    (hlive : ∀ id, Arg.node id ∈ outputs → ∃ node, g.recorded.get id = some node)
    (optimize reuse : Bool) :
    ∃ P, ((g.prepared optimize policy outputs).2.shared reuse).Legible P ∧
      (∀ id, .node id ∈ (g.prepared optimize policy outputs).1 → P id) ∧
      ∀ id ∈ ((g.prepared optimize policy outputs).2.shared reuse).order, P id := by
  have hprepares := h.prepares optimize policy hlive
  have hscheduled := h.legible_scheduled hcopy hpolicy hlive
  obtain ⟨P, hlegible, houtputs, horder⟩ : ∃ P,
      (g.prepared optimize policy outputs).2.Legible P ∧
      (∀ id, .node id ∈ (g.prepared optimize policy outputs).1 → P id) ∧
      ∀ id ∈ (g.prepared optimize policy outputs).2.order, P id := by
    cases optimize with
    | false =>
      refine ⟨_, hscheduled, fun id hid => ⟨id, hid, .refl⟩, fun id hid => ?_⟩
      obtain ⟨root, hroot, hreach⟩ := h.reaches_scheduled policy hlive hid
      exact ⟨root, Arg.mem_filterMap_node?.mp hroot, hreach⟩
    | true =>
      obtain ⟨seen, hflattenable⟩ := h.exists_flattenable policy hlive
      exact hflattenable.exists_legible hscheduled
  refine ⟨P, hlegible.shared hprepares.toScheduled reuse, houtputs, ?_⟩
  cases reuse <;> exact horder

end Pass

end Graph

end Straightline
