import Straightline.Graph.Value
import Straightline.Proofs.Graph.Dependency

/-!
# Valuations

A valuation gives every node of a graph a value that satisfies the operation of the node: an
independent variable has the input at its roster position and every other node the value of its
operation on the values of its operands. On a graph without cycles there is exactly one, and it is
what plain recursion computes. No law of the base type is used.
-/

namespace Straightline

variable {α : Type}

/-- The value of an operand, from the values of the nodes. -/
def Arg.eval (val : NodeId → α) : Arg α → α
  | .node id => val id
  | .const v => v

theorem Arg.node?_eq_some {x : Arg α} {id : NodeId} : x.node? = some id ↔ x = .node id := by
  cases x <;> simp [node?]

/-- The nodes among operands are those that an operand refers to. -/
theorem Arg.mem_filterMap_node? {args : List (Arg α)} {id : NodeId} :
    id ∈ args.filterMap Arg.node? ↔ .node id ∈ args := by
  simp only [List.mem_filterMap, node?_eq_some, exists_eq_right]

/-- A node is referred to exactly if an operand is it. -/
theorem Operation.mem_references {op : Operation (Arg α)} {k : NodeId} :
    k ∈ op.references ↔ .node k ∈ op.operands :=
  Arg.mem_filterMap_node?

/-- A partial function that is defined on all operands acts as a total one. -/
theorem Operation.mapM?_eq_map {β γ : Type} {f : β → Option γ} {h : β → γ} {op : Operation β}
    (hf : ∀ x ∈ op.operands, f x = some (h x)) : op.mapM? f = some (op.map h) := by
  cases op with
  | independent => rfl
  | copy x => simp [mapM?, map, hf x (by simp [operands])]
  | unary op x => simp [mapM?, map, hf x (by simp [operands])]
  | binary op l r =>
    simp [mapM?, map, hf l (by simp [operands]), hf r (by simp [operands])]
  | select c l r t e =>
    simp [mapM?, map, hf l (by simp [operands]), hf r (by simp [operands]),
      hf t (by simp [operands]), hf e (by simp [operands])]
  | chain family terms =>
    have hterms : terms.mapM (fun t => do return (t.1, ← f t.2)) =
        some (terms.map fun t => (t.1, h t.2)) := by
      simp only [operands] at hf
      induction terms with
      | nil => rfl
      | cons t rest ih =>
        have hhead := hf t.2 (by simp)
        have htail := ih fun x hx => hf x (by simp at hx ⊢; exact .inr hx)
        simp only [Option.pure_def, Option.bind_eq_bind] at htail
        simp [List.mapM_cons, hhead, htail]
    simp only [Option.pure_def, Option.bind_eq_bind] at hterms
    simp [mapM?, map, hterms]

theorem Operation.map_map {β γ δ : Type} (f : β → γ) (h : γ → δ) (op : Operation β) :
    (op.map f).map h = op.map fun x => h (f x) := by
  cases op <;> simp [map]

/-- Operations agree if their operands do. -/
theorem Operation.map_congr {β γ : Type} {f h : β → γ} {op : Operation β}
    (hf : ∀ x ∈ op.operands, f x = h x) : op.map f = op.map h := by
  have hleft : op.mapM? (fun x => some (f x)) = some (op.map f) := mapM?_eq_map fun _ _ => rfl
  have hright : op.mapM? (fun x => some (f x)) = some (op.map h) :=
    mapM?_eq_map fun x hx => congrArg some (hf x hx)
  exact Option.some.inj (hleft.symm.trans hright)

namespace Graph

/-- Every reference of a live node leads to a live node. -/
def Closed (g : Graph α) : Prop := ∀ id, ∀ k ∈ g.references id, g.contains k = true

/-- Every independent variable is listed in the roster. -/
def Listed (g : Graph α) : Prop := ∀ id, g.operation? id = some .independent → id ∈ g.roster

/-- The references of a live node are those of its operation. -/
theorem references_of_operation {g : Graph α} {id : NodeId} {op : Operation (Arg α)}
    (h : g.operation? id = some op) : g.references id = op.references := by
  simp [references, h]

/-- A node refers to the nodes among its operands. -/
theorem mem_references_of_operand {g : Graph α} {id k : NodeId} {op : Operation (Arg α)}
    (h : g.operation? id = some op) (hk : .node k ∈ op.operands) : k ∈ g.references id := by
  rw [references_of_operation h]
  exact Operation.mem_references.mpr hk

/-- A node is live exactly if it has an operation. -/
theorem contains_iff {g : Graph α} {id : NodeId} :
    g.contains id = true ↔ ∃ op, g.operation? id = some op := by
  simp only [contains, operation?, Option.isSome_iff_exists, Option.map_eq_some_iff]
  constructor
  · rintro ⟨n, hn⟩
    exact ⟨n.operation, n, hn, rfl⟩
  · rintro ⟨_, n, hn, _⟩
    exact ⟨n, hn⟩

variable [Scalar α]

/-- An operand has a value if plain recursion finds it within some depth. -/
def HasValue (g : Graph α) (inputs : List α) (x : Arg α) (v : α) : Prop :=
  ∃ depth, g.value? inputs depth x = some v

/-- An operand has at most one value. -/
theorem HasValue.unique {g : Graph α} {inputs : List α} {x : Arg α} {v w : α}
    (hv : g.HasValue inputs x v) (hw : g.HasValue inputs x w) : v = w := by
  obtain ⟨depth, hdepth⟩ := hv
  obtain ⟨depth', hdepth'⟩ := hw
  have hleft := value?_of_le (Nat.le_max_left depth depth') hdepth
  have hright := value?_of_le (Nat.le_max_right depth depth') hdepth'
  exact Option.some.inj (hleft.symm.trans hright)

/-- The value that an operation of a node asks for, from the values of the nodes. -/
def required? (g : Graph α) (inputs : List α) (val : NodeId → α) (id : NodeId) :
    Operation (Arg α) → Option α
  | .independent => (g.rosterIndex? id).bind fun i => inputs[i]?
  | op => (op.map (Arg.eval val)).value?

/-- Every operation but an independent variable asks for its value on the values of its
operands. -/
theorem required?_of_ne {g : Graph α} (inputs : List α) (val : NodeId → α) (id : NodeId)
    {op : Operation (Arg α)} (hne : op ≠ .independent) :
    g.required? inputs val id op = (op.map (Arg.eval val)).value? := by
  cases op with
  | independent => exact absurd rfl hne
  | _ => rfl

/-- Values of the nodes that satisfy every operation of the graph. -/
def IsValuation (g : Graph α) (inputs : List α) (val : NodeId → α) : Prop :=
  ∀ id op, g.operation? id = some op → g.required? inputs val id op = some (val id)

/-- The depth-bounded value of a live node asks for the values of its operands. -/
theorem value?_eq_required {g : Graph α} {inputs : List α} {val : NodeId → α} {depth : Nat}
    {id : NodeId} {op : Operation (Arg α)} (hop : g.operation? id = some op)
    (hval : ∀ k ∈ g.references id, g.value? inputs depth (.node k) = some (val k)) :
    g.value? inputs (depth + 1) (.node id) = g.required? inputs val id op := by
  have hoperands : ∀ x ∈ op.operands, g.value? inputs depth x = some (x.eval val) := by
    intro x hx
    cases x with
    | const v => simp [Arg.eval]
    | node k => exact hval k (mem_references_of_operand hop hx)
  rw [value?_node, hop, Option.bind_some]
  cases op with
  | independent => rfl
  | _ =>
    simp only [Operation.mapM?_eq_map hoperands, Option.bind_some]
    rfl

/-- A valuation is what plain recursion computes at every live node. -/
theorem IsValuation.hasValue {g : Graph α} {inputs : List α} {val : NodeId → α}
    {rank : NodeId → Nat} (hval : g.IsValuation inputs val) (hrank : Ranked g.references rank)
    (hclosed : g.Closed) {x : Arg α} (hx : ∀ id, x.node? = some id → g.contains id = true) :
    g.HasValue inputs x (x.eval val) := by
  have hnode : ∀ depth id, rank id < depth → g.contains id = true →
      g.value? inputs depth (.node id) = some (val id) := by
    intro depth
    induction depth with
    | zero => intro id hlt; omega
    | succ depth ih =>
      intro id hlt hlive
      obtain ⟨op, hop⟩ := contains_iff.mp hlive
      have hrefs : ∀ k ∈ g.references id, g.value? inputs depth (.node k) = some (val k) := by
        intro k hk
        have hdrop := hrank id k hk
        exact ih k (by omega) (hclosed id k hk)
      rw [value?_eq_required hop hrefs]
      exact hval id op hop
  cases x with
  | const v => exact ⟨0, rfl⟩
  | node id => exact ⟨rank id + 1, hnode _ id (by omega) (hx id rfl)⟩

/-- An operation other than an independent variable has a value on all values of its operands. -/
theorem exists_required {g : Graph α} {inputs : List α} {val : NodeId → α} {id : NodeId}
    {op : Operation (Arg α)} (hop : g.operation? id = some op) (hlisted : g.Listed)
    (hinputs : inputs.length = g.roster.length) : ∃ v, g.required? inputs val id op = some v := by
  cases op with
  | independent =>
    have hmem := hlisted id hop
    obtain ⟨i, hi⟩ : ∃ i, g.rosterIndex? id = some i := by
      have hsome := List.isSome_idxOf?.mpr hmem
      exact Option.isSome_iff_exists.mp hsome
    have hlt : i < g.roster.length := by
      rw [rosterIndex?, List.idxOf?_eq_some_iff] at hi
      exact hi.1
    refine ⟨inputs[i], ?_⟩
    simp [required?, hi]
  | _ => exact ⟨_, rfl⟩

/-- On a graph without cycles every choice of inputs has a valuation. -/
theorem exists_isValuation {g : Graph α} {inputs : List α} {rank : NodeId → Nat} {bound : Nat}
    (hrank : Ranked g.references rank) (hbound : ∀ id, rank id ≤ bound) (hclosed : g.Closed)
    (hlisted : g.Listed) (hinputs : inputs.length = g.roster.length) :
    ∃ val, g.IsValuation inputs val := by
  have htotal : ∀ depth id, rank id < depth → g.contains id = true →
      ∃ v, g.value? inputs depth (.node id) = some v := by
    intro depth
    induction depth with
    | zero => intro id hlt; omega
    | succ depth ih =>
      intro id hlt hlive
      obtain ⟨op, hop⟩ := contains_iff.mp hlive
      have hrefs : ∀ k ∈ g.references id, g.value? inputs depth (.node k) =
          some ((g.value? inputs depth (.node k)).getD Scalar.zero) := by
        intro k hk
        have hdrop := hrank id k hk
        obtain ⟨v, hv⟩ := ih k (by omega) (hclosed id k hk)
        rw [hv, Option.getD_some]
      rw [value?_eq_required hop hrefs]
      exact exists_required hop hlisted hinputs
  refine ⟨fun id => (g.value? inputs (bound + 1) (.node id)).getD Scalar.zero, ?_⟩
  intro id op hop
  have hlive : g.contains id = true := contains_iff.mpr ⟨op, hop⟩
  obtain ⟨v, hv⟩ := htotal (bound + 1) id (Nat.lt_succ_of_le (hbound id)) hlive
  have hrefs : ∀ k ∈ g.references id, g.value? inputs bound (.node k) =
      some ((g.value? inputs (bound + 1) (.node k)).getD Scalar.zero) := by
    intro k hk
    have hdrop := hrank id k hk
    have hle := hbound id
    obtain ⟨w, hw⟩ := htotal bound k (by omega) (hclosed id k hk)
    rw [value?_succ hw, hw, Option.getD_some]
  rw [← value?_eq_required hop hrefs]
  simp only [hv, Option.getD_some]

end Graph

end Straightline
