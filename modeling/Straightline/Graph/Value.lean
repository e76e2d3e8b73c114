import Straightline.Scalar
import Straightline.Graph.Basic

/-!
# Values of nodes

The meaning of a graph by plain recursion: an independent variable reads the input at its roster
position, a copy has the value of its operand, and every other node applies its operation to the
values of its operands. The recursion is bounded in depth, and a value found within some depth is
found within every larger one.
-/

namespace Straightline

/-- Replace every operand by a partial function, if it is defined on all of them. -/
def Operation.mapM? {β γ : Type} (f : β → Option γ) : Operation β → Option (Operation γ)
  | .independent => some .independent
  | .copy x => do return .copy (← f x)
  | .unary op x => do return .unary op (← f x)
  | .binary op l r => do return .binary op (← f l) (← f r)
  | .select c l r t e => do return .select c (← f l) (← f r) (← f t) (← f e)
  | .chain family terms => do
    return .chain family (← terms.mapM fun t => do return (t.1, ← f t.2))

/-- A function that is defined on more terms keeps the result. -/
theorem mapM_snd_mono {β γ : Type} {f f' : β → Option γ}
    (h : ∀ x y, f x = some y → f' x = some y) (terms : List (Sense × β))
    {result : List (Sense × γ)}
    (hterms : terms.mapM (fun t => do return (t.1, ← f t.2)) = some result) :
    terms.mapM (fun t => do return (t.1, ← f' t.2)) = some result := by
  induction terms generalizing result with
  | nil => exact hterms
  | cons t rest ih =>
    simp only [List.mapM_cons, Option.bind_eq_bind, Option.bind_eq_some_iff] at hterms ⊢
    obtain ⟨y, ⟨v, hv, hy⟩, zs, hzs, hres⟩ := hterms
    exact ⟨y, ⟨v, h t.2 v hv, hy⟩, zs, ih hzs, hres⟩

/-- A function that is defined on more operands keeps the result. -/
theorem Operation.mapM?_mono {β γ : Type} {f f' : β → Option γ}
    (h : ∀ x y, f x = some y → f' x = some y) {op : Operation β} {result : Operation γ}
    (hop : op.mapM? f = some result) : op.mapM? f' = some result := by
  cases op with
  | independent => exact hop
  | copy x =>
    simp only [mapM?, Option.bind_eq_bind, Option.bind_eq_some_iff] at hop ⊢
    obtain ⟨y, hy, rest⟩ := hop
    exact ⟨y, h x y hy, rest⟩
  | unary op x =>
    simp only [mapM?, Option.bind_eq_bind, Option.bind_eq_some_iff] at hop ⊢
    obtain ⟨y, hy, rest⟩ := hop
    exact ⟨y, h x y hy, rest⟩
  | binary op l r =>
    simp only [mapM?, Option.bind_eq_bind, Option.bind_eq_some_iff] at hop ⊢
    obtain ⟨y, hy, z, hz, rest⟩ := hop
    exact ⟨y, h l y hy, z, h r z hz, rest⟩
  | select c l r t e =>
    simp only [mapM?, Option.bind_eq_bind, Option.bind_eq_some_iff] at hop ⊢
    obtain ⟨u, hu, v, hv, w, hw, z, hz, rest⟩ := hop
    exact ⟨u, h l u hu, v, h r v hv, w, h t w hw, z, h e z hz, rest⟩
  | chain family terms =>
    simp only [mapM?, Option.bind_eq_bind, Option.bind_eq_some_iff] at hop ⊢
    obtain ⟨ys, hys, rest⟩ := hop
    exact ⟨ys, mapM_snd_mono h terms hys, rest⟩

namespace Graph

variable {α : Type} [Scalar α]

/-- The value of an operand for given inputs, looked for within a depth. -/
def value? (g : Graph α) (inputs : List α) : Nat → Arg α → Option α
  | _, .const v => some v
  | 0, .node _ => none
  | depth + 1, .node id => do
    match ← g.operation? id with
    | .independent => inputs[← g.rosterIndex? id]?
    | op => (← op.mapM? (g.value? inputs depth)).value?

/-- A constant is its own value. -/
@[simp] theorem value?_const (g : Graph α) (inputs : List α) (depth : Nat) (v : α) :
    g.value? inputs depth (.const v) = some v := by
  cases depth <;> rfl

/-- The value of a live node, from the values of its operands. -/
theorem value?_node (g : Graph α) (inputs : List α) (depth : Nat) (id : NodeId) :
    g.value? inputs (depth + 1) (.node id) =
      (g.operation? id).bind fun op =>
        match op with
        | .independent => (g.rosterIndex? id).bind fun i => inputs[i]?
        | op => (op.mapM? (g.value? inputs depth)).bind Operation.value? := by
  rfl

/-- A larger depth keeps the value. -/
theorem value?_succ {g : Graph α} {inputs : List α} {depth : Nat} {x : Arg α} {v : α}
    (h : g.value? inputs depth x = some v) : g.value? inputs (depth + 1) x = some v := by
  induction depth generalizing x v with
  | zero =>
    cases x with
    | const w => simpa using h
    | node id => simp [value?] at h
  | succ depth ih =>
    cases x with
    | const w => simpa using h
    | node id =>
      rw [value?_node] at h ⊢
      obtain ⟨op, hop, hv⟩ := Option.bind_eq_some_iff.mp h
      refine Option.bind_eq_some_iff.mpr ⟨op, hop, ?_⟩
      cases op with
      | independent => exact hv
      | _ =>
        obtain ⟨result, hresult, hvalue⟩ := Option.bind_eq_some_iff.mp hv
        exact Option.bind_eq_some_iff.mpr
          ⟨result, Operation.mapM?_mono (fun y w hy => ih hy) hresult, hvalue⟩

/-- A value found within some depth is found within every larger one. -/
theorem value?_of_le {g : Graph α} {inputs : List α} {depth depth' : Nat} {x : Arg α} {v : α}
    (hle : depth ≤ depth') (h : g.value? inputs depth x = some v) :
    g.value? inputs depth' x = some v := by
  induction hle with
  | refl => exact h
  | step _ ih => exact value?_succ ih

end Graph

end Straightline
