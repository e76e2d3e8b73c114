import Mathlib.Data.List.Induction
import Straightline.Proofs.Generation.Chains
import Straightline.Proofs.Generation.Flattening

/-!
# Flattening as a run

What standing for one recorded node can do, and what a whole run maintains: the structure of the
built nodes, and whatever every turn keeps.
-/

namespace Straightline

namespace Flattening

variable {α : Type} {g : Graph α} {outputs : List (Arg α)} {seen done : List NodeId}
  {owner owner' : NodeId → NodeId} {f f' : Flattening α} {id : NodeId}

/-- A node is an alias only as a copy. -/
theorem not_isAlias {op : Operation (Arg α)} (hop : g.operation? id = some op)
    (hne : ∀ x, op ≠ .copy x) : ¬ g.IsAlias id := by
  rintro ⟨_, x, hcopy⟩
  rw [hop, Option.some_inj] at hcopy
  exact hne x hcopy

/-- The turn of an arithmetic node. -/
theorem ready_arith (hg : g.Flattenable outputs seen) (hid : id ∈ seen) (hnew : id ∉ done)
    (hdeps : ∀ k ∈ g.references id, k ∈ done) {tag : Tag} {l r : Arg α}
    (hop : g.operation? id = some (.binary (.arith tag) l r)) : Ready g seen done id :=
  ready hg hid hnew hdeps hop (by simp) (not_isAlias hop (by simp))

/-- Everything that standing for a recorded node does: the case that applies, what was tried before
it, and the name that a built node takes. -/
inductive Turn (g : Graph α) (owner : NodeId → NodeId) (f : Flattening α) (id : NodeId) :
    (NodeId → NodeId) → Flattening α → Prop where
  /-- An independent variable stands for itself. -/
  | independent (hop : g.operation? id = some .independent) :
      Turn g owner f id owner (f.remember id (.node id))
  /-- What stands for its operand stands for an alias. -/
  | unwrap {x : Arg α} (hop : g.operation? id = some (.copy x)) (hslot : g.slot id = 0) :
      Turn g owner f id owner (f.remember id (f.image x))
  /-- A new built node stands for a node that splices no operand. -/
  | derive {node : Node α} (hnode : g.node? id = some node) (hplain : ¬ g.IsAlias id)
      (hne : node.operation ≠ .independent)
      (hnone : ∀ tag l r, node.operation = .binary (.arith tag) l r →
        f.spliceable? g tag.family l = none ∧ f.spliceable? g tag.family r = none) :
      Turn g owner f id (Function.update owner f.next id)
        (f.derive id node.name (node.operation.map f.image))
  /-- The built node of an operand is taken over, that of the left one if it is spliced, after that
  of the right operand was written as a chain if both operands are spliced. -/
  | splice {node : Node α} {tag : Tag} {l r x : Arg α} {host : NodeId}
      {terms : List (Sense × Arg α)} {f₁ : Flattening α} (hnode : g.node? id = some node)
      (hop : node.operation = .binary (.arith tag) l r) (hx : x = l ∨ x = r)
      (hfirst : x = l ∨ f.spliceable? g tag.family l = none)
      (hsome : f.spliceable? g tag.family x = some (host, terms))
      (hright : f₁ = f ∨ ∃ right ts, f.spliceable? g tag.family r = some (right, ts) ∧
        f₁ = f.makeChain right tag.family ts) :
      Turn g owner f id (Function.update owner host id)
        (f₁.assign id node.name host (.chain tag.family
          (f.operandTerms g tag.family l ++ tag.sense.through (f.operandTerms g tag.family r))))

theorem operation?_of_node {node : Node α} (hnode : g.node? id = some node) :
    g.operation? id = some node.operation := by
  rw [Graph.operation?, hnode, Option.map_some]

/-- Standing for an arithmetic node derives a node or takes one over. -/
theorem turn_combine (owner : NodeId → NodeId) (f : Flattening α) {node : Node α}
    (hnode : g.node? id = some node) {tag : Tag} {l r : Arg α}
    (hop : node.operation = .binary (.arith tag) l r) :
    ∃ owner', Turn g owner f id owner' (f.combine g id node.name tag l r) := by
  by_cases hnone : f.spliceable? g tag.family l = none ∧ f.spliceable? g tag.family r = none
  · have hderived : f.combine g id node.name tag l r =
        f.derive id node.name (node.operation.map f.image) := by
      rw [combine, hnone.1, hnone.2, hop]
      rfl
    rw [hderived]
    refine ⟨_, .derive hnode (not_isAlias (operation?_of_node hnode) (by simp [hop]))
      (by simp [hop]) fun tag' l' r' heq => ?_⟩
    obtain ⟨⟨rfl⟩, rfl, rfl⟩ : Binary.arith tag = .arith tag' ∧ l = l' ∧ r = r' := by
      simpa [hop] using heq
    exact hnone
  · obtain ⟨x, host, terms, f₁, hx, hfirst, hsome, hright, heq⟩ :=
      exists_combine g f id node.name tag (not_and_or.mp hnone)
    rw [heq]
    exact ⟨_, .splice hnode hop hx hfirst hsome hright⟩

/-- What standing for a live node can do. -/
theorem exists_turn (owner : NodeId → NodeId) (f : Flattening α)
    (hslot : f.slots.get id = g.slot id) (hlive : g.contains id = true) :
    ∃ owner', Turn g owner f id owner' (f.build g id) := by
  obtain ⟨node, hnode⟩ := Option.isSome_iff_exists.mp hlive
  have hop := operation?_of_node hnode
  simp only [build, hnode]
  split
  · next heq => exact ⟨owner, .independent (heq ▸ hop)⟩
  · next x heq =>
    rw [hslot]
    split
    · next hzero => exact ⟨owner, .unwrap (heq ▸ hop) hzero⟩
    · next hstored =>
      have hderived : f.derive id node.name (.copy (f.image x)) =
          f.derive id node.name (node.operation.map f.image) := by
        rw [heq]
        rfl
      rw [hderived]
      exact ⟨_, .derive hnode (fun halias => hstored halias.1) (by simp [heq]) (by simp [heq])⟩
  · next tag l r heq => exact turn_combine owner f hnode heq
  · next hindependent hcopy harith =>
    exact ⟨_, .derive hnode (not_isAlias hop hcopy) hindependent fun tag l r heq =>
      absurd heq (harith tag l r)⟩

/-- A node that can be spliced is at most written as a chain. -/
theorem Valid.reshapes (hg : g.Flattenable outputs seen) (h : Valid g seen done owner f)
    (hid : Ready g seen done id) {r : Arg α} (hr : OperandOf g id r) {family : Family}
    {f₁ : Flattening α} (hright : f₁ = f ∨ ∃ right terms,
      f.spliceable? g family r = some (right, terms) ∧ f₁ = f.makeChain right family terms) :
    Reshapes f f₁ := by
  rcases hright with rfl | ⟨right, terms, hsome, rfl⟩
  · exact Reshapes.refl f₁
  · obtain ⟨a, n, hspliced⟩ := h.spliced hg hid hr hsome
    exact reshapes_makeChain hspliced.node hspliced.terms

/-- One turn keeps the invariant. -/
theorem Valid.turn (hg : g.Flattenable outputs seen) (h : Valid g seen done owner f)
    (hid : id ∈ seen) (hnew : id ∉ done) (hdeps : ∀ k ∈ g.references id, k ∈ done)
    (hturn : Turn g owner f id owner' f') : Valid g seen (done ++ [id]) owner' f' := by
  cases hturn with
  | independent hop =>
    refine h.remember hid hnew .refl ?_ (.inl (.independent (hg.listed id hop)))
    intro k hk
    obtain rfl : id = k := by simpa using hk
    exact not_isAlias hop (by simp)
  | @unwrap x hop hslot =>
    have halias : g.Alias (.node id) x := ⟨id, rfl, hslot, hop⟩
    cases x with
    | const v =>
      exact h.remember hid hnew (.single halias) (fun _ heq => by simp at heq) (.inl (.const v))
    | node a =>
      obtain ⟨r, hres, hend, hstands⟩ := h.image a (hdeps a halias.mem_references)
      exact h.remember hid hnew (.head halias hres) hend hstands
  | derive hnode hplain hne _ =>
    have hop := operation?_of_node hnode
    exact h.derive hg (ready hg hid hnew hdeps hop hne hplain) _ hop hne
  | @splice node tag l r x host terms f₁ hnode heq hx _ hsome hright =>
    have hop : g.operation? id = some (.binary (.arith tag) l r) :=
      heq ▸ operation?_of_node hnode
    have hready := ready_arith hg hid hnew hdeps hop
    have hr := operandOf_binary hop (.inr rfl)
    exact h.splice hg hready (operandOf_binary hop (.inl rfl)) hr (operandOf_binary hop hx) hsome
      (h.reshapes hg hready hr hright)

/-- The state before the first node. -/
def start (g : Graph α) : Flattening α :=
  { next := g.next, slots := g.pass.slots, ranks := g.pass.ranks, refs := g.pass.refs }

theorem valid_start (g : Graph α) (seen : List NodeId) :
    Valid g seen [] (fun id => id) (start g) where
  reached := by simp
  next_le := Nat.le_refl _
  slots _ _ := rfl
  ranks _ _ := rfl
  refs _ _ := rfl
  owner_of_lt _ _ := rfl
  range b n hb := by simp [start] at hb
  owner_mem b n hb := by simp [start] at hb
  owner_inj b n c m hb := by simp [start] at hb
  slot b n hb := by simp [start] at hb
  rank b n hb := by simp [start] at hb
  operation b n hb := by simp [start] at hb
  chains b n family terms hb := by simp [start] at hb
  reference b n hb := by simp [start] at hb
  image := by simp

/-- What holds at the start and is kept by every turn holds after the run, of the built nodes and
their owners. -/
theorem exists_run_of_turn (hg : g.Flattenable outputs seen)
    {P : List NodeId → (NodeId → NodeId) → Flattening α → Prop}
    (hstart : P [] (fun id => id) (start g))
    (hturn : ∀ done owner f id owner' f', Valid g seen done owner f → id ∈ seen → id ∉ done →
      (∀ k ∈ g.references id, k ∈ done) → Turn g owner f id owner' f' → P done owner f →
      P (done ++ [id]) owner' f')
    (done rest : List NodeId) (hnodup : (done ++ rest).Nodup)
    (hsorted : Sorted (fun a b => b ∈ g.references a) (done ++ rest))
    (hseen : ∀ id ∈ done ++ rest, id ∈ seen) :
    ∃ owner, Valid g seen done owner (done.foldl (Flattening.build g) (start g)) ∧
      P done owner (done.foldl (Flattening.build g) (start g)) := by
  induction done using List.reverseRecOn generalizing rest with
  | nil => exact ⟨fun id => id, valid_start g seen, hstart⟩
  | append_singleton done id ih =>
    rw [List.append_assoc] at hnodup hsorted hseen
    obtain ⟨owner, hvalid, hP⟩ := ih _ hnodup hsorted hseen
    have hid : id ∈ seen := hseen id (by simp)
    have hnew : id ∉ done := by
      intro hmem
      exact (List.nodup_append.mp hnodup).2.2 id hmem id (by simp) rfl
    have hdeps : ∀ k ∈ g.references id, k ∈ done := hsorted done id rest (by simp)
    obtain ⟨owner', hbuilt⟩ := exists_turn owner (done.foldl (Flattening.build g) (start g))
      (hvalid.slots id (hg.lt_of_seen hid)) (hg.contains_of_seen hid)
    rw [List.foldl_append, List.foldl_cons, List.foldl_nil]
    exact ⟨owner', hvalid.turn hg hid hnew hdeps hbuilt,
      hturn done owner _ id owner' _ hvalid hid hnew hdeps hbuilt hP⟩

end Flattening

end Straightline
