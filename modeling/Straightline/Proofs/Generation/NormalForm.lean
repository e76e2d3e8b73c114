import Straightline.Proofs.Generation.Storage

/-!
# The form of flattened graphs

What the nodes of a flattened graph look like that are in use: those which its stored nodes and its
outputs reach. Everything follows from the shape of the built nodes. A built node whose owner was
spliced is out of use, because an exclusive operand has one reader only and that reader spliced it.
So chains in use have the terms of a node that splices an operand, at least three and the first of
them direct. If every node without a slot is used once, each operand that could be spliced is.
-/

namespace Straightline

namespace Graph

variable {α : Type} {g : Graph α} {roots seen : List NodeId} {family : Family} {x y : Arg α}
  {id c a t : NodeId} {op : Operation (Arg α)} {terms : List (Sense × Arg α)}

/-- A node that is counted splices another. -/
def IsSpliced (g : Graph α) (seen : List NodeId) (t : NodeId) : Prop :=
  ∃ c ∈ seen, ∃ tag l r x, g.operation? c = some (.binary (.arith tag) l r) ∧ (x = l ∨ x = r) ∧
    g.Splices tag.family x t

/-- A node reads what is behind one of its operands and does not splice it. -/
structure Spares (g : Graph α) (c : NodeId) (x y : Arg α) : Prop where
  /-- The reader is not an alias. -/
  plain : ¬ g.IsAlias c
  /-- The operand is one of its own. -/
  operand : Flattening.OperandOf g c x
  /-- The way through the aliases. -/
  resolves : g.Resolves x y
  /-- The operand is not spliced. -/
  kept : ∀ tag l r, g.operation? c = some (.binary (.arith tag) l r) →
    ∀ t, ¬ g.Splices tag.family x t

/-- Only nodes lead to nodes. -/
theorem Resolves.exists_node (h : g.Resolves x (.node t)) : ∃ a, x = .node a := by
  rcases h.cases_head with heq | ⟨_, hstep, _⟩
  · exact ⟨t, heq⟩
  · exact hstep.exists_node

/-- What a node spares is spliced by no other node. -/
theorem Spares.not_isSpliced
    (hcounted : References.Counted g.references roots seen [] g.pass.refs) (hc : c ∈ seen)
    (h : g.Spares c x (.node t)) : ¬ g.IsSpliced seen t := by
  rintro ⟨d, hd, tag, l, r, z, hop, hz, hsplices⟩
  obtain ⟨a, rfl⟩ := Resolves.exists_node h.resolves
  obtain ⟨b, rfl, hexclusive⟩ := hsplices.exclusive
  obtain ⟨rfl, rfl⟩ := hexclusive.unique hcounted h.resolves hd hc
    (Flattening.not_isAlias hop (by simp)) h.plain (Flattening.operandOf_binary hop hz b rfl)
    (h.operand a rfl)
  exact h.kept tag l r hop t hsplices

/-- The terms that an operand contributes are spared by nodes of the family. -/
theorem Contributes.exists_spares (h : g.Contributes family x terms)
    (hcounted : References.Counted g.references roots seen [] g.pass.refs) (hc : c ∈ seen)
    {sense : Sense} {l r : Arg α}
    (hop : g.operation? c = some (.binary (.arith ⟨family, sense⟩) l r)) (hx : x = l ∨ x = r)
    (hy : y ∈ terms.map Prod.snd) :
    ∃ d ∈ seen, ∃ z, g.Spares d z y ∧
      ∃ sense l r, g.operation? d = some (.binary (.arith ⟨family, sense⟩) l r) := by
  induction h generalizing c sense l r with
  | @single x z hkept hres _ =>
    obtain rfl : y = z := by simpa using hy
    refine ⟨c, hc, x, ⟨Flattening.not_isAlias hop (by simp), Flattening.operandOf_binary hop hx,
      hres, fun tag l' r' hop' => ?_⟩, sense, l, r, hop⟩
    obtain ⟨⟨rfl⟩, _, _⟩ : Binary.arith ⟨family, sense⟩ = .arith tag ∧ _ ∧ _ := by
      simpa using hop.symm.trans hop'
    exact hkept
  | @spliced x l' r' t sense' ls rs hsplices hop' _ _ ihl ihr =>
    have ht : t ∈ seen := by
      obtain ⟨a, rfl, hexclusive⟩ := hsplices.exclusive
      exact Resolves.mem_seen hcounted hexclusive.resolves
        (hcounted.mem_of_deps hc (Flattening.operandOf_binary hop hx a rfl))
    rw [List.map_append, List.mem_append, Flattening.map_snd_through] at hy
    rcases hy with hy | hy
    · exact ihl ht hop' (.inl rfl) hy
    · exact ihr ht hop' (.inr rfl) hy

/-- The operands of what a node flattens to are spared, by nodes of its family if it has one. -/
theorem Flattens.exists_spares (h : g.Flattens id op)
    (hunchained : ∀ own ts, g.operation? id ≠ some (.chain own ts))
    (hcounted : References.Counted g.references roots seen [] g.pass.refs) (hid : id ∈ seen)
    (hy : y ∈ op.operands) :
    ∃ c ∈ seen, ∃ x, g.Spares c x y ∧ ∀ family, (op.terms? family).isSome = true →
      ∃ sense l r, g.operation? c = some (.binary (.arith ⟨family, sense⟩) l r) := by
  cases h with
  | @kept op ρ hop hne hplain hkept hρ =>
    rw [Operation.operands_map, List.mem_map] at hy
    obtain ⟨x, hx, rfl⟩ := hy
    refine ⟨id, hid, x, ⟨hplain, Flattening.operandOf_of_mem hop hx, (hρ x hx).1, ?_⟩, ?_⟩
    · intro tag l r hop'
      obtain rfl := Option.some.inj (hop.symm.trans hop')
      rcases (by simpa [Operation.operands] using hx : x = l ∨ x = r) with rfl | rfl
      · exact (hkept tag _ _ rfl).1
      · exact (hkept tag _ _ rfl).2
    · intro family hfamily
      rw [Operation.terms?_map, Option.isSome_map] at hfamily
      obtain ⟨terms, hterms⟩ := Option.isSome_iff_exists.mp hfamily
      rcases Flattening.terms?_eq_some hterms with ⟨sense, l, r, rfl, _⟩ | rfl
      · exact ⟨sense, l, r, hop⟩
      · exact absurd hop (hunchained family terms)
  | @chained tag l r ls rs hop _ hl hr =>
    have hspares : ∃ d ∈ seen, ∃ z, g.Spares d z y ∧
        ∃ sense l r, g.operation? d = some (.binary (.arith ⟨tag.family, sense⟩) l r) := by
      simp only [Operation.operands, List.map_append, List.mem_append,
        Flattening.map_snd_through] at hy
      rcases hy with hy | hy
      · exact hl.exists_spares hcounted hid hop (.inl rfl) hy
      · exact hr.exists_spares hcounted hid hop (.inr rfl) hy
    obtain ⟨d, hd, z, hz, hfamily⟩ := hspares
    refine ⟨d, hd, z, hz, fun family hsome => ?_⟩
    obtain rfl : tag.family = family := by
      by_contra hne
      simp [Operation.terms?, hne] at hsome
    exact hfamily

/-- An operand contributes a direct term first. -/
theorem Contributes.exists_cons (h : g.Contributes family x terms) :
    ∃ y rest, terms = (.direct, y) :: rest := by
  induction h with
  | single _ _ _ => exact ⟨_, [], rfl⟩
  | spliced _ _ _ _ ihl _ =>
    obtain ⟨y, rest, rfl⟩ := ihl
    exact ⟨y, _, rfl⟩

/-- A spliced operand contributes two terms or more. -/
theorem Contributes.two_le_length (h : g.Contributes family x terms)
    (hsplices : g.Splices family x t) : 2 ≤ terms.length := by
  cases h with
  | single hkept _ _ => exact absurd hsplices (hkept t)
  | spliced _ _ hl hr =>
    obtain ⟨_, _, rfl⟩ := hl.exists_cons
    obtain ⟨_, _, rfl⟩ := hr.exists_cons
    simp only [Sense.through_eq_map, List.length_append, List.length_cons, List.length_map]
    omega

/-- A node that becomes a chain has three terms or more, the first of them direct. -/
theorem Flattens.of_chain (h : g.Flattens id (.chain family terms))
    (hunchained : ∀ own ts, g.operation? id ≠ some (.chain own ts)) :
    3 ≤ terms.length ∧ ∃ y rest, terms = (.direct, y) :: rest := by
  generalize hchain : Operation.chain family terms = op at h
  cases h with
  | @kept op ρ hop =>
    cases op with
    | chain own ts => exact absurd hop (hunchained own ts)
    | _ => simp [Operation.map] at hchain
  | @chained tag l r ls rs hop hsome hl hr =>
    obtain ⟨rfl, rfl⟩ : family = tag.family ∧ terms = ls ++ tag.sense.through rs := by
      simpa using hchain
    have htwo : 2 ≤ ls.length ∨ 2 ≤ rs.length := by
      rcases hsome with ⟨_, ht⟩ | ⟨_, ht⟩
      · exact .inl (hl.two_le_length ht)
      · exact .inr (hr.two_le_length ht)
    obtain ⟨y, rest, rfl⟩ := hl.exists_cons
    obtain ⟨_, _, rfl⟩ := hr.exists_cons
    refine ⟨?_, y, _, rfl⟩
    simp only [Sense.through_eq_map, List.length_append, List.length_cons, List.length_map]
      at htwo ⊢
    omega

/-- If every node without a slot is used once, the way through aliases to one is exclusive. -/
theorem exclusive_of_resolves
    (hcounted : References.Counted g.references roots seen [] g.pass.refs)
    (honce : ∀ k ∈ seen, g.slot k = 0 → g.pass.refs.get k ≤ 1) (ha : a ∈ seen)
    (h : g.Resolves (.node a) (.node t)) (hslot : g.slot t = 0) : g.Exclusive a t := by
  generalize hx : Arg.node a = x at h
  induction h using Relation.ReflTransGen.head_induction_on generalizing a with
  | refl =>
    obtain rfl : a = t := by simpa using hx
    exact ⟨honce a ha hslot, .refl⟩
  | head hstep hrest ih =>
    subst hx
    obtain ⟨b, rfl⟩ := Resolves.exists_node hrest
    have hnext := ih (hcounted.mem_of_deps ha hstep.mem_references) rfl
    refine ⟨honce a ha hstep.isAlias.1, .head ⟨hstep, ?_⟩ hnext.2⟩
    rintro k heq
    obtain rfl : b = k := by simpa using heq
    exact hnext.1

end Graph

namespace Flattening

variable {α : Type} {g : Graph α} {outputs : List (Arg α)} {seen done : List NodeId}
  {owner : NodeId → NodeId} {f : Flattening α} {b k : NodeId}

/-- A node of the flattened graph that is in use: an independent variable, or a built node whose
owner was not spliced. -/
def InUse (g : Graph α) (seen : List NodeId) (owner : NodeId → NodeId) (f : Flattening α)
    (k : NodeId) : Prop :=
  k ∈ g.roster ∨ (∃ n, f.nodes.get k = some n) ∧ ¬ g.IsSpliced seen (owner k)

/-- A built node in use has the operation that its owner flattens to. -/
theorem Shaped.flattens (h : Valid g seen done owner f) (hshaped : Shaped g done owner f)
    {n : Node α} (hn : f.nodes.get b = some n) (hkept : ¬ g.IsSpliced seen (owner b)) :
    g.Flattens (owner b) (n.operation.map (Arg.rename owner)) := by
  obtain ⟨op, hflat, rfl | ⟨⟨c, hc, tag, l, r, hop, hsplices⟩, _⟩⟩ := hshaped b n hn
  · exact hflat
  · exact absurd ⟨c, h.reached c hc, tag, l, r, r, hop, .inr rfl, hsplices⟩ hkept

/-- What has a slot was not spliced. -/
theorem not_isSpliced_of_slot {t : NodeId} (hslot : g.slot t ≠ 0) : ¬ g.IsSpliced seen t := by
  rintro ⟨_, _, _, _, _, _, _, _, hsplices⟩
  exact hslot hsplices.slot

/-- The stored nodes and the outputs are in use. -/
theorem Valid.inUse_root (hg : g.Flattenable outputs seen) (h : Valid g seen done owner f)
    (hdone : ∀ id ∈ seen, id ∈ done)
    (hk : .node k ∈ (f.graph g).order.map Arg.node ++ outputs.map f.image) :
    InUse g seen owner f k := by
  have hstored : ∀ id ∈ g.order, ¬ g.IsSpliced seen id := by
    intro id hid
    exact not_isSpliced_of_slot (Nat.ne_of_gt (Nat.zero_lt_of_lt (hg.slot_gt id hid)))
  rcases List.mem_append.mp hk with hk | hk
  · obtain ⟨b, hb, heq⟩ := List.mem_map.mp hk
    obtain rfl : b = k := by simpa using heq
    obtain ⟨horder, hbuilt⟩ := (h.mem_order hg hdone).mp hb
    exact .inr ⟨hbuilt, hstored _ horder⟩
  · rcases h.image_cases hg hdone hk with hroster | ⟨hbuilt, houtput⟩
    · exact .inl hroster
    · obtain ⟨n, hn⟩ := hbuilt
      obtain ⟨horder, _⟩ := (hg.results _ houtput).resolve_left (h.owner_mem k n hn).2
      exact .inr ⟨⟨n, hn⟩, hstored _ horder⟩

/-- An operand of a built node in use has an owner that a node of its family spares. -/
theorem Valid.exists_spares (hg : g.Flattenable outputs seen) (h : Valid g seen done owner f)
    (hshaped : Shaped g done owner f) {n : Node α} (hn : f.nodes.get b = some n)
    (hkept : ¬ g.IsSpliced seen (owner b)) (hk : k ∈ n.operation.references) :
    ∃ c ∈ seen, ∃ x, g.Spares c x (.node (owner k)) ∧
      ∀ family, (n.operation.terms? family).isSome = true →
        ∃ sense l r, g.operation? c = some (.binary (.arith ⟨family, sense⟩) l r) := by
  have hflat := hshaped.flattens h hn hkept
  have hmem : Arg.node (owner k) ∈ (n.operation.map (Arg.rename owner)).operands := by
    rw [← Operation.mem_references, Operation.references_rename]
    exact List.mem_map_of_mem hk
  obtain ⟨c, hc, x, hspares, hfamily⟩ := hflat.exists_spares (unchained hg _) hg.counted
    (h.reached _ (h.owner_mem b n hn).1) hmem
  refine ⟨c, hc, x, hspares, fun family hsome => hfamily family ?_⟩
  rwa [Operation.terms?_map, Option.isSome_map]

/-- What a node in use refers to is in use. -/
theorem Valid.inUse_step (hg : g.Flattenable outputs seen) (h : Valid g seen done owner f)
    (hshaped : Shaped g done owner f) (hb : InUse g seen owner f b)
    (hk : k ∈ (f.graph g).references b) : InUse g seen owner f k := by
  rcases hb with hroster | ⟨⟨n, hn⟩, hkept⟩
  · rw [Graph.references_of_operation (operation?_graph hg (hg.roster_independent b hroster))] at hk
    simp [Operation.references, Operation.operands] at hk
  · refine (h.references_built hg hn hk).imp_right fun hbuilt => ⟨hbuilt, ?_⟩
    rw [Graph.references_of_operation (h.operation?_built hg hn)] at hk
    obtain ⟨c, hc, x, hspares, _⟩ := h.exists_spares hg hshaped hn hkept hk
    exact hspares.not_isSpliced hg.counted hc

/-- All that the stored nodes and the outputs reach is in use. -/
theorem Valid.inUse (hg : g.Flattenable outputs seen) (h : Valid g seen done owner f)
    (hdone : ∀ id ∈ seen, id ∈ done) (hshaped : Shaped g done owner f)
    (hk : (f.graph g).Reached ((f.graph g).order.map Arg.node ++ outputs.map f.image) k) :
    InUse g seen owner f k := by
  obtain ⟨root, hroot, hreach⟩ := hk
  induction hreach with
  | refl => exact h.inUse_root hg hdone hroot
  | tail _ hstep ih => exact h.inUse_step hg hshaped ih hstep

/-- A node in use is an independent variable, or it has the operation that its owner flattens to. -/
theorem Valid.flattens_of_inUse (hg : g.Flattenable outputs seen) (h : Valid g seen done owner f)
    (hshaped : Shaped g done owner f) (hk : InUse g seen owner f k) {op : Operation (Arg α)}
    (hop : (f.graph g).operation? k = some op) :
    op = .independent ∨ (∃ n, f.nodes.get k = some n ∧ n.operation = op) ∧
      g.Flattens (owner k) (op.map (Arg.rename owner)) := by
  rcases hk with hroster | ⟨⟨n, hn⟩, hkept⟩
  · rw [operation?_graph hg (hg.roster_independent k hroster), Option.some_inj] at hop
    exact .inl hop.symm
  · rw [h.operation?_built hg hn, Option.some_inj] at hop
    subst hop
    exact .inr ⟨⟨n, hn, rfl⟩, hshaped.flattens h hn hkept⟩

/-- A chain in use has three terms or more, the first of them direct. -/
theorem Valid.chain_inUse (hg : g.Flattenable outputs seen) (h : Valid g seen done owner f)
    (hshaped : Shaped g done owner f) (hk : InUse g seen owner f k) {family : Family}
    {terms : List (Sense × Arg α)} (hop : (f.graph g).operation? k = some (.chain family terms)) :
    3 ≤ terms.length ∧ ∃ y rest, terms = (.direct, y) :: rest := by
  obtain ⟨_, hflat⟩ := (h.flattens_of_inUse hg hshaped hk hop).resolve_left (by simp)
  obtain ⟨hlength, y, rest, heq⟩ := hflat.of_chain (unchained hg _)
  rw [List.length_map] at hlength
  refine ⟨hlength, ?_⟩
  cases terms with
  | nil => simp at heq
  | cons t rest =>
    obtain ⟨sense, z⟩ := t
    obtain ⟨⟨rfl, _⟩, _⟩ : (sense = .direct ∧ _) ∧ _ := by simpa using heq
    exact ⟨z, rest, rfl⟩

/-- A copy in use has a slot. -/
theorem Valid.copy_inUse (hg : g.Flattenable outputs seen) (h : Valid g seen done owner f)
    (hshaped : Shaped g done owner f) (hk : InUse g seen owner f k) {x : Arg α}
    (hop : (f.graph g).operation? k = some (.copy x)) : (f.graph g).slot k ≠ 0 := by
  obtain ⟨⟨n, hn, _⟩, hflat⟩ := (h.flattens_of_inUse hg hshaped hk hop).resolve_left (by simp)
  rw [h.slot_built hg ⟨n, hn⟩]
  intro hslot
  generalize hcopy : (Operation.copy x).map (Arg.rename owner) = op at hflat
  cases hflat with
  | @kept op ρ hop' _ hplain =>
    cases op with
    | copy y => exact hplain ⟨hslot, y, hop'⟩
    | _ => simp [Operation.map] at hcopy
  | chained => simp [Operation.map] at hcopy

/-- If every node without a slot is used once, no operand in use could still be spliced. -/
theorem Valid.complete_inUse (hg : g.Flattenable outputs seen) (h : Valid g seen done owner f)
    (hshaped : Shaped g done owner f) (honce : ∀ k ∈ seen, g.slot k = 0 → g.pass.refs.get k ≤ 1)
    (hb : InUse g seen owner f b) {op op' : Operation (Arg α)}
    (hop : (f.graph g).operation? b = some op) {family : Family}
    (hfamily : (op.terms? family).isSome = true) (hk : k ∈ op.references)
    (hslot : (f.graph g).slot k = 0) (hop' : (f.graph g).operation? k = some op') :
    op'.terms? family = none := by
  have hmem : k ∈ (f.graph g).references b := by rwa [Graph.references_of_operation hop]
  have hused := h.inUse_step hg hshaped hb hmem
  by_contra hsome
  obtain ⟨terms, hterms⟩ := Option.ne_none_iff_exists'.mp hsome
  -- The owner of the operand is an arithmetic node of the family.
  have hne : op' ≠ .independent := by
    rintro rfl
    cases hterms
  obtain ⟨⟨m, hm, rfl⟩, hflat⟩ := (h.flattens_of_inUse hg hshaped hused hop').resolve_left hne
  have hrenamed : (m.operation.map (Arg.rename owner)).terms? family =
      some (terms.map fun t => (t.1, t.2.rename owner)) := by
    rw [Operation.terms?_map, hterms, Option.map_some]
  obtain ⟨sense, l, r, _, _, harith, _⟩ := hflat.exists_contributes (unchained hg _) hrenamed
  -- Its reader has the family too, so it would have spliced the operand.
  have hne' : op ≠ .independent := by
    rintro rfl
    cases hfamily
  obtain ⟨⟨n, hn, rfl⟩, _⟩ := (h.flattens_of_inUse hg hshaped hb hop).resolve_left hne'
  rcases hb with hroster | ⟨_, hkept⟩
  · exact absurd hroster (h.not_mem_roster hg hn)
  · obtain ⟨c, hc, x, hspares, hreader⟩ := h.exists_spares hg hshaped hn hkept hk
    obtain ⟨sense', l', r', hopc⟩ := hreader family hfamily
    obtain ⟨a, rfl⟩ := Graph.Resolves.exists_node hspares.resolves
    rw [h.slot_built hg ⟨m, hm⟩] at hslot
    have ha := hg.counted.mem_of_deps hc (hspares.operand a rfl)
    exact hspares.kept _ l' r' hopc (owner k)
      ⟨⟨a, rfl, Graph.exclusive_of_resolves hg.counted honce ha hspares.resolves hslot⟩, hslot,
        sense, l, r, harith⟩

end Flattening

namespace Graph

variable {α : Type} {g : Graph α} {policy : Policy α} {outputs : List (Arg α)} {seen : List NodeId}
  {k : NodeId} {op : Operation (Arg α)}

/-- The form of a node of a flattened graph. -/
structure NormalNode (g : Graph α) (id : NodeId) (op : Operation (Arg α)) : Prop where
  /-- A chain has an operator for each operand, three or more, all of its family and the first of
  them direct. -/
  chain : ∀ family, op.opcode = .chain family → op.tags.length = op.operands.length ∧
    3 ≤ op.operands.length ∧ (∀ tag ∈ op.tags, tag.family = family) ∧
    op.tags.head? = some ⟨family, .direct⟩
  /-- Any other operation has none. -/
  untagged : op.opcode.isChain = false → op.tags = []
  /-- A copy has a slot. -/
  copy : op.opcode = .copy → g.slot id ≠ 0

/-- No operand without a slot has terms of a family that the operation has terms of. -/
def FullyFlat (g : Graph α) (op : Operation (Arg α)) : Prop :=
  ∀ family, (op.terms? family).isSome = true → ∀ k ∈ op.references, g.slot k = 0 →
    ∀ op', g.operation? k = some op' → op'.terms? family = none

/-- The nodes of a flattened graph that its stored nodes and its outputs reach have the form. -/
theorem Flattenable.normalNode_flatten (hg : g.Flattenable outputs seen)
    (hk : (g.flatten outputs).2.Reached
      ((g.flatten outputs).2.order.map Arg.node ++ (g.flatten outputs).1) k)
    (hop : (g.flatten outputs).2.operation? k = some op) :
    (g.flatten outputs).2.NormalNode k op := by
  obtain ⟨done, owner, f, heq, hvalid, hdone, hshaped⟩ := hg.exists_flatten
  rw [heq] at hk hop ⊢
  have hused := hvalid.inUse hg hdone hshaped hk
  refine ⟨fun family hcode => ?_, fun hcode => ?_, fun hcode => ?_⟩
  · cases op with
    | chain own terms =>
      obtain rfl : own = family := by simpa [Operation.opcode] using hcode
      obtain ⟨hlength, y, rest, hterms⟩ := hvalid.chain_inUse hg hshaped hused hop
      refine ⟨by simp [Operation.tags, Operation.operands],
        by simpa [Operation.operands] using hlength, ?_, by rw [hterms]; rfl⟩
      intro tag htag
      obtain ⟨t, _, rfl⟩ := List.mem_map.mp htag
      rfl
    | _ => simp [Operation.opcode] at hcode
  · cases op with
    | chain own terms => simp [Operation.opcode, Opcode.isChain] at hcode
    | _ => rfl
  · cases op with
    | copy x => exact hvalid.copy_inUse hg hshaped hused hop
    | _ => simp [Operation.opcode] at hcode

/-- If every node without a slot is used once, they are fully flat. -/
theorem Flattenable.fullyFlat_flatten (hg : g.Flattenable outputs seen)
    (honce : ∀ k ∈ seen, g.slot k = 0 → g.pass.refs.get k ≤ 1)
    (hk : (g.flatten outputs).2.Reached
      ((g.flatten outputs).2.order.map Arg.node ++ (g.flatten outputs).1) k)
    (hop : (g.flatten outputs).2.operation? k = some op) :
    (g.flatten outputs).2.FullyFlat op := by
  obtain ⟨done, owner, f, heq, hvalid, hdone, hshaped⟩ := hg.exists_flatten
  rw [heq] at hk hop ⊢
  intro family hfamily j hj hslot op' hop'
  exact hvalid.complete_inUse hg hshaped honce (hvalid.inUse hg hdone hshaped hk) hop hfamily hj
    hslot hop'

/-- Sharing slots changes neither the live nodes nor the order. -/
theorem reached_shared (g : Graph α) (reuse : Bool) (args : List (Arg α)) :
    (g.shared reuse).Reached ((g.shared reuse).order.map Arg.node ++ args) k ↔
      g.Reached (g.order.map Arg.node ++ args) k := by
  cases reuse <;> rfl

theorem operation?_shared (g : Graph α) (reuse : Bool) (k : NodeId) :
    (g.shared reuse).operation? k = g.operation? k := by
  cases reuse <;> rfl

theorem Scheduled.slot_shared_eq_zero (h : g.Scheduled outputs) (reuse : Bool) (k : NodeId) :
    (g.shared reuse).slot k = 0 ↔ g.slot k = 0 := by
  cases reuse with
  | false => rfl
  | true => exact h.slot_reuseSlots_eq_zero k

/-- The form of the nodes of a pass that flattens, with slots shared or not. -/
theorem WellFormed.normalNode_shared (h : g.WellFormed) (policy : Policy α)
    (hlive : ∀ id, Arg.node id ∈ outputs → ∃ node, g.recorded.get id = some node) (reuse : Bool)
    (hk : ((g.prepared true policy outputs).2.shared reuse).Reached
      (((g.prepared true policy outputs).2.shared reuse).order.map Arg.node ++
        (g.prepared true policy outputs).1) k)
    (hop : ((g.prepared true policy outputs).2.shared reuse).operation? k = some op) :
    ((g.prepared true policy outputs).2.shared reuse).NormalNode k op ∧
      (policy.StoresShared →
        ((g.prepared true policy outputs).2.shared reuse).FullyFlat op) := by
  obtain ⟨seen, hg⟩ := h.exists_flattenable policy hlive
  have hzero := hg.scheduled_flatten.slot_shared_eq_zero reuse
  rw [reached_shared] at hk
  rw [operation?_shared] at hop
  refine ⟨?_, fun hpolicy family hfamily j hj hslot op' hop' => ?_⟩
  · have hnormal := hg.normalNode_flatten hk hop
    exact ⟨hnormal.chain, hnormal.untagged, fun hcode hslot =>
      hnormal.copy hcode ((hzero k).mp hslot)⟩
  · have honce : ∀ k ∈ seen, (g.scheduled policy outputs).slot k = 0 →
        (g.scheduled policy outputs).pass.refs.get k ≤ 1 := fun k hk =>
      h.refs_scheduled_le_one hlive hpolicy ((mem_seen_iff_reached hg.counted).mp hk)
    rw [operation?_shared] at hop'
    exact hg.fullyFlat_flatten honce hk hop family hfamily j hj ((hzero j).mp hslot) op' hop'

end Graph

end Straightline
