import Straightline.Proofs.Generation.Frame

/-!
# Succession of built nodes

A node that splices an operand takes over the built node behind it and extends its chain. What stood
for the spliced node still leads to that built node, which belongs to another recorded node from
then on. So the counterpart of a recorded node is that of its heir: the node behind its aliases, or
the last one in the line of nodes that took over from there. Only a node that nobody takes over has
a counterpart with its own value.
-/

namespace Straightline

namespace Graph

variable {α : Type} {g : Graph α} {outputs : List (Arg α)} {seen : List NodeId}
  {o t c d a id : NodeId}

/-- A node takes over the built node of another one: the outputs reach it, and it splices the other
one as its left operand, or as its right operand if it does not splice the left one. -/
def TakesOver (g : Graph α) (outputs : List (Arg α)) (t c : NodeId) : Prop :=
  g.Reached outputs c ∧ ∃ tag l r, g.operation? c = some (.binary (.arith tag) l r) ∧
    (g.Splices tag.family l t ∨ (∀ s, ¬ g.Splices tag.family l s) ∧ g.Splices tag.family r t)

/-- A node is in the line of those that took over from the node behind the aliases of another. -/
def Succeeds (g : Graph α) (outputs : List (Arg α)) (o c : NodeId) : Prop :=
  ∃ t, g.Resolves (.node o) (.node t) ∧ g.IsEnd (.node t) ∧
    Relation.ReflTransGen (g.TakesOver outputs) t c

/-- The last node in the line. -/
structure Heir (g : Graph α) (outputs : List (Arg α)) (o c : NodeId) : Prop where
  /-- The node is in the line. -/
  succeeds : g.Succeeds outputs o c
  /-- Nobody takes over from it. -/
  last : ∀ d, ¬ g.TakesOver outputs c d

theorem TakesOver.exists_splices (h : g.TakesOver outputs t c) :
    ∃ tag l r x, g.operation? c = some (.binary (.arith tag) l r) ∧ (x = l ∨ x = r) ∧
      g.Splices tag.family x t := by
  obtain ⟨_, tag, l, r, hop, hl | ⟨_, hr⟩⟩ := h
  · exact ⟨tag, l, r, l, hop, .inl rfl, hl⟩
  · exact ⟨tag, l, r, r, hop, .inr rfl, hr⟩

/-- What takes over is arithmetic. -/
theorem TakesOver.not_isAlias (h : g.TakesOver outputs t c) : ¬ g.IsAlias c := by
  obtain ⟨_, tag, l, r, hop, _⟩ := h
  exact Flattening.not_isAlias hop (by simp)

/-- What is taken over has no slot. -/
theorem TakesOver.slot (h : g.TakesOver outputs t c) : g.slot t = 0 := by
  obtain ⟨_, _, _, _, _, _, hsplices⟩ := h.exists_splices
  exact hsplices.slot

/-- A stored node is not taken over, nor is anything behind it. -/
theorem not_takesOver_of_slot (hslot : g.slot o ≠ 0) (hres : g.Resolves (.node o) (.node t)) :
    ¬ g.TakesOver outputs t c := by
  intro htakes
  obtain rfl : t = o := by simpa using hres.eq_of_slot hslot
  exact hslot htakes.slot

/-- What is taken over is arithmetic. -/
theorem TakesOver.ne_independent (h : g.TakesOver outputs t c) :
    g.operation? t ≠ some .independent := by
  obtain ⟨_, _, _, _, _, _, hsplices⟩ := h.exists_splices
  obtain ⟨sense, l, r, hop⟩ := hsplices.arith
  simp [hop]

/-- If a list has all references of its nodes, who refers to its nodes only takes over from its
nodes only. -/
theorem TakesOver.mem_of_closed {done : List NodeId}
    (hclosed : ∀ c ∈ done, ∀ k ∈ g.references c, k ∈ done) (h : g.TakesOver outputs t c)
    (hc : ∀ k ∈ g.references c, k ∈ done) : t ∈ done := by
  obtain ⟨tag, l, r, x, hop, hx, hsplices⟩ := h.exists_splices
  obtain ⟨a, rfl, hexclusive⟩ := hsplices.exclusive
  exact hexclusive.resolves.mem_of_closed hclosed
    (hc a (Flattening.operandOf_binary hop hx a rfl))

/-- One node at most takes over from another, its only reader. -/
theorem Flattenable.takesOver_rightUnique (hg : g.Flattenable outputs seen) :
    Relator.RightUnique (g.TakesOver outputs) := by
  intro t c d hc hd
  obtain ⟨tag, l, r, x, hop, hx, hsplices⟩ := hc.exists_splices
  obtain ⟨tag', l', r', y, hop', hy, hsplices'⟩ := hd.exists_splices
  obtain ⟨a, rfl, hexclusive⟩ := hsplices.exclusive
  obtain ⟨b, rfl, hexclusive'⟩ := hsplices'.exclusive
  exact (hexclusive.unique hg.counted hexclusive'.resolves
    ((mem_seen_iff_reached hg.counted).mpr hc.1) ((mem_seen_iff_reached hg.counted).mpr hd.1)
    hc.not_isAlias hd.not_isAlias (Flattening.operandOf_binary hop hx a rfl)
    (Flattening.operandOf_binary hop' hy b rfl)).1

/-- A node takes over from one other at most. -/
theorem TakesOver.left_unique (h : g.TakesOver outputs t c) (h' : g.TakesOver outputs d c) :
    t = d := by
  obtain ⟨_, tag, l, r, hop, hfirst⟩ := h
  obtain ⟨_, tag', l', r', hop', hfirst'⟩ := h'
  obtain ⟨⟨rfl⟩, rfl, rfl⟩ : Binary.arith tag = .arith tag' ∧ l = l' ∧ r = r' := by
    simpa [hop] using hop'
  rcases hfirst with hl | ⟨hkept, hr⟩ <;> rcases hfirst' with hl' | ⟨hkept', hr'⟩
  · exact hl.unique hl'
  · exact absurd hl (hkept' t)
  · exact absurd hl' (hkept d)
  · exact hr.unique hr'

/-- A node that is not an alias starts its own line. -/
theorem succeeds_self (h : ¬ g.IsAlias id) (outputs : List (Arg α)) : g.Succeeds outputs id id :=
  ⟨id, .refl, isEnd_node h, .refl⟩

/-- An alias has the line of its target. -/
theorem Succeeds.head (halias : g.Alias (.node o) (.node a)) (h : g.Succeeds outputs a c) :
    g.Succeeds outputs o c := by
  obtain ⟨t, hres, hend, hline⟩ := h
  exact ⟨t, .head halias hres, hend, hline⟩

/-- The line goes on. -/
theorem Succeeds.tail (h : g.Succeeds outputs o c) (hd : g.TakesOver outputs c d) :
    g.Succeeds outputs o d := by
  obtain ⟨t, hres, hend, hline⟩ := h
  exact ⟨t, hres, hend, hline.tail hd⟩

/-- There are no aliases in the line. -/
theorem Succeeds.not_isAlias (h : g.Succeeds outputs o c) : ¬ g.IsAlias c := by
  obtain ⟨t, _, hend, hline⟩ := h
  rcases hline.cases_tail with rfl | ⟨_, _, hlast⟩
  · exact hend c rfl
  · exact hlast.not_isAlias

/-- The outputs reach the line of every node that they reach. -/
theorem Succeeds.reached (hg : g.Flattenable outputs seen) (h : g.Succeeds outputs o c)
    (ho : g.Reached outputs o) : g.Reached outputs c := by
  obtain ⟨t, hres, _, hline⟩ := h
  rcases hline.cases_tail with rfl | ⟨_, _, hlast⟩
  · exact (mem_seen_iff_reached hg.counted).mp
      (Resolves.mem_seen hg.counted hres ((mem_seen_iff_reached hg.counted).mpr ho))
  · exact hlast.1

/-- A node has one heir. -/
theorem Heir.unique (hg : g.Flattenable outputs seen) (hc : g.Heir outputs o c)
    (hd : g.Heir outputs o d) : c = d := by
  obtain ⟨t, hres, hend, hline⟩ := hc.succeeds
  obtain ⟨t', hres', hend', hline'⟩ := hd.succeeds
  obtain rfl : t = t' := by simpa using Resolves.end_unique hres hres' hend hend'
  rcases Relation.ReflTransGen.total_of_right_unique hg.takesOver_rightUnique hline hline' with
    hcd | hdc
  · exact ((Relation.reflTransGen_iff_eq hc.last).mp hcd).symm
  · exact (Relation.reflTransGen_iff_eq hd.last).mp hdc

/-- An heir is its own heir. -/
theorem Heir.self (h : g.Heir outputs o c) : g.Heir outputs c c :=
  ⟨succeeds_self h.succeeds.not_isAlias outputs, h.last⟩

/-- If nobody takes over from the node behind its aliases, that is the heir of a node. -/
theorem Heir.resolves (h : g.Heir outputs o c)
    (hspared : ∀ t d, g.Resolves (.node o) (.node t) → ¬ g.TakesOver outputs t d) :
    g.Resolves (.node o) (.node c) := by
  obtain ⟨t, hres, _, hline⟩ := h.succeeds
  obtain rfl := (Relation.reflTransGen_iff_eq fun d => hspared t d hres).mp hline
  exact hres

end Graph

namespace Flattening

variable {α : Type} {g : Graph α} {outputs : List (Arg α)} {seen done : List NodeId}
  {owner owner' : NodeId → NodeId} {f f' : Flattening α} {id host : NodeId}

/-- Images lead along the lines of the recorded nodes, to those that nobody has taken over yet. -/
structure Traced (g : Graph α) (outputs : List (Arg α)) (done : List NodeId)
    (owner : NodeId → NodeId) (f : Flattening α) : Prop where
  /-- What is done refers to what is done. -/
  closed : ∀ c ∈ done, ∀ k ∈ g.references c, k ∈ done
  /-- A constant stands only for its aliases. -/
  const : ∀ id v, f.images.get id = some (.const v) → g.Resolves (.node id) (.const v)
  /-- The owner of the node that stands for another is in the line of the other. -/
  node : ∀ id b, f.images.get id = some (.node b) → id ∈ done ∧ g.Succeeds outputs id (owner b)
  /-- Nobody who is done takes over from an owner. -/
  last : ∀ b n, f.nodes.get b = some n → ∀ c ∈ done, ¬ g.TakesOver outputs (owner b) c

theorem traced_start (g : Graph α) (outputs : List (Arg α)) :
    Traced g outputs [] (fun id => id) (start g) where
  closed := by simp
  const id v hv := by simp [start] at hv
  node id b hb := by simp [start] at hb
  last := by simp

/-- A node that is done after its operands. -/
theorem Traced.references (h : Traced g outputs done owner f)
    (hdeps : ∀ k ∈ g.references id, k ∈ done) :
    ∀ c ∈ done ++ [id], ∀ k ∈ g.references c, k ∈ done := by
  intro c hc
  rcases List.mem_append.mp hc with hc | hc
  · exact h.closed c hc
  · rwa [List.mem_singleton.mp hc]

/-- An operand stands for a node that takes over from nobody. -/
theorem Traced.remember (h : Traced g outputs done owner f)
    (hdeps : ∀ k ∈ g.references id, k ∈ done) {y : Arg α}
    (hconst : ∀ v, y = .const v → g.Resolves (.node id) (.const v))
    (hnode : ∀ b, y = .node b → g.Succeeds outputs id (owner b))
    (hspares : ∀ t, ¬ g.TakesOver outputs t id) :
    Traced g outputs (done ++ [id]) owner (f.remember id y) where
  closed c hc k hk := List.mem_append_left _ (h.references hdeps c hc k hk)
  const k v hv := by
    rw [Flattening.remember, Table.get_set] at hv
    split at hv
    · next heq => exact heq ▸ hconst v (Option.some.inj hv)
    · exact h.const k v hv
  node k b hb := by
    rw [Flattening.remember, Table.get_set] at hb
    split at hb
    · next heq => exact ⟨by simp [heq], heq ▸ hnode b (Option.some.inj hb)⟩
    · exact (h.node k b hb).imp_left (List.mem_append_left _)
  last b n hb c hc := by
    rcases List.mem_append.mp hc with hc | hc
    · exact h.last b n hb c hc
    · rw [List.mem_singleton.mp hc]
      exact hspares _

/-- A node takes over from the owner of a built node, if that stood for anything, and from no
other. -/
theorem Traced.assign (h : Traced g outputs done owner f) (hnew : id ∉ done)
    (hdeps : ∀ k ∈ g.references id, k ∈ done) (hplain : ¬ g.IsAlias id)
    (hover : ∀ k, f.images.get k = some (.node host) → g.TakesOver outputs (owner host) id)
    (hspares : ∀ b n, f.nodes.get b = some n → b ≠ host → ¬ g.TakesOver outputs (owner b) id)
    (name : Option String) (op : Operation (Arg α)) :
    Traced g outputs (done ++ [id]) (Function.update owner host id)
      (f.assign id name host op) where
  closed c hc k hk := List.mem_append_left _ (h.references hdeps c hc k hk)
  const k v hv := by
    rw [Flattening.assign, Table.get_set] at hv
    split at hv
    · simp at hv
    · exact h.const k v hv
  node k b hb := by
    rw [Flattening.assign, Table.get_set] at hb
    split at hb
    · next heq =>
      obtain rfl : host = b := by simpa using hb
      rw [heq, Function.update_self]
      exact ⟨by simp, Graph.succeeds_self hplain outputs⟩
    · obtain ⟨hk, hsucceeds⟩ := h.node k b hb
      refine ⟨List.mem_append_left _ hk, ?_⟩
      by_cases hbhost : b = host
      · subst hbhost
        rw [Function.update_self]
        exact hsucceeds.tail (hover k hb)
      · rwa [Function.update_of_ne hbhost]
  last b n hb c hc := by
    rcases nodes_assign_eq_some hb with ⟨rfl, _⟩ | ⟨hne, hb⟩
    · -- The readers of the node have not had their turn.
      rw [Function.update_self]
      intro htakes
      exact hnew (htakes.mem_of_closed h.closed (h.references hdeps c hc))
    · rw [Function.update_of_ne hne]
      rcases List.mem_append.mp hc with hc | hc
      · exact h.last b n hb c hc
      · rw [List.mem_singleton.mp hc]
        exact hspares b n hb hne

/-- Writing nodes as chains keeps who they belong to. -/
theorem Traced.reshape (h : Traced g outputs done owner f) (hs : Reshapes f f') :
    Traced g outputs done owner f' := by
  rw [hs.same]
  refine { h with last := ?_ }
  intro b m hm
  obtain ⟨n, hn, _⟩ := hs.back b m hm
  exact h.last b n hn

/-- What is done has an image. -/
theorem Framed.images_eq (h : Framed g done owner f) {a : NodeId} (ha : a ∈ done) :
    f.images.get a = some (f.image (.node a)) := by
  obtain ⟨y, hy⟩ := Option.ne_none_iff_exists'.mp (h.mapped a ha)
  rw [image, hy, Option.getD_some]

/-- No new identifier is an image. -/
theorem Framed.images_ne_next (hg : g.Flattenable outputs seen) (h : Valid g seen done owner f)
    (hframed : Framed g done owner f) (k : NodeId) : f.images.get k ≠ some (.node f.next) := by
  intro hk
  rcases hframed.images k f.next hk with hroster | ⟨n, hn⟩
  · exact absurd (hg.roster_lt_next hroster) (Nat.not_lt_of_le h.next_le)
  · exact Nat.lt_irrefl _ (h.range f.next n hn).2

/-- A node that splices no operand takes over from nobody. -/
theorem Valid.not_takesOver (hg : g.Flattenable outputs seen) (h : Valid g seen done owner f)
    (hshaped : Shaped g done owner f) (hid : Ready g seen done id) {op : Operation (Arg α)}
    (hop : g.operation? id = some op)
    (hnone : ∀ tag l r, op = .binary (.arith tag) l r →
      f.spliceable? g tag.family l = none ∧ f.spliceable? g tag.family r = none) (t : NodeId) :
    ¬ g.TakesOver outputs t id := by
  intro htakes
  obtain ⟨tag, l, r, x, hop', hx, hsplices⟩ := htakes.exists_splices
  have htest := h.spliceable?_ne_none hg hshaped hid (operandOf_binary hop' hx) hsplices
  obtain ⟨hl, hr⟩ := hnone tag l r (Option.some.inj (hop.symm.trans hop'))
  rcases hx with rfl | rfl
  · exact htest hl
  · exact htest hr

/-- A node takes over from the owner of the built node that it splices first. -/
theorem Valid.takesOver_host (hg : g.Flattenable outputs seen) (h : Valid g seen done owner f)
    (hshaped : Shaped g done owner f) (hid : Ready g seen done id) {tag : Tag} {l r x : Arg α}
    (hop : g.operation? id = some (.binary (.arith tag) l r)) (hx : x = l ∨ x = r)
    (hfirst : x = l ∨ f.spliceable? g tag.family l = none) {terms : List (Sense × Arg α)}
    (hsome : f.spliceable? g tag.family x = some (host, terms)) :
    g.TakesOver outputs (owner host) id := by
  have hsplices := h.splices hg hshaped hid (operandOf_binary hop hx) hsome
  refine ⟨(Graph.mem_seen_iff_reached hg.counted).mp hid.reached, tag, l, r, hop, ?_⟩
  rcases hfirst with rfl | hnone
  · exact .inl hsplices
  · have hkept : ∀ t, ¬ g.Splices tag.family l t := fun t hl =>
      h.spliceable?_ne_none hg hshaped hid (operandOf_binary hop (.inl rfl)) hl hnone
    rcases hx with rfl | rfl
    · exact absurd hsplices (hkept _)
    · exact .inr ⟨hkept, hsplices⟩

/-- One turn keeps the lines. -/
theorem Traced.turn (hg : g.Flattenable outputs seen) (h : Valid g seen done owner f)
    (hframed : Framed g done owner f) (hshaped : Shaped g done owner f) (hid : id ∈ seen)
    (hnew : id ∉ done) (hdeps : ∀ k ∈ g.references id, k ∈ done)
    (hturn : Turn g owner f id owner' f') (htraced : Traced g outputs done owner f) :
    Traced g outputs (done ++ [id]) owner' f' := by
  cases hturn with
  | independent hop =>
    refine htraced.remember hdeps (by simp) (fun b hb => ?_) fun _ ⟨_, _, _, _, hop', _⟩ => ?_
    · obtain rfl : id = b := by simpa using hb
      rw [h.owner_of_lt id (hg.lt_of_seen hid)]
      exact Graph.succeeds_self (not_isAlias hop (by simp)) outputs
    · simp [hop] at hop'
  | @unwrap x hop hslot =>
    have halias : g.Alias (.node id) x := ⟨id, rfl, hslot, hop⟩
    have hspares : ∀ t, ¬ g.TakesOver outputs t id := by
      rintro t ⟨_, _, _, _, hop', _⟩
      simp [hop] at hop'
    cases x with
    | const v =>
      refine htraced.remember hdeps (fun v' hv => ?_) (by simp) hspares
      rw [← hv]
      exact .single halias
    | node a =>
      have himage := hframed.images_eq (hdeps a halias.mem_references)
      exact htraced.remember hdeps (fun v hv => .head halias (htraced.const a v (hv ▸ himage)))
        (fun b hb => (htraced.node a b (hb ▸ himage)).2.head halias) hspares
  | derive hnode hplain hne hnone =>
    have hop := operation?_of_node hnode
    have hready := ready hg hid hnew hdeps hop hne hplain
    have hissued : Traced g outputs done owner
        { f with count := f.count + 1, next := f.next + 1 } := { htraced with }
    exact hissued.assign hnew hdeps hplain
      (fun k hk => absurd hk (hframed.images_ne_next hg h k))
      (fun b n _ _ => h.not_takesOver hg hshaped hready hop hnone (owner b)) _ _
  | @splice node tag l r x host terms f₁ hnode heq hx hfirst hsome hright =>
    have hop : g.operation? id = some (.binary (.arith tag) l r) :=
      heq ▸ operation?_of_node hnode
    have hready := ready_arith hg hid hnew hdeps hop
    have hreshapes := h.reshapes hg hready (operandOf_binary hop (.inr rfl)) hright
    have htakes := h.takesOver_host hg hshaped hready hop hx hfirst hsome
    obtain ⟨a, n, hspliced⟩ := h.spliced hg hready (operandOf_binary hop hx) hsome
    refine (htraced.reshape hreshapes).assign hnew hdeps hready.plain (fun _ _ => htakes) ?_ _ _
    intro b m hm hne htakes'
    obtain ⟨n', hn', _⟩ := hreshapes.back b m hm
    exact hne (h.owner_inj b n' host n hn' hspliced.node (htakes'.left_unique htakes))

/-- Independent variables and built nodes have different owners. -/
theorem Valid.eq_of_owner (hg : g.Flattenable outputs seen) (h : Valid g seen done owner f)
    {b c : NodeId} (hb : b ∈ g.roster ∨ ∃ n, f.nodes.get b = some n)
    (hc : c ∈ g.roster ∨ ∃ n, f.nodes.get c = some n) (heq : owner b = owner c) : b = c := by
  have hself : ∀ k ∈ g.roster, owner k = k := fun k hk => h.owner_of_lt k (hg.roster_lt_next hk)
  rcases hb with hb | ⟨n, hn⟩ <;> rcases hc with hc | ⟨m, hm⟩
  · rw [← hself b hb, heq, hself c hc]
  · exact absurd (heq ▸ (hself b hb).symm ▸ hb) (h.owner_mem c m hm).2
  · exact absurd (heq.symm ▸ (hself c hc).symm ▸ hc) (h.owner_mem b n hn).2
  · exact h.owner_inj b n c m hn hm heq

/-- The counterparts are the nodes among the images. -/
theorem counterpart?_graph {k : NodeId} :
    (f.graph g).counterpart? id = some k ↔ f.images.get id = some (.node k) := by
  change (f.images.get id).bind Arg.node? = some k ↔ _
  simp [Option.bind_eq_some_iff, Arg.node?_eq_some]

/-- When all is done, the owner of the counterpart of a node is the heir of the node. -/
theorem Traced.heir (hg : g.Flattenable outputs seen) (h : Valid g seen done owner f)
    (hdone : ∀ id ∈ seen, id ∈ done) (hframed : Framed g done owner f)
    (htraced : Traced g outputs done owner f) {n : NodeId}
    (hn : (f.graph g).counterpart? id = some n) : g.Heir outputs id (owner n) := by
  have himage := counterpart?_graph.mp hn
  refine ⟨(htraced.node id n himage).2, fun d htakes => ?_⟩
  rcases hframed.images id n himage with hroster | ⟨m, hm⟩
  · rw [h.owner_of_lt n (hg.roster_lt_next hroster)] at htakes
    exact htakes.ne_independent (hg.roster_independent n hroster)
  · exact htraced.last n m hm d
      (hdone d ((Graph.mem_seen_iff_reached hg.counted).mpr htakes.1)) htakes

end Flattening

namespace Graph

variable {α : Type} {g : Graph α} {outputs : List (Arg α)} {seen : List NodeId} {o n c : NodeId}

/-- The built nodes of the flattened graph have owners, the operations that their owners flatten to,
and stand for those of whom the owners are heirs. -/
theorem Flattenable.exists_traced (hg : g.Flattenable outputs seen) :
    ∃ done owner f, g.flatten outputs = (outputs.map f.image, f.graph g) ∧
      Flattening.Valid g seen done owner f ∧ (∀ id ∈ seen, id ∈ done) ∧
      Flattening.Framed g done owner f ∧ Flattening.Shaped g done owner f ∧
      Flattening.Traced g outputs done owner f := by
  refine hg.exists_flatten_of_turn
    ⟨Flattening.framed_start g, fun b n hb => by simp [Flattening.start] at hb,
      Flattening.traced_start g outputs⟩ ?_
  rintro done owner f id owner' f' hvalid hid hnew hdeps hturn ⟨hframed, hshaped, htraced⟩
  exact ⟨hframed.turn hg hvalid hid hnew hdeps hturn, hshaped.turn hg hvalid hid hnew hdeps hturn,
    htraced.turn hg hvalid hframed hshaped hid hnew hdeps hturn⟩

/-- Only nodes that the outputs reach have a counterpart, and those have an heir. -/
theorem Flattenable.exists_heir (hg : g.Flattenable outputs seen)
    (hn : (g.flatten outputs).2.counterpart? o = some n) :
    g.Reached outputs o ∧ ∃ c, g.Heir outputs o c := by
  obtain ⟨done, owner, f, heq, hvalid, hdone, hframed, _, htraced⟩ := hg.exists_traced
  rw [heq] at hn
  have ho := (htraced.node o n (Flattening.counterpart?_graph.mp hn)).1
  exact ⟨(mem_seen_iff_reached hg.counted).mp (hvalid.reached o ho), owner n,
    htraced.heir hg hvalid hdone hframed hn⟩

/-- A node that the outputs reach has a counterpart, unless it is an alias of a constant. -/
theorem Flattenable.exists_counterpart (hg : g.Flattenable outputs seen)
    (ho : g.Reached outputs o) (hvaries : ∀ v, ¬ g.Resolves (.node o) (.const v)) :
    ∃ n, (g.flatten outputs).2.counterpart? o = some n := by
  obtain ⟨done, owner, f, heq, _, hdone, hframed, _, htraced⟩ := hg.exists_traced
  rw [heq]
  have himage := hframed.images_eq (hdone o ((mem_seen_iff_reached hg.counted).mpr ho))
  cases hy : f.image (.node o) with
  | const v => exact absurd (htraced.const o v (hy ▸ himage)) (hvaries v)
  | node n => exact ⟨n, Flattening.counterpart?_graph.mpr (hy ▸ himage)⟩

/-- A node shares its counterpart with its heir. -/
theorem Flattenable.counterpart?_heir (hg : g.Flattenable outputs seen)
    (hn : (g.flatten outputs).2.counterpart? o = some n) (hc : g.Heir outputs o c) :
    (g.flatten outputs).2.counterpart? c = some n := by
  have hplain := isEnd_node hc.succeeds.not_isAlias
  obtain ⟨m, hm⟩ := hg.exists_counterpart (hc.succeeds.reached hg (hg.exists_heir hn).1)
    fun v hres => by simpa using Resolves.end_unique hres .refl (by simp [IsEnd]) hplain
  obtain ⟨done, owner, f, heq, hvalid, hdone, hframed, _, htraced⟩ := hg.exists_traced
  rw [heq] at hn hm ⊢
  have howner : owner m = owner n := by
    rw [(htraced.heir hg hvalid hdone hframed hn).unique hg hc]
    exact (htraced.heir hg hvalid hdone hframed hm).unique hg hc.self
  rw [hm, hvalid.eq_of_owner hg (hframed.images c m (Flattening.counterpart?_graph.mp hm))
    (hframed.images o n (Flattening.counterpart?_graph.mp hn)) howner]

/-- Wherever terms can be entered into chains one by one, counterparts have the values of heirs. -/
theorem Flattenable.hasValue_counterpart [Scalar α] (laws : UnitLaws α)
    (hg : g.Flattenable outputs seen) {inputs : List α} {val : NodeId → α}
    (henter : g.Enterable seen val) (hval : g.IsValuation inputs val)
    (hn : (g.flatten outputs).2.counterpart? o = some n) (hc : g.Heir outputs o c) :
    (g.flatten outputs).2.HasValue inputs (.node n) (val c) := by
  have hflat := hg.wellFormed_flatten
  obtain ⟨rank, hrank, _⟩ := hflat.exists_ranked
  obtain ⟨done, owner, f, heq, hvalid, hdone, hframed, hshaped, htraced⟩ := hg.exists_traced
  rw [heq] at hn hflat hrank ⊢
  have hvalues := (hshaped.valued hg hvalid laws henter hval).isValuation hg hvalid hval
  rw [hc.unique hg (htraced.heir hg hvalid hdone hframed hn)]
  refine hvalues.hasValue hrank hflat.closed_all fun k hk => ?_
  obtain rfl : n = k := by simpa [Arg.node?] using hk
  exact hvalid.contains_graph hg (hframed.images o n (Flattening.counterpart?_graph.mp hn))

theorem counterpart?_shared (g : Graph α) (reuse : Bool) (id : NodeId) :
    (g.shared reuse).counterpart? id = g.counterpart? id := by
  cases reuse <;> rfl

/-- Over a base type with the laws of chains, a counterpart has the value that plain recursion gives
to the heir, which is the value of the node itself if the heir is behind its aliases. -/
theorem WellFormed.exists_counterpart_value [Scalar α] (h : g.WellFormed) (laws : ChainLaws α)
    (policy : Policy α)
    (hlive : ∀ id, Arg.node id ∈ outputs → ∃ node, g.recorded.get id = some node) (reuse : Bool)
    (hn : ((g.scheduled policy outputs).flatten outputs).2.counterpart? o = some n)
    (hc : (g.scheduled policy outputs).Heir outputs o c) (inputs : List α)
    (hinputs : inputs.length = g.roster.length) :
    ∃ v, (((g.scheduled policy outputs).flatten outputs).2.shared reuse).HasValue inputs
        (.node n) v ∧
      g.HasValue inputs (.node c) v ∧
      ((g.scheduled policy outputs).Resolves (.node o) (.node c) →
        g.HasValue inputs (.node o) v) := by
  obtain ⟨seen, hg⟩ := h.exists_flattenable policy hlive
  obtain ⟨val, hval, hrecorded⟩ := h.exists_recorded_values hinputs
  have hscheduled : (g.scheduled policy outputs).IsValuation inputs val := hval
  have hplain : ∀ id, (g.scheduled policy outputs).Reached outputs id →
      g.HasValue inputs (.node id) (val id) := by
    intro id hid
    refine hrecorded (.node id) fun k hk => ?_
    obtain rfl : id = k := by simpa using hk
    obtain ⟨node, hnode⟩ := Option.isSome_iff_exists.mp
      (hg.contains_of_seen ((mem_seen_iff_reached hg.counted).mpr hid))
    exact ⟨node, Flattening.recorded_of_node? hg hnode⟩
  have ho := (hg.exists_heir hn).1
  have hflat :=
    hg.hasValue_counterpart laws.unit (enterable_of_laws laws _ seen val) hscheduled hn hc
  refine ⟨val c, ?_, hplain c (hc.succeeds.reached hg ho), fun hres => ?_⟩
  · refine HasValue.mono (fun id op hop => ?_) ?_ hflat
    · cases reuse <;> exact hop
    · cases reuse <;> rfl
  · have heval : val o = val c := Resolves.eval hscheduled hres
    exact heval ▸ hplain o ho

end Graph

end Straightline
