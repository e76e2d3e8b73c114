import Straightline.Proofs.Generation.FlattenRun
import Straightline.Proofs.Generation.ReferenceCount
import Straightline.Proofs.Generation.Renaming

/-!
# What flattening builds

The operation that stands for a recorded node, said without the run that builds it. An operand is
spliced if its reader alone reads it and behind its aliases there is an arithmetic node of the same
family without a slot. A spliced operand contributes the terms of both operands of that node, any
other operand is a single term. The invariant of this module says that every built node has the
operation that its owner flattens to, with built nodes in place of their owners; only a node that
was spliced as a right operand may have been written as a chain since. Values follow from the shape:
a chain has the value of the node that it stands for wherever the terms of right operands can be
entered one by one, be it by the laws of the base type or because there is only one.
-/

namespace Straightline

namespace Graph

variable {α : Type} {g : Graph α} {family : Family} {x : Arg α} {t id : NodeId}

/-- An operand is spliced into a chain of a family: the way through its aliases to an arithmetic
node of the family is exclusive, and the node has no slot. -/
structure Splices (g : Graph α) (family : Family) (x : Arg α) (t : NodeId) : Prop where
  /-- The operand is a node from which the way is exclusive. -/
  exclusive : ∃ a, x = .node a ∧ g.Exclusive a t
  /-- The node has no slot. -/
  slot : g.slot t = 0
  /-- The node is arithmetic of the family. -/
  arith : ∃ sense l r, g.operation? t = some (.binary (.arith ⟨family, sense⟩) l r)

theorem Splices.resolves (h : g.Splices family x t) : g.Resolves x (.node t) := by
  obtain ⟨a, rfl, hexclusive⟩ := h.exclusive
  exact hexclusive.resolves

theorem Splices.not_isAlias (h : g.Splices family x t) : ¬ g.IsAlias t := by
  obtain ⟨sense, l, r, hop⟩ := h.arith
  exact Flattening.not_isAlias hop (by simp)

/-- An operand is spliced to one node. -/
theorem Splices.unique {s : NodeId} (h : g.Splices family x t) (h' : g.Splices family x s) :
    t = s := by
  simpa using Resolves.end_unique h.resolves h'.resolves (isEnd_node h.not_isAlias)
    (isEnd_node h'.not_isAlias)

/-- No node that the outputs reach splices its right operand. -/
def LeftNested (g : Graph α) (outputs : List (Arg α)) : Prop :=
  ∀ id, g.Reached outputs id → ∀ tag l r, g.operation? id = some (.binary (.arith tag) l r) →
    ∀ t, ¬ g.Splices tag.family r t

/-- The terms that an operand contributes to a chain of a family. -/
inductive Contributes (g : Graph α) (family : Family) :
    Arg α → List (Sense × Arg α) → Prop where
  /-- An operand that is not spliced is a term. -/
  | single {x r : Arg α} (hkept : ∀ t, ¬ g.Splices family x t) (hres : g.Resolves x r)
      (hend : g.IsEnd r) : Contributes g family x [(.direct, r)]
  /-- A spliced operand contributes what the operands behind it do. -/
  | spliced {x l r : Arg α} {t : NodeId} {sense : Sense} {ls rs : List (Sense × Arg α)}
      (hx : g.Splices family x t)
      (hop : g.operation? t = some (.binary (.arith ⟨family, sense⟩) l r))
      (hl : Contributes g family l ls) (hr : Contributes g family r rs) :
      Contributes g family x (ls ++ sense.through rs)

/-- The operation that stands for a node in the flattened graph, with recorded nodes for operands:
each stands for the built node that it owns. -/
inductive Flattens (g : Graph α) (id : NodeId) : Operation (Arg α) → Prop where
  /-- A node that splices no operand keeps its operation. -/
  | kept {op : Operation (Arg α)} {ρ : Arg α → Arg α} (hop : g.operation? id = some op)
      (hne : op ≠ .independent) (hplain : ¬ g.IsAlias id)
      (hkept : ∀ tag l r, op = .binary (.arith tag) l r →
        (∀ t, ¬ g.Splices tag.family l t) ∧ ∀ t, ¬ g.Splices tag.family r t)
      (hρ : ∀ x ∈ op.operands, g.Resolves x (ρ x) ∧ g.IsEnd (ρ x)) : Flattens g id (op.map ρ)
  /-- A node that splices an operand becomes a chain. -/
  | chained {tag : Tag} {l r : Arg α} {ls rs : List (Sense × Arg α)}
      (hop : g.operation? id = some (.binary (.arith tag) l r))
      (hsome : (∃ t, g.Splices tag.family l t) ∨ ∃ t, g.Splices tag.family r t)
      (hl : g.Contributes tag.family l ls) (hr : g.Contributes tag.family r rs) :
      Flattens g id (.chain tag.family (ls ++ tag.sense.through rs))

/-- What has terms of a family after flattening was arithmetic of the family, and the terms are
those of its operands. -/
theorem Flattens.exists_contributes {op : Operation (Arg α)} {terms : List (Sense × Arg α)}
    (h : g.Flattens id op) (hunchained : ∀ own ts, g.operation? id ≠ some (.chain own ts))
    (hterms : op.terms? family = some terms) :
    ∃ sense l r ls rs, g.operation? id = some (.binary (.arith ⟨family, sense⟩) l r) ∧
      g.Contributes family l ls ∧ g.Contributes family r rs ∧ terms = ls ++ sense.through rs := by
  cases h with
  | @kept op ρ hop _ _ hkept hρ =>
    rw [Operation.terms?_map] at hterms
    obtain ⟨ts, hts, rfl⟩ := Option.map_eq_some_iff.mp hterms
    rcases Flattening.terms?_eq_some hts with ⟨sense, l, r, rfl, rfl⟩ | rfl
    · obtain ⟨hl, hr⟩ := hkept _ l r rfl
      obtain ⟨hresl, hendl⟩ := hρ l (by simp [Operation.operands])
      obtain ⟨hresr, hendr⟩ := hρ r (by simp [Operation.operands])
      refine ⟨sense, l, r, _, _, hop, .single hl hresl hendl, .single hr hresr hendr, ?_⟩
      rw [Sense.through_single]
      rfl
    · exact absurd hop (hunchained family ts)
  | @chained tag l r ls rs hop _ hl hr =>
    simp only [Operation.terms?] at hterms
    split at hterms
    · next hfamily =>
      cases hterms
      subst hfamily
      exact ⟨tag.sense, l, r, ls, rs, hop, hl, hr, rfl⟩
    · cases hterms

/-- What stands for an arithmetic node has terms of its family. -/
theorem Flattens.exists_terms {op : Operation (Arg α)} (h : g.Flattens id op) {sense : Sense}
    {l r : Arg α} (hop : g.operation? id = some (.binary (.arith ⟨family, sense⟩) l r)) :
    ∃ terms, op.terms? family = some terms := by
  cases h with
  | kept hop' =>
    obtain rfl := Option.some.inj (hop'.symm.trans hop)
    exact ⟨_, if_pos rfl⟩
  | @chained tag _ _ _ _ hop' =>
    obtain ⟨⟨rfl⟩, _, _⟩ : Binary.arith tag = .arith ⟨family, sense⟩ ∧ _ ∧ _ := by
      simpa using hop'.symm.trans hop
    exact ⟨_, if_pos rfl⟩

/-- The test for exclusive operands accepts every exclusive way to a node without a slot. -/
theorem Exclusive.isExclusive {f : Flattening α} {a : NodeId} (h : g.Exclusive a t)
    (hslots : ∀ id : Nat, id < g.next → f.slots.get id = g.slot id)
    (hrefs : ∀ id : Nat, id < g.next → f.refs.get id = g.pass.refs.get id)
    (hclosed : g.Closed) (hbounded : g.Bounded) {rank : NodeId → Nat}
    (hrank : Ranked g.references rank) {depth : Nat} (hdepth : rank a < depth)
    (hlive : g.contains a = true) (hslot : g.slot t = 0) (hplain : ¬ g.IsAlias t) :
    f.isExclusive g depth (.node a) = true := by
  induction depth generalizing a with
  | zero => omega
  | succ depth ih =>
    have hlt := hbounded a hlive
    obtain ⟨honce, hpath⟩ := h
    rcases hpath.cases_head with heq | ⟨y, howns, hrest⟩
    · -- The way ends here.
      obtain rfl : a = t := by simpa using heq
      have hcopy : ∀ x, g.operation? a ≠ some (.copy x) := fun x hop => hplain ⟨hslot, x, hop⟩
      simp only [Flattening.isExclusive, hslots a hlt, hrefs a hlt, hslot]
      rw [if_neg (by simpa using honce)]
    · have hy : ∃ m, y = .node m := by
        rcases hrest.cases_head with heq | ⟨_, hnext, _⟩
        · exact ⟨t, heq⟩
        · exact hnext.1.exists_node
      obtain ⟨m, rfl⟩ := hy
      obtain ⟨id, heq, hzero, hop⟩ := howns.1
      obtain rfl : a = id := by simpa using heq
      have hmem := howns.1.mem_references
      have hbelow := hrank a m hmem
      simp only [Flattening.isExclusive, hslots a hlt, hrefs a hlt, hzero, hop]
      rw [if_neg (by simpa using honce)]
      exact ih ⟨howns.2 m rfl, hrest⟩ (by omega) (hclosed a m hmem)

section Value

variable {roots seen : List NodeId} {inputs : List α} {val : NodeId → α} [Scalar α]

/-- An operand has the value of what is behind its aliases. -/
theorem Resolves.eval (hval : g.IsValuation inputs val) {x y : Arg α} (h : g.Resolves x y) :
    x.eval val = y.eval val := by
  induction h with
  | refl => rfl
  | tail _ hstep ih =>
    rw [ih]
    obtain ⟨id, rfl, _, hop⟩ := hstep
    have hvalue := hval id _ hop
    simpa [Graph.required?, Operation.map, Operation.value?, Arg.eval, eq_comm] using hvalue

/-- The terms that the right operands of the counted nodes contribute can be entered into a chain
one by one. -/
def Enterable (g : Graph α) (seen : List NodeId) (val : NodeId → α) : Prop :=
  ∀ id ∈ seen, ∀ tag l r, g.operation? id = some (.binary (.arith tag) l r) →
    ∀ terms, g.Contributes tag.family r terms → ∀ left : List (Sense × α),
      tag.family.chainValue
          (left ++ tag.sense.through (terms.map fun t => (t.1, t.2.eval val))) =
        tag.apply (tag.family.chainValue left)
          (tag.family.chainValue (terms.map fun t => (t.1, t.2.eval val)))

/-- By the laws of chains terms can be entered one by one. -/
theorem enterable_of_laws (laws : ChainLaws α) (g : Graph α) (seen : List NodeId)
    (val : NodeId → α) : g.Enterable seen val :=
  fun _ _ tag _ _ _ _ _ left => laws.append tag.family tag.sense left _

/-- If no right operand is spliced there is only one term to enter. -/
theorem LeftNested.enterable (laws : UnitLaws α) {outputs : List (Arg α)}
    (hcounted : References.Counted g.references (outputs.filterMap Arg.node?) seen [] g.pass.refs)
    (hleft : g.LeftNested outputs) (val : NodeId → α) : g.Enterable seen val := by
  intro id hid tag l r hop terms hterms left
  cases hterms with
  | single _ _ _ => exact laws.append_single tag left _
  | spliced hsplices _ _ _ =>
    exact absurd hsplices (hleft id ((mem_seen_iff_reached hcounted).mp hid) tag l r hop _)

/-- A chain that combines the terms of the operands of a node has the value of the node. -/
theorem Enterable.chainValue_append (h : g.Enterable seen val) (hval : g.IsValuation inputs val)
    (hid : id ∈ seen) {tag : Tag} {l r : Arg α}
    (hop : g.operation? id = some (.binary (.arith tag) l r)) {ls rs : List (Sense × Arg α)}
    (hr : g.Contributes tag.family r rs)
    (hvl : tag.family.chainValue (ls.map fun t => (t.1, t.2.eval val)) = l.eval val)
    (hvr : tag.family.chainValue (rs.map fun t => (t.1, t.2.eval val)) = r.eval val) :
    tag.family.chainValue ((ls ++ tag.sense.through rs).map fun t => (t.1, t.2.eval val)) =
      val id := by
  rw [List.map_append, Sense.map_through, h id hid tag l r hop rs hr, hvl, hvr]
  have hvalue := hval id _ hop
  simpa [Graph.required?, Operation.map, Operation.value?, Binary.apply] using hvalue

/-- The terms that an operand contributes have its value. -/
theorem Contributes.chainValue_eq {terms : List (Sense × Arg α)}
    (h : g.Contributes family x terms) (laws : UnitLaws α)
    (hcounted : References.Counted g.references roots seen [] g.pass.refs)
    (henter : g.Enterable seen val) (hval : g.IsValuation inputs val)
    (hx : ∀ a, x = .node a → a ∈ seen) :
    family.chainValue (terms.map fun t => (t.1, t.2.eval val)) = x.eval val := by
  induction h with
  | single _ hres _ =>
    rw [Resolves.eval hval hres]
    exact laws.single family _
  | @spliced x l r t sense ls rs hsplices hop _ hr ihl ihr =>
    have ht : t ∈ seen := by
      obtain ⟨a, rfl, hexclusive⟩ := hsplices.exclusive
      exact Resolves.mem_seen hcounted hexclusive.resolves (hx a rfl)
    have hdeps : ∀ y, y = l ∨ y = r → ∀ a, y = .node a → a ∈ seen := by
      rintro y hy a rfl
      exact hcounted.mem_of_deps ht (Flattening.operandOf_binary hop hy a rfl)
    rw [Resolves.eval hval hsplices.resolves]
    exact henter.chainValue_append hval ht hop hr (ihl (hdeps l (.inl rfl)))
      (ihr (hdeps r (.inr rfl)))

/-- What stands for a node has its value. -/
theorem Flattens.value?_eq {op : Operation (Arg α)} (h : g.Flattens id op) (laws : UnitLaws α)
    (hcounted : References.Counted g.references roots seen [] g.pass.refs)
    (henter : g.Enterable seen val) (hval : g.IsValuation inputs val) (hid : id ∈ seen) :
    (op.map (Arg.eval val)).value? = some (val id) := by
  cases h with
  | @kept op ρ hop hne _ _ hρ =>
    have hmap : (op.map ρ).map (Arg.eval val) = op.map (Arg.eval val) := by
      rw [Operation.map_map]
      exact Operation.map_congr fun x hx => (Resolves.eval hval (hρ x hx).1).symm
    rw [hmap, ← Graph.required?_of_ne inputs val id hne]
    exact hval id op hop
  | @chained tag l r ls rs hop _ hl hr =>
    have hdeps : ∀ y, y = l ∨ y = r → ∀ a, y = .node a → a ∈ seen := by
      rintro y hy a rfl
      exact hcounted.mem_of_deps hid (Flattening.operandOf_binary hop hy a rfl)
    refine congrArg some (henter.chainValue_append hval hid hop hr ?_ ?_)
    · exact hl.chainValue_eq laws hcounted henter hval (hdeps l (.inl rfl))
    · exact hr.chainValue_eq laws hcounted henter hval (hdeps r (.inr rfl))

end Value

end Graph

namespace Flattening

variable {α : Type} {g : Graph α} {outputs : List (Arg α)} {seen done : List NodeId}
  {owner owner' : NodeId → NodeId} {f f' : Flattening α} {id : NodeId} {family : Family}

/-- A node that is done splices a node as its right operand. -/
def SplicedRight (g : Graph α) (done : List NodeId) (t : NodeId) : Prop :=
  ∃ c ∈ done, ∃ tag l r, g.operation? c = some (.binary (.arith tag) l r) ∧
    g.Splices tag.family r t

/-- Built nodes have the operations that their owners flatten to, possibly written as chains if
they were spliced as right operands. -/
def Shaped (g : Graph α) (done : List NodeId) (owner : NodeId → NodeId) (f : Flattening α) : Prop :=
  ∀ b n, f.nodes.get b = some n → ∃ op, g.Flattens (owner b) op ∧
    (n.operation.map (Arg.rename owner) = op ∨ SplicedRight g done (owner b) ∧
      ∃ family terms, op.terms? family = some terms ∧
        n.operation.map (Arg.rename owner) = .chain family terms)

theorem SplicedRight.mono {t : NodeId} (h : SplicedRight g done t) :
    SplicedRight g (done ++ [id]) t := by
  obtain ⟨c, hc, hrest⟩ := h
  exact ⟨c, List.mem_append_left _ hc, hrest⟩

theorem Shaped.mono (h : Shaped g done owner f) (id : NodeId) :
    Shaped g (done ++ [id]) owner f := by
  intro b n hn
  obtain ⟨op, hflat, hop⟩ := h b n hn
  exact ⟨op, hflat, hop.imp_right fun hchain => ⟨hchain.1.mono, hchain.2⟩⟩

/-- What stands for an operand is owned by it. -/
theorem Stands.rename (hg : g.Flattenable outputs seen) (h : Valid g seen done owner f)
    {r y : Arg α} (hs : Stands g owner f.nodes r y) : y.rename owner = r := by
  cases hs with
  | const v => rfl
  | @independent t ht => rw [Arg.rename_node, h.owner_of_lt t (hg.roster_lt_next ht)]
  | built _ => rfl

/-- The terms of a built node are those of the operation that its owner flattens to. -/
theorem Shaped.exists_flattens (h : Shaped g done owner f) {b : NodeId} {n : Node α}
    (hn : f.nodes.get b = some n) {terms : List (Sense × Arg α)}
    (hterms : n.operation.terms? family = some terms) :
    ∃ op, g.Flattens (owner b) op ∧
      op.terms? family = some (terms.map fun t => (t.1, t.2.rename owner)) := by
  obtain ⟨op, hflat, hop⟩ := h b n hn
  have hrenamed : (n.operation.map (Arg.rename owner)).terms? family =
      some (terms.map fun t => (t.1, t.2.rename owner)) := by
    rw [Operation.terms?_map, hterms, Option.map_some]
  refine ⟨op, hflat, ?_⟩
  rcases hop with rfl | ⟨_, own, ts, hts, heq⟩
  · exact hrenamed
  · rw [heq, Operation.terms?] at hrenamed
    split at hrenamed
    · next hfamily =>
      cases hrenamed
      exact hfamily ▸ hts
    · cases hrenamed

/-- An operand that passes the test is spliced. -/
theorem Valid.splices (hg : g.Flattenable outputs seen) (h : Valid g seen done owner f)
    (hshaped : Shaped g done owner f) (hid : Ready g seen done id) {x : Arg α}
    (hx : OperandOf g id x) {host : NodeId} {terms : List (Sense × Arg α)}
    (hsome : f.spliceable? g family x = some (host, terms)) :
    g.Splices family x (owner host) := by
  obtain ⟨a, n, hspliced⟩ := h.spliced hg hid hx hsome
  obtain ⟨op, hflat, hterms⟩ := hshaped.exists_flattens hspliced.node hspliced.terms
  obtain ⟨sense, l, r, _, _, hop, _⟩ :=
    hflat.exists_contributes (unchained hg (owner host)) hterms
  exact ⟨⟨a, hspliced.operand, hspliced.exclusive⟩, hspliced.slot, sense, l, r, hop⟩

/-- The built node behind a spliced operand has terms of the family. -/
theorem Valid.exists_host (hg : g.Flattenable outputs seen) (h : Valid g seen done owner f)
    (hshaped : Shaped g done owner f) (hid : Ready g seen done id) {x : Arg α}
    (hx : OperandOf g id x) {t : NodeId} (hs : g.Splices family x t) :
    ∃ host n terms, f.image x = .node host ∧ f.nodes.get host = some n ∧
      n.operation.terms? family = some terms := by
  obtain ⟨sense, l, r, hop⟩ := hs.arith
  obtain ⟨y, hres, hend, hstands⟩ := h.operand hg hid hx
  obtain rfl := Graph.Resolves.end_unique hres hs.resolves hend (Graph.isEnd_node hs.not_isAlias)
  generalize hy : f.image x = y at hstands
  generalize hr : Arg.node t = z at hstands
  cases hstands with
  | const v => simp at hr
  | @independent k hk =>
    obtain rfl : t = k := by simpa using hr
    rw [hg.roster_independent t hk] at hop
    simp at hop
  | @built host n hn =>
    obtain rfl : t = owner host := by simpa using hr
    obtain ⟨op, hflat, hshape⟩ := hshaped host n hn
    obtain ⟨terms, hterms⟩ := hflat.exists_terms hop
    have hrenamed : ∃ ts, (n.operation.map (Arg.rename owner)).terms? family = some ts := by
      rcases hshape with rfl | ⟨_, own, ts, hts, heq⟩
      · exact ⟨terms, hterms⟩
      · obtain ⟨_, _, _, _, _, hop', _⟩ := hflat.exists_contributes (unchained hg _) hts
        obtain ⟨⟨rfl, _⟩, _, _⟩ : (own = family ∧ _) ∧ _ ∧ _ := by
          simpa using hop'.symm.trans hop
        exact ⟨ts, by rw [heq, Operation.terms?, if_pos rfl]⟩
    obtain ⟨ts, hts⟩ := hrenamed
    rw [Operation.terms?_map] at hts
    obtain ⟨ts', hts', _⟩ := Option.map_eq_some_iff.mp hts
    exact ⟨host, n, ts', rfl, hn, hts'⟩

/-- A spliced operand passes the test. -/
theorem Valid.spliceable?_ne_none (hg : g.Flattenable outputs seen)
    (h : Valid g seen done owner f) (hshaped : Shaped g done owner f)
    (hid : Ready g seen done id) {x : Arg α} (hx : OperandOf g id x) {t : NodeId}
    (hs : g.Splices family x t) : f.spliceable? g family x ≠ none := by
  obtain ⟨host, n, terms, himage, hn, hterms⟩ := h.exists_host hg hshaped hid hx hs
  obtain ⟨a, rfl, hexclusive⟩ := hs.exclusive
  obtain ⟨rank, hrank, hbound⟩ := hg.ranked
  have hlive := hg.contains_of_seen (h.reached a (hid.deps a (hx a rfl)))
  have htest := hexclusive.isExclusive h.slots h.refs hg.closed hg.wellFormed.issued hrank
    (Nat.lt_succ_of_le (hbound a)) hlive hs.slot hs.not_isAlias
  simp [spliceable?, himage, Arg.node?, hn, hterms, htest]

/-- The terms of an operand in the chain of its reader are those that it contributes. -/
theorem Valid.contributes (hg : g.Flattenable outputs seen) (h : Valid g seen done owner f)
    (hshaped : Shaped g done owner f) (hid : Ready g seen done id) {x : Arg α}
    (hx : OperandOf g id x) (family : Family) :
    g.Contributes family x
      ((f.operandTerms g family x).map fun t => (t.1, t.2.rename owner)) := by
  cases hsome : f.spliceable? g family x with
  | none =>
    obtain ⟨r, hres, hend, hstands⟩ := h.operand hg hid hx
    simp only [operandTerms, hsome, Option.map_none, Option.getD_none, List.map_cons, List.map_nil,
      hstands.rename hg h]
    exact .single (fun t hs => h.spliceable?_ne_none hg hshaped hid hx hs hsome) hres hend
  | some found =>
    obtain ⟨host, terms⟩ := found
    obtain ⟨a, n, hspliced⟩ := h.spliced hg hid hx hsome
    obtain ⟨op, hflat, hterms⟩ := hshaped.exists_flattens hspliced.node hspliced.terms
    obtain ⟨sense, l, r, ls, rs, hop, hl, hr, heq⟩ :=
      hflat.exists_contributes (unchained hg (owner host)) hterms
    simp only [operandTerms, hsome, Option.map_some, Option.getD_some, heq]
    exact .spliced (h.splices hg hshaped hid hx hsome) hop hl hr

/-- Operations that do not refer to a node do not depend on its owner. -/
theorem rename_update {host : NodeId} {op : Operation (Arg α)} (h : host ∉ op.references) :
    op.map (Arg.rename (Function.update owner host id)) = op.map (Arg.rename owner) := by
  refine Operation.map_congr fun x hx => ?_
  cases x with
  | const v => rfl
  | node k =>
    have hne : k ≠ host := by
      rintro rfl
      exact h (Operation.mem_references.mpr hx)
    rw [Arg.rename_node, Arg.rename_node, Function.update_of_ne hne]

/-- A built node takes the operation that its new owner flattens to. -/
theorem Shaped.assign (h : Shaped g done owner f) {name : Option String} {host : NodeId}
    {op : Operation (Arg α)}
    (hunread : ∀ b n, f.nodes.get b = some n → host ∉ n.operation.references)
    (hop : host ∉ op.references) (hflat : g.Flattens id (op.map (Arg.rename owner))) :
    Shaped g done (Function.update owner host id) (f.assign id name host op) := by
  intro b n hb
  rcases nodes_assign_eq_some hb with ⟨rfl, rfl⟩ | ⟨hne, hb⟩
  · rw [rename_update hop, Function.update_self]
    exact ⟨_, hflat, .inl rfl⟩
  · rw [rename_update (hunread b n hb), Function.update_of_ne hne]
    exact h b n hb

/-- A node that was spliced as a right operand is written as a chain. -/
theorem Shaped.makeChain (h : Shaped g done owner f) {right : NodeId} {n : Node α}
    (hn : f.nodes.get right = some n) {terms : List (Sense × Arg α)}
    (hterms : n.operation.terms? family = some terms) (hright : SplicedRight g done (owner right)) :
    Shaped g done owner (f.makeChain right family terms) := by
  intro b m hm
  simp only [Flattening.makeChain, Table.get_modify, hn, Option.map_some] at hm
  split at hm
  · next heq =>
    cases hm
    subst heq
    obtain ⟨op, hflat, hsame⟩ := h.exists_flattens hn hterms
    exact ⟨op, hflat, .inr ⟨hright, family, _, hsame, rfl⟩⟩
  · exact h b m hm

/-- The node that is built for the operation of a node has the operation that the node flattens
to. -/
theorem Valid.flattens_derived (hg : g.Flattenable outputs seen) (h : Valid g seen done owner f)
    (hshaped : Shaped g done owner f) (hid : Ready g seen done id) {op : Operation (Arg α)}
    (hop : g.operation? id = some op) (hne : op ≠ .independent)
    (hnone : ∀ tag l r, op = .binary (.arith tag) l r →
      f.spliceable? g tag.family l = none ∧ f.spliceable? g tag.family r = none) :
    g.Flattens id ((op.map f.image).map (Arg.rename owner)) := by
  rw [Operation.map_map]
  refine .kept hop hne hid.plain ?_ ?_
  · rintro tag l r rfl
    obtain ⟨hl, hr⟩ := hnone tag l r rfl
    have hkept : ∀ x, x = l ∨ x = r → f.spliceable? g tag.family x = none →
        ∀ t, ¬ g.Splices tag.family x t :=
      fun x hx hx' t hs => h.spliceable?_ne_none hg hshaped hid (operandOf_binary hop hx) hs hx'
    exact ⟨hkept l (.inl rfl) hl, hkept r (.inr rfl) hr⟩
  · intro x hx
    obtain ⟨r, hres, hend, hstands⟩ := h.operand hg hid (operandOf_of_mem hop hx)
    rw [hstands.rename hg h]
    exact ⟨hres, hend⟩

/-- So has the chain that combines the terms of its operands. -/
theorem Valid.flattens_combined (hg : g.Flattenable outputs seen) (h : Valid g seen done owner f)
    (hshaped : Shaped g done owner f) (hid : Ready g seen done id) {tag : Tag} {l r x : Arg α}
    (hop : g.operation? id = some (.binary (.arith tag) l r)) (hx : x = l ∨ x = r)
    {host : NodeId} {terms : List (Sense × Arg α)}
    (hsome : f.spliceable? g tag.family x = some (host, terms)) :
    g.Flattens id ((Operation.chain tag.family (f.operandTerms g tag.family l ++
      tag.sense.through (f.operandTerms g tag.family r))).map (Arg.rename owner)) := by
  rw [Operation.map, List.map_append, Sense.map_through]
  have hsplices := h.splices hg hshaped hid (operandOf_binary hop hx) hsome
  refine .chained hop ?_ (h.contributes hg hshaped hid (operandOf_binary hop (.inl rfl)) _)
    (h.contributes hg hshaped hid (operandOf_binary hop (.inr rfl)) _)
  rcases hx with rfl | rfl
  · exact .inl ⟨_, hsplices⟩
  · exact .inr ⟨_, hsplices⟩

/-- One turn keeps the shape of the built nodes. -/
theorem Shaped.turn (hg : g.Flattenable outputs seen) (h : Valid g seen done owner f)
    (hid : id ∈ seen) (hnew : id ∉ done) (hdeps : ∀ k ∈ g.references id, k ∈ done)
    (hturn : Turn g owner f id owner' f') (hshaped : Shaped g done owner f) :
    Shaped g (done ++ [id]) owner' f' := by
  cases hturn with
  | independent _ => exact hshaped.mono id
  | unwrap _ _ => exact hshaped.mono id
  | derive hnode hplain hne hnone =>
    have hop := operation?_of_node hnode
    have hready := ready hg hid hnew hdeps hop hne hplain
    have hissued : Shaped g (done ++ [id]) owner
        { f with count := f.count + 1, next := f.next + 1 } := hshaped.mono id
    exact hissued.assign (fun b n => h.unread_next hg)
      (fun hmem => (h.mayRefer_derived hg hready hop hmem).1 rfl)
      (h.flattens_derived hg hshaped hready hop hne hnone)
  | @splice node tag l r x host terms f₁ hnode heq hx _ hsome hright =>
    have hop : g.operation? id = some (.binary (.arith tag) l r) :=
      heq ▸ operation?_of_node hnode
    have hready := ready_arith hg hid hnew hdeps hop
    have hl := operandOf_binary hop (.inl rfl)
    have hr := operandOf_binary hop (.inr rfl)
    have hspliced := operandOf_binary hop hx
    have hbefore : Shaped g (done ++ [id]) owner f₁ := by
      rcases hright with rfl | ⟨right, ts, hother, rfl⟩
      · exact hshaped.mono id
      · obtain ⟨a, n, hright⟩ := h.spliced hg hready hr hother
        exact (hshaped.mono id).makeChain hright.node hright.terms
          ⟨id, by simp, tag, l, r, hop, h.splices hg hshaped hready hr hother⟩
    exact hbefore.assign
      (fun b m => h.unread_reshaped hg hready hspliced hsome (h.reshapes hg hready hr hright))
      (fun hmem => (h.mayRefer_combined hg hready hl hr hspliced hsome hmem).1 rfl)
      (h.flattens_combined hg hshaped hready hop hx hsome)

/-- Renaming operands is looking up their values elsewhere. -/
theorem eval_rename (val : NodeId → α) (x : Arg α) :
    (x.rename owner).eval val = x.eval (val ∘ owner) := by
  cases x <;> rfl

/-- What stands for an operand has its value. -/
theorem Stands.eval (hg : g.Flattenable outputs seen) (h : Valid g seen done owner f) {r y : Arg α}
    (hs : Stands g owner f.nodes r y) (val : NodeId → α) :
    y.eval (val ∘ owner) = r.eval val := by
  rw [← eval_rename, hs.rename hg h]

section Value

variable [Scalar α] {inputs : List α} {val : NodeId → α}

/-- Built nodes have the values of their owners. -/
def Valued (val : NodeId → α) (owner : NodeId → NodeId) (f : Flattening α) : Prop :=
  ∀ b n, f.nodes.get b = some n →
    (n.operation.map (Arg.eval (val ∘ owner))).value? = some (val (owner b))

/-- An operation with terms has the value of the chain of its terms. -/
theorem value?_of_terms? (laws : UnitLaws α) {op : Operation (Arg α)}
    {terms : List (Sense × Arg α)} (h : op.terms? family = some terms) (e : Arg α → α) :
    (op.map e).value? = some (family.chainValue (terms.map fun t => (t.1, e t.2))) := by
  rcases terms?_eq_some h with ⟨sense, l, r, rfl, rfl⟩ | rfl
  · have hsplit := laws.append_single ⟨family, sense⟩ [(.direct, e l)] (e r)
    rw [laws.single, laws.single, Sense.through_single] at hsplit
    exact congrArg some hsplit.symm
  · rfl

/-- Wherever terms can be entered one by one, built nodes have the values of their owners. -/
theorem Shaped.valued (hg : g.Flattenable outputs seen) (h : Valid g seen done owner f)
    (hshaped : Shaped g done owner f) (laws : UnitLaws α) (henter : g.Enterable seen val)
    (hval : g.IsValuation inputs val) : Valued val owner f := by
  intro b n hn
  obtain ⟨op, hflat, hop⟩ := hshaped b n hn
  have hvalue := hflat.value?_eq laws hg.counted henter hval (h.reached _ (h.owner_mem b n hn).1)
  have hrenamed : n.operation.map (Arg.eval (val ∘ owner)) =
      (n.operation.map (Arg.rename owner)).map (Arg.eval val) := by
    rw [Operation.map_map]
    exact Operation.map_congr fun x _ => (eval_rename val x).symm
  rw [hrenamed]
  rcases hop with rfl | ⟨_, own, terms, hterms, heq⟩
  · exact hvalue
  · rw [heq, ← hvalue, value?_of_terms? laws hterms]
    rfl

end Value

end Flattening

end Straightline
