import Mathlib.Order.Bounds.Defs
import Straightline.Proofs.Generation.Validity

/-!
# The last readers of stored values

The last use that is noted for a value is the rank of its last reader, and every temporary has a
reader. A temporary is stored because an output reaches it, and the last node with a slot on the way
to it reads it. Flattening takes no reader away: a spliced node hands its operands on to the chain
of its reader, an alias leads to what is behind it, and any other node without a slot is read
through as before. So the last use of a temporary lies behind its own rank, and the slot plan finds
nothing to correct.
-/

namespace Straightline

/-- A way to a node with a slot is a way from read to read. -/
theorem Reads.transGen_of_path {deps : NodeId → List NodeId} {slot : NodeId → Nat} {a k : NodeId}
    (h : Relation.TransGen (fun a b => b ∈ deps a) a k) (hslot : slot k ≠ 0) :
    Relation.TransGen (Reads deps slot) a k := by
  induction h using Relation.TransGen.head_induction_on with
  | single hk => exact .single (.direct hk hslot)
  | @head a m hm _ ih =>
    by_cases hzero : slot m = 0
    · -- The first read of the operand is a read of the node that has it.
      obtain ⟨b, hread, hrest⟩ := Relation.TransGen.head'_iff.mp ih
      exact .head' (.through hm hzero hread) hrest
    · exact .head (.direct hm hzero) ih

namespace Graph

variable {α : Type} {g : Graph α} {outputs : List (Arg α)} {seen : List NodeId} {id c k : NodeId}
  {x y : Arg α}

/-- Every temporary has a reader among the stored nodes. -/
def TemporariesRead (g : Graph α) : Prop :=
  ∀ k ∈ g.order, g.pass.firstTemporary ≤ g.slot k →
    ∃ c ∈ g.order, Reads g.references g.slot c k

section Scheduled

/-- An independent variable refers to nothing. -/
theorem Prepared.references_roster (h : g.Prepared) (hid : id ∈ g.roster) :
    g.references id = [] := by
  rw [references_of_operation (h.roster_independent id hid)]
  rfl

theorem Prepared.not_reads_of_roster (h : g.Prepared) (hid : id ∈ g.roster) :
    ¬ Reads g.references g.slot id k := by
  intro hread
  obtain ⟨m, hm, _⟩ := hread.exists_reaches
  simp [h.references_roster hid] at hm

/-- What is read from read to read is stored, the independent variables apart. -/
theorem Scheduled.stored_of_reads (h : g.Scheduled outputs) (hid : id ∈ g.order)
    (hreads : Relation.ReflTransGen (Reads g.references g.slot) id k) :
    k ∈ g.roster ∨ k ∈ g.order := by
  induction hreads with
  | refl => exact .inr hid
  | tail _ hread ih =>
    rcases ih with hroster | horder
    · exact absurd hread (h.not_reads_of_roster hroster)
    · exact (h.isSchedule.reads _ horder _ hread).imp_right And.left

/-- A stored node that the outputs reach and that is none of them has a reader: the last node with a
slot on the way. -/
theorem Scheduled.exists_reader (h : g.Scheduled outputs) (hreached : g.Reached outputs k)
    (hk : k ∈ g.order) (htemporary : g.pass.firstTemporary ≤ g.slot k) :
    ∃ c ∈ g.order, Reads g.references g.slot c k := by
  obtain ⟨root, hroot, hreach⟩ := hreached
  rcases Relation.reflTransGen_iff_eq_or_transGen.mp hreach with rfl | hpath
  · -- An output has a reserved slot.
    obtain ⟨_, hreserved⟩ := (h.results k hroot).resolve_left (h.not_mem_roster hk)
    omega
  · have hslot : g.slot k ≠ 0 := Nat.ne_of_gt (Nat.zero_lt_of_lt (h.slot_gt k hk))
    obtain ⟨c, hfirst, hread⟩ :=
      Relation.TransGen.tail'_iff.mp (Reads.transGen_of_path hpath hslot)
    rcases h.results root hroot with hroster | ⟨horder, _⟩
    · obtain ⟨m, hm, _⟩ := Relation.TransGen.head'_iff.mp hpath
      simp [h.references_roster hroster] at hm
    · have hstored := h.stored_of_reads horder hfirst
      exact ⟨c, hstored.resolve_left fun hroster => h.not_reads_of_roster hroster hread, hread⟩

/-- Before the graph is flattened every temporary has a reader. -/
theorem Flattenable.temporariesRead (hg : g.Flattenable outputs seen) : g.TemporariesRead :=
  fun k hk => hg.exists_reader ((mem_seen_iff_reached hg.counted).mp (hg.order_seen k hk)) hk

end Scheduled

section Flattened

/-- What is read through an operand: the node itself if it has a slot, and else what it reads. -/
inductive Shows (g : Graph α) : Arg α → NodeId → Prop where
  /-- A node with a slot is read. -/
  | stored {k : NodeId} (hslot : g.slot k ≠ 0) : Shows g (.node k) k
  /-- A node without a slot is read through. -/
  | inlined {m k : NodeId} (hslot : g.slot m = 0) (hread : Reads g.references g.slot m k) :
    Shows g (.node m) k

/-- A node reads through its operands. -/
theorem exists_shows {op : Operation (Arg α)} (hop : g.operation? id = some op)
    (hread : Reads g.references g.slot id k) : ∃ x ∈ op.operands, g.Shows x k := by
  have hmem : ∀ {m}, m ∈ g.references id → Arg.node m ∈ op.operands := by
    intro m hm
    rwa [references_of_operation hop, Operation.mem_references] at hm
  cases hread with
  | direct hk hslot => exact ⟨_, hmem hk, .stored hslot⟩
  | through hm hslot hread => exact ⟨_, hmem hm, .inlined hslot hread⟩

/-- Through an alias is read what is read through its operand. -/
theorem Alias.shows (h : g.Alias x y) (hshows : g.Shows x k) : g.Shows y k := by
  obtain ⟨id, rfl, hslot, hop⟩ := h
  cases hshows with
  | stored hne => exact absurd hslot hne
  | inlined _ hread =>
    obtain ⟨z, hz, hshows⟩ := exists_shows hop hread
    obtain rfl : z = y := by simpa [Operation.operands] using hz
    exact hshows

theorem Resolves.shows (h : g.Resolves x y) (hshows : g.Shows x k) : g.Shows y k := by
  induction h with
  | refl => exact hshows
  | tail _ hstep ih => exact hstep.shows ih

/-- Where each operand of a node has terms that show what it shows, the terms of both show what the
node reads. -/
theorem exists_shows_append {op : Binary} {l r : Arg α}
    (hop : g.operation? id = some (.binary op l r))
    (hread : Reads g.references g.slot id k) {ls rs : List (Sense × Arg α)}
    (hl : g.Shows l k → ∃ y ∈ ls.map Prod.snd, g.Shows y k)
    (hr : g.Shows r k → ∃ y ∈ rs.map Prod.snd, g.Shows y k) (sense : Sense) :
    ∃ y ∈ (ls ++ sense.through rs).map Prod.snd, g.Shows y k := by
  obtain ⟨x, hx, hshows⟩ := exists_shows hop hread
  rw [List.map_append, Flattening.map_snd_through]
  rcases (by simpa [Operation.operands] using hx : x = l ∨ x = r) with rfl | rfl
  · obtain ⟨y, hy, hfound⟩ := hl hshows
    exact ⟨y, List.mem_append_left _ hy, hfound⟩
  · obtain ⟨y, hy, hfound⟩ := hr hshows
    exact ⟨y, List.mem_append_right _ hy, hfound⟩

/-- The terms that an operand contributes show what it shows. -/
theorem Contributes.exists_shows {family : Family} {terms : List (Sense × Arg α)}
    (h : g.Contributes family x terms) (hshows : g.Shows x k) :
    ∃ y ∈ terms.map Prod.snd, g.Shows y k := by
  induction h with
  | single _ hres _ => exact ⟨_, by simp, Resolves.shows hres hshows⟩
  | @spliced x l r t sense ls rs hsplices hop _ _ ihl ihr =>
    -- The spliced node has no slot, so it is read through.
    cases Resolves.shows hsplices.resolves hshows with
    | stored hne => exact absurd hsplices.slot hne
    | inlined _ hread => exact exists_shows_append hop hread ihl ihr sense

/-- The operands of what a node flattens to show what the node reads. -/
theorem Flattens.exists_shows {op : Operation (Arg α)} (h : g.Flattens id op)
    (hread : Reads g.references g.slot id k) : ∃ y ∈ op.operands, g.Shows y k := by
  cases h with
  | @kept op ρ hop _ _ _ hρ =>
    obtain ⟨x, hx, hshows⟩ := Graph.exists_shows hop hread
    rw [Operation.operands_map]
    exact ⟨ρ x, List.mem_map_of_mem hx, Resolves.shows (hρ x hx).1 hshows⟩
  | @chained tag l r ls rs hop _ hl hr =>
    exact exists_shows_append hop hread hl.exists_shows hr.exists_shows tag.sense

end Flattened

end Graph

namespace Flattening

variable {α : Type} {g : Graph α} {outputs : List (Arg α)} {seen done : List NodeId}
  {owner : NodeId → NodeId} {f : Flattening α} {b k : NodeId}

/-- An operand of a built node shows what its owner reads. -/
theorem Shaped.exists_shows (hshaped : Shaped g done owner f) {n : Node α}
    (hn : f.nodes.get b = some n) (hread : Reads g.references g.slot (owner b) k) :
    ∃ x ∈ n.operation.operands, g.Shows (x.rename owner) k := by
  obtain ⟨op, hflat, hop⟩ := hshaped b n hn
  obtain ⟨y, hy, hshows⟩ := hflat.exists_shows hread
  -- Writing a node as a chain keeps its operands.
  have hoperands : op.operands = n.operation.operands.map (Arg.rename owner) := by
    rw [← Operation.operands_map]
    rcases hop with rfl | ⟨_, family, terms, hterms, heq⟩
    · rfl
    · rw [heq, operands_of_terms? hterms]
      rfl
  rw [hoperands] at hy
  obtain ⟨x, hx, rfl⟩ := List.mem_map.mp hy
  exact ⟨x, hx, hshows⟩

/-- A built node reads what stands for the nodes that its owner reads. -/
theorem Valid.exists_reads (hg : g.Flattenable outputs seen) (h : Valid g seen done owner f)
    (hshaped : Shaped g done owner f) (hb : ∃ n, f.nodes.get b = some n)
    (hread : Reads g.references g.slot (owner b) k) :
    ∃ j, owner j = k ∧ Reads (f.graph g).references (f.graph g).slot b j := by
  obtain ⟨rank, hrank, _⟩ := hg.ranked
  induction hlevel : rank (owner b) using Nat.strong_induction_on generalizing b with
  | _ level ih =>
    obtain ⟨n, hn⟩ := hb
    obtain ⟨x, hx, hshows⟩ := hshaped.exists_shows hn hread
    cases x with
    | const v => cases hshows
    | node j =>
      have hj : j ∈ (f.graph g).references b :=
        Graph.mem_references_of_operand (h.operation?_built hg hn) hx
      have hslot := h.slot_graph hg (h.closed_graph hg b j hj)
      rw [Arg.rename_node] at hshows
      generalize howner : owner j = m at hshows
      cases hshows with
      | stored hne => exact ⟨j, howner, .direct hj (by rwa [hslot, howner])⟩
      | inlined hzero hrest =>
        subst howner
        -- An operand without a slot was built, and its owner lies deeper.
        have hbuilt : ∃ m, f.nodes.get j = some m := by
          refine (h.references_built hg hn hj).resolve_left fun hroster => ?_
          rw [h.owner_of_lt j (hg.roster_lt_next hroster)] at hzero
          have hpos := (hg.slot_roster hroster).1
          omega
        have hlower := (h.under_of_references hg hj).lt_of_ranked hrank
        obtain ⟨i, hi, hfound⟩ := ih _ (hlevel ▸ hlower) hbuilt hrest rfl
        exact ⟨i, hi, .through hj (hslot.trans hzero) hfound⟩

/-- If a stored node reads the owner of a built one, what stands for it reads the built node. -/
theorem Valid.exists_reader (hg : g.Flattenable outputs seen) (h : Valid g seen done owner f)
    (hshaped : Shaped g done owner f) (hdone : ∀ id ∈ seen, id ∈ done)
    (hk : ∃ n, f.nodes.get k = some n) {c : NodeId} (hc : c ∈ g.order)
    (hread : Reads g.references g.slot c (owner k)) :
    ∃ b ∈ (f.graph g).order, Reads (f.graph g).references (f.graph g).slot b k := by
  obtain ⟨b, n, _, hn, rfl⟩ := h.exists_built hg hdone hc
  obtain ⟨m, hm⟩ := hk
  obtain ⟨j, howner, hfound⟩ := h.exists_reads hg hshaped ⟨n, hn⟩ hread
  have hjk : j = k := by
    rcases h.reads_built hg ⟨n, hn⟩ hfound with hroster | ⟨i, hi⟩
    · rw [h.owner_of_lt j (hg.roster_lt_next hroster)] at howner
      exact absurd (howner ▸ hroster) (h.owner_mem k m hm).2
    · exact h.owner_inj j i k m hi hm howner
  exact ⟨b, (h.mem_order hg hdone).mpr ⟨hc, n, hn⟩, hjk ▸ hfound⟩

end Flattening

namespace Graph

variable {α : Type} {g : Graph α} {outputs : List (Arg α)} {seen : List NodeId} {k : NodeId}

/-- After the graph was flattened every temporary still has a reader. -/
theorem Flattenable.temporariesRead_flatten (hg : g.Flattenable outputs seen) :
    (g.flatten outputs).2.TemporariesRead := by
  obtain ⟨done, owner, f, heq, hvalid, hdone, hshaped⟩ := hg.exists_flatten
  rw [heq]
  intro k hk htemporary
  obtain ⟨horder, hbuilt⟩ := (hvalid.mem_order hg hdone).mp hk
  rw [hvalid.slot_built hg hbuilt] at htemporary
  obtain ⟨c, hc, hread⟩ := hg.temporariesRead _ horder htemporary
  exact hvalid.exists_reader hg hshaped hdone hbuilt hc hread

/-- Whatever a pass prepares, every temporary has a reader. -/
theorem WellFormed.temporariesRead_prepared (h : g.WellFormed) (optimize : Bool)
    (policy : Policy α)
    (hlive : ∀ id, Arg.node id ∈ outputs → ∃ node, g.recorded.get id = some node) :
    (g.prepared optimize policy outputs).2.TemporariesRead := by
  obtain ⟨seen, hg⟩ := h.exists_flattenable policy hlive
  cases optimize with
  | false => exact hg.temporariesRead
  | true => exact hg.temporariesRead_flatten

/-- The ranks of the stored nodes that read a node. -/
def readerRanks (g : Graph α) (k : NodeId) : Set Nat :=
  {rank | ∃ c ∈ g.order, Reads g.references g.slot c k ∧ g.pass.ranks.get c = rank}

/-- The last use of each temporary at its place in the order, none for a value that is not a
temporary. -/
def notedUses (g : Graph α) : List (Option Nat) :=
  g.order.map fun id => if g.isTemporary id then some (g.pass.lastUses.get id) else none

/-- The noted last uses are exact, and the slots of temporaries are planned by them as they are. -/
structure LastUsesExact (g : Graph α) : Prop where
  /-- The rank of a stored node is its place, counted from one. -/
  rank : ∀ i id, g.order[i]? = some id → g.pass.ranks.get id = i + 1
  /-- The last use of a node is the largest rank of a reader, and zero if there is none. -/
  lastUse : ∀ k, IsGreatest (g.readerRanks k) (g.pass.lastUses.get k) ∨
    g.readerRanks k = ∅ ∧ g.pass.lastUses.get k = 0
  /-- A temporary is read after it is stored. -/
  read : ∀ k ∈ g.order, g.isTemporary k = true →
    ∃ c ∈ g.order, Reads g.references g.slot c k ∧ g.pass.ranks.get k < g.pass.ranks.get c
  /-- The last use of a temporary lies behind its own rank. -/
  behind : ∀ k ∈ g.order, g.isTemporary k = true → g.pass.ranks.get k < g.pass.lastUses.get k
  /-- The temporaries hold the slots of the plan for the noted last uses. -/
  planned : ∀ (i : Nat) (k : NodeId), g.order[i]? = some k → g.isTemporary k = true →
    (SlotPlan.make g.notedUses g.pass.firstTemporary).slots[i]? = some (some (g.slot k))
  /-- The plan keeps a slot exactly until the last use that is noted. -/
  released : ∀ (i : Nat) (lastUse : Nat), g.notedUses[i]? = some (some lastUse) →
    SlotPlan.releaseRank lastUse (i + 1) g.notedUses.length = lastUse

/-- A last use was noted before or is the rank of a reader. -/
theorem readRanks_cases (ids : List NodeId) (rank : Nat) (t : Table Nat) (k : NodeId) :
    (g.readRanks ids rank t).get k = t.get k ∨
      ∃ i id, ids[i]? = some id ∧ k ∈ g.reads id ∧
        (g.readRanks ids rank t).get k = rank + i := by
  induction ids generalizing rank t with
  | nil => exact .inl rfl
  | cons id ids ih =>
    rw [readRanks]
    rcases ih (rank + 1) ((g.reads id).foldl
        (fun t read => t.set read (max (t.get read) rank)) t) with heq | ⟨i, id', hi, hk, heq⟩
    · rw [heq, get_noteReads]
      split
      · next hk =>
        rcases Nat.le_total (t.get k) rank with hle | hle
        · exact .inr ⟨0, id, rfl, hk, Nat.max_eq_right hle⟩
        · exact .inl (Nat.max_eq_left hle)
      · exact .inl rfl
    · exact .inr ⟨i + 1, id', hi, hk, by rw [heq]; omega⟩

/-- Where no last use is noted before, it is the largest rank of a reader. -/
theorem Scheduled.isGreatest_lastUses (h : g.Scheduled outputs) (hnone : g.pass.lastUses = ∅)
    (k : NodeId) :
    IsGreatest (g.readerRanks k) (g.lastUses.get k) ∨
      g.readerRanks k = ∅ ∧ g.lastUses.get k = 0 := by
  have hbound : ∀ rank ∈ g.readerRanks k, 0 < rank ∧ rank ≤ g.lastUses.get k := by
    rintro _ ⟨c, hc, hread, rfl⟩
    obtain ⟨i, hi⟩ := List.mem_iff_getElem?.mp hc
    have hle : 1 + i ≤ g.lastUses.get k :=
      le_readRanks hi ((mem_reads h.ranked).mpr hread) 1 g.pass.lastUses
    rw [h.rank i c hi]
    omega
  rcases g.readRanks_cases g.order 1 g.pass.lastUses k with heq | ⟨i, c, hi, hk, heq⟩
  · have hzero : g.lastUses.get k = 0 := by
      rw [lastUses, heq, hnone]
      exact Table.get_emptyCollection k
    refine .inr ⟨Set.eq_empty_of_forall_notMem fun rank hrank => ?_, hzero⟩
    have hpos := hbound rank hrank
    omega
  · refine .inl ⟨⟨c, List.mem_of_getElem? hi, (mem_reads h.ranked).mp hk, ?_⟩, fun rank hrank =>
      (hbound rank hrank).2⟩
    rw [h.rank i c hi, lastUses, heq, Nat.add_comm]

/-- No last use lies behind the end of the order. -/
theorem Scheduled.lastUses_le_length (h : g.Scheduled outputs) (hnone : g.pass.lastUses = ∅)
    (k : NodeId) : g.lastUses.get k ≤ g.order.length := by
  rcases h.isGreatest_lastUses hnone k with ⟨⟨c, hc, _, hrank⟩, _⟩ | ⟨_, hzero⟩
  · obtain ⟨i, hi⟩ := List.mem_iff_getElem?.mp hc
    obtain ⟨hlt, _⟩ := List.getElem?_eq_some_iff.mp hi
    rw [← hrank, h.rank i c hi]
    exact hlt
  · omega

/-- Sharing slots changes no reader. -/
theorem Scheduled.readerRanks_reuseSlots (h : g.Scheduled outputs) (k : NodeId) :
    g.reuseSlots.readerRanks k = g.readerRanks k := by
  ext rank
  exact exists_congr fun c => and_congr_right fun _ => and_congr_left fun _ => h.reads_reuseSlots

/-- The slots were planned by the last uses that are noted. -/
theorem Scheduled.notedUses_reuseSlots (h : g.Scheduled outputs) :
    g.reuseSlots.notedUses = g.temporaryUses := by
  refine List.map_congr_left fun id hid => ?_
  exact if_congr (h.isTemporary_reuseSlots hid) rfl rfl

/-- Where every temporary has a reader, it has one between its own rank and its last use. -/
theorem Scheduled.exists_later_reader (h : g.Scheduled outputs) (hnone : g.pass.lastUses = ∅)
    (hread : g.TemporariesRead) (hk : k ∈ g.order)
    (htemporary : g.pass.firstTemporary ≤ g.slot k) :
    ∃ c ∈ g.order, Reads g.references g.slot c k ∧ g.pass.ranks.get k < g.pass.ranks.get c ∧
      g.pass.ranks.get c ≤ g.lastUses.get k := by
  obtain ⟨c, hc, hread⟩ := hread k hk htemporary
  have hlater := (h.isSchedule.reads c hc k hread).resolve_left (h.not_mem_roster hk)
  have hmem : g.pass.ranks.get c ∈ g.readerRanks k := ⟨c, hc, hread, rfl⟩
  refine ⟨c, hc, hread, hlater.2, ?_⟩
  rcases h.isGreatest_lastUses hnone k with hgreatest | ⟨hempty, _⟩
  · exact hgreatest.2 hmem
  · rw [hempty] at hmem
    exact absurd hmem (Set.notMem_empty _)

/-- If every temporary has a reader, the last uses are exact once slots are shared. -/
theorem Scheduled.lastUsesExact_reuseSlots (h : g.Scheduled outputs)
    (hnone : g.pass.lastUses = ∅) (hread : g.TemporariesRead) : g.reuseSlots.LastUsesExact where
  rank := h.rank
  lastUse k := by
    rw [h.readerRanks_reuseSlots]
    exact h.isGreatest_lastUses hnone k
  read k hk htemporary := by
    obtain ⟨c, hc, hread, hlater, _⟩ :=
      h.exists_later_reader hnone hread hk ((h.isTemporary_reuseSlots hk).mp htemporary)
    exact ⟨c, hc, h.reads_reuseSlots.mpr hread, hlater⟩
  behind k hk htemporary := by
    obtain ⟨c, _, _, hlater, hlast⟩ :=
      h.exists_later_reader hnone hread hk ((h.isTemporary_reuseSlots hk).mp htemporary)
    exact Nat.lt_of_lt_of_le hlater hlast
  planned i k hi htemporary := by
    rw [h.notedUses_reuseSlots]
    exact h.slot_reuseSlots_temporary hi
      ((h.isTemporary_reuseSlots (List.mem_of_getElem? hi)).mp htemporary)
  released i lastUse hi := by
    rw [h.notedUses_reuseSlots] at hi ⊢
    have hlength : g.temporaryUses.length = g.order.length := List.length_map ..
    rw [temporaryUses, List.getElem?_map, Option.map_eq_some_iff] at hi
    obtain ⟨k, hk, hnoted⟩ := hi
    obtain ⟨htemporary, rfl⟩ : g.pass.firstTemporary ≤ g.slot k ∧ g.lastUses.get k = lastUse := by
      simpa using hnoted
    obtain ⟨c, _, _, hlater, hlast⟩ :=
      h.exists_later_reader hnone hread (List.mem_of_getElem? hk) htemporary
    have hend := h.lastUses_le_length hnone k
    rw [h.rank i k hk] at hlater
    rw [SlotPlan.releaseRank, hlength]
    omega

/-- The last uses of a pass with shared slots are exact, whether the graph is flattened or not. -/
theorem WellFormed.lastUsesExact_shared (h : g.WellFormed) (optimize : Bool)
    (policy : Policy α)
    (hlive : ∀ id, Arg.node id ∈ outputs → ∃ node, g.recorded.get id = some node) :
    ((g.prepared optimize policy outputs).2.shared true).LastUsesExact := by
  have hnone : (g.prepared optimize policy outputs).2.pass.lastUses = ∅ := by
    cases optimize <;> rfl
  exact (h.prepares optimize policy hlive).toScheduled.lastUsesExact_reuseSlots hnone
    (h.temporariesRead_prepared optimize policy hlive)

end Graph

end Straightline
