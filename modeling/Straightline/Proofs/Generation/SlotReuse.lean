import Straightline.Proofs.Generation.Scheduled
import Straightline.Proofs.Generation.SlotPlan

/-!
# Shared slots keep values safe

The reads of a stored node are what it reads through nodes without a slot, and the last use of a
value is at or after each of its readers. Since the plan keeps a slot until the last use of its
value, a node finds all values that it reads in their slots although temporaries share them.
-/

namespace Straightline

namespace Graph

variable {α : Type} {g : Graph α} {outputs : List (Arg α)}

/-- The listed reads of a node are the nodes it reads. -/
theorem mem_reads (hranked : ∃ rank, Ranked g.references rank ∧ ∀ id, rank id ≤ g.next)
    {id k : NodeId} : k ∈ g.reads id ↔ Reads g.references g.slot id k := by
  obtain ⟨rank, hrank, hbound⟩ := hranked
  let inlined (id : NodeId) : List NodeId := if g.slot id = 0 then g.references id else []
  have hinlined : ∀ {m n}, n ∈ inlined m ↔ g.slot m = 0 ∧ n ∈ g.references m := by
    intro m n
    by_cases hslot : g.slot m = 0 <;> simp [inlined, hslot]
  have hsub : Ranked inlined rank := fun m n hn => hrank m n (hinlined.mp hn).2
  have hmem : k ∈ g.reads id ↔ (∃ m ∈ g.references id, Reaches inlined m k) ∧ g.slot k ≠ 0 := by
    rw [← mem_dependencyOrder hsub fun m => Nat.lt_succ_of_le (hbound m)]
    simp [reads, inlined]
  rw [hmem]
  clear hmem
  constructor
  · rintro ⟨⟨m, hm, hreach⟩, hslot⟩
    -- The path runs through nodes without a slot, so it is followed from its start.
    induction hreach using Relation.ReflTransGen.head_induction_on generalizing id with
    | refl => exact .direct hm hslot
    | head hstep _ ih =>
      obtain ⟨hzero, hnext⟩ := hinlined.mp hstep
      exact .through hm hzero (ih hnext)
  · intro hread
    refine ⟨?_, hread.slot_ne_zero⟩
    induction hread with
    | direct hk _ => exact ⟨_, hk, .refl⟩
    | through hm hzero _ ih =>
      obtain ⟨n, hn, hreach⟩ := ih
      exact ⟨_, hm, .head (hinlined.mpr ⟨hzero, hn⟩) hreach⟩

/-- Noting the reads of one node raises their last use to its rank. -/
theorem get_noteReads (reads : List NodeId) (rank : Nat) (t : Table Nat) (k : NodeId) :
    (reads.foldl (fun t read => t.set read (max (t.get read) rank)) t).get k =
      if k ∈ reads then max (t.get k) rank else t.get k := by
  induction reads generalizing t with
  | nil => simp
  | cons read rest ih =>
    rw [List.foldl_cons, ih, Table.get_set]
    by_cases hk : k = read
    · subst hk
      by_cases hrest : k ∈ rest <;> simp [hrest]
    · simp [hk]

/-- Last uses never fall. -/
theorem le_readRanks_of_le {t : Table Nat} {k : NodeId} {n : Nat} (hle : n ≤ t.get k)
    (ids : List NodeId) (rank : Nat) : n ≤ (g.readRanks ids rank t).get k := by
  induction ids generalizing rank t with
  | nil => exact hle
  | cons id ids ih =>
    refine ih ?_ (rank + 1)
    rw [get_noteReads]
    split
    · exact Nat.le_trans hle (Nat.le_max_left _ _)
    · exact hle

/-- The last use of a value is not before any of its readers. -/
theorem le_readRanks {ids : List NodeId} {i : Nat} {id k : NodeId} (hi : ids[i]? = some id)
    (hk : k ∈ g.reads id) (rank : Nat) (t : Table Nat) :
    rank + i ≤ (g.readRanks ids rank t).get k := by
  induction ids generalizing i rank t with
  | nil => simp at hi
  | cons id' ids ih =>
    cases i with
    | zero =>
      obtain rfl : id' = id := by simpa using hi
      refine le_readRanks_of_le ?_ ids (rank + 1)
      rw [get_noteReads, if_pos hk]
      exact Nat.le_max_right _ _
    | succ i =>
      rw [List.getElem?_cons_succ] at hi
      have hrest := ih hi (rank + 1) ((g.reads id').foldl
        (fun t read => t.set read (max (t.get read) rank)) t)
      rw [readRanks]
      omega

/-- Planned slots go to the nodes of the order and to no other node. -/
theorem get_assignSlots_of_not_mem {ids : List NodeId} {id : NodeId} (hid : id ∉ ids)
    (plan : List (Option Nat)) (slots : Table Nat) :
    (assignSlots ids plan slots).get id = slots.get id := by
  induction ids generalizing plan slots with
  | nil => cases plan <;> rfl
  | cons k ids ih =>
    rw [List.mem_cons, not_or] at hid
    match plan with
    | [] => rfl
    | none :: plan => exact ih hid.2 plan slots
    | some slot :: plan =>
      rw [assignSlots, ih hid.2, Table.get_set_of_ne _ _ hid.1]

/-- A node of the order takes the slot planned for its place and keeps its own where none is. -/
theorem get_assignSlots {ids : List NodeId} (hnodup : ids.Nodup) {i : Nat} {id : NodeId}
    (hi : ids[i]? = some id) (plan : List (Option Nat)) (slots : Table Nat) :
    (assignSlots ids plan slots).get id = (plan[i]?.join).getD (slots.get id) := by
  induction ids generalizing i plan slots with
  | nil => simp at hi
  | cons k ids ih =>
    rw [List.nodup_cons] at hnodup
    match plan, i with
    | [], _ => rfl
    | none :: plan, 0 =>
      obtain rfl : k = id := by simpa using hi
      exact get_assignSlots_of_not_mem hnodup.1 plan slots
    | some slot :: plan, 0 =>
      obtain rfl : k = id := by simpa using hi
      rw [assignSlots, get_assignSlots_of_not_mem hnodup.1, Table.get_set_self]
      rfl
    | none :: plan, i + 1 =>
      rw [List.getElem?_cons_succ] at hi
      exact ih hnodup.2 hi plan slots
    | some slot :: plan, i + 1 =>
      rw [List.getElem?_cons_succ] at hi
      have hne : id ≠ k := by
        rintro rfl
        exact hnodup.1 (List.mem_of_getElem? hi)
      rw [assignSlots, ih hnodup.2 hi, Table.get_set_of_ne _ _ hne, List.getElem?_cons_succ]

/-- The last use of each temporary of the order, none for a value with a reserved slot. -/
def temporaryUses (g : Graph α) : List (Option Nat) :=
  g.order.map fun id => if g.pass.firstTemporary ≤ g.slot id then some (g.lastUses.get id) else none

/-- The slots planned for the temporaries. -/
def slotPlan (g : Graph α) : SlotPlan := SlotPlan.make g.temporaryUses g.pass.firstTemporary

theorem slot_reuseSlots (g : Graph α) (id : NodeId) :
    g.reuseSlots.slot id = (assignSlots g.order g.slotPlan.slots g.pass.slots).get id := rfl

theorem lastId_reuseSlots (g : Graph α) : g.reuseSlots.pass.lastId = g.slotPlan.lastId := rfl

/-- A node outside the order keeps its slot. -/
theorem slot_reuseSlots_of_not_mem {id : NodeId} (hid : id ∉ g.order) :
    g.reuseSlots.slot id = g.slot id :=
  get_assignSlots_of_not_mem hid _ _

/-- The plan has a slot at a place of the order exactly if a temporary stands there. -/
theorem Scheduled.slotPlan_isSome (h : g.Scheduled outputs) {i : Nat} {id : NodeId}
    (hi : g.order[i]? = some id) :
    ∃ planned, g.slotPlan.slots[i]? = some planned ∧
      (planned.isSome = true ↔ g.pass.firstTemporary ≤ g.slot id) := by
  have hfirst : 0 < g.pass.firstTemporary := Nat.zero_lt_of_lt h.roster_lt
  have hshape := congrArg (·[i]?) (SlotPlan.make_shape g.temporaryUses hfirst)
  simp only [List.getElem?_map, temporaryUses, hi, Option.map_some] at hshape
  obtain ⟨planned, hplanned, hsome⟩ := Option.map_eq_some_iff.mp hshape
  refine ⟨planned, hplanned, ?_⟩
  rw [hsome]
  split <;> simp_all

/-- A stored node with a reserved slot keeps it. -/
theorem Scheduled.slot_reuseSlots_reserved (h : g.Scheduled outputs) {id : NodeId}
    (hid : id ∈ g.order) (hreserved : g.slot id < g.pass.firstTemporary) :
    g.reuseSlots.slot id = g.slot id := by
  obtain ⟨i, hi⟩ := List.mem_iff_getElem?.mp hid
  obtain ⟨planned, hplanned, hsome⟩ := h.slotPlan_isSome hi
  have hnone : planned = none := by
    rw [← Option.not_isSome_iff_eq_none, hsome]
    omega
  rw [slot_reuseSlots, get_assignSlots h.nodup hi, hplanned, hnone]
  rfl

/-- A temporary takes the slot planned for its place. -/
theorem Scheduled.slot_reuseSlots_temporary (h : g.Scheduled outputs) {i : Nat} {id : NodeId}
    (hi : g.order[i]? = some id) (htemporary : g.pass.firstTemporary ≤ g.slot id) :
    g.slotPlan.slots[i]? = some (some (g.reuseSlots.slot id)) := by
  obtain ⟨planned, hplanned, hsome⟩ := h.slotPlan_isSome hi
  obtain ⟨x, rfl⟩ := Option.isSome_iff_exists.mp (hsome.mpr htemporary)
  rw [slot_reuseSlots, get_assignSlots h.nodup hi, hplanned]
  rfl

/-- Temporaries stay behind the reserved slots, and within the issued ones. -/
theorem Scheduled.slot_reuseSlots_range (h : g.Scheduled outputs) {id : NodeId}
    (hid : id ∈ g.order) (htemporary : g.pass.firstTemporary ≤ g.slot id) :
    g.pass.firstTemporary ≤ g.reuseSlots.slot id ∧
      g.reuseSlots.slot id ≤ g.reuseSlots.pass.lastId := by
  obtain ⟨i, hi⟩ := List.mem_iff_getElem?.mp hid
  exact SlotPlan.make_range (Nat.zero_lt_of_lt h.roster_lt)
    (h.slot_reuseSlots_temporary hi htemporary)

/-- Once slots are reserved, the slots of temporaries are those from the first one on. -/
theorem isTemporary_iff (h : 0 < g.pass.firstTemporary) {id : NodeId} :
    g.isTemporary id = true ↔ g.pass.firstTemporary ≤ g.slot id := by
  simp [isTemporary, h]

/-- Sharing slots makes no other stored node a temporary. -/
theorem Scheduled.isTemporary_reuseSlots (h : g.Scheduled outputs) {id : NodeId}
    (hid : id ∈ g.order) :
    g.reuseSlots.isTemporary id = true ↔ g.pass.firstTemporary ≤ g.slot id := by
  rw [isTemporary_iff (g := g.reuseSlots) (Nat.zero_lt_of_lt h.roster_lt)]
  constructor
  · intro hle
    by_contra hlt
    rw [h.slot_reuseSlots_reserved hid (Nat.lt_of_not_le hlt)] at hle
    exact hlt hle
  · intro hle
    exact (h.slot_reuseSlots_range hid hle).1

/-- Two stored nodes share a slot only if both are temporaries and the earlier one is released
before the later one is computed. -/
theorem Scheduled.release_lt (h : g.Scheduled outputs) {i j : Nat} {a b : NodeId}
    (ha : g.order[i]? = some a) (hb : g.order[j]? = some b) (hij : i < j)
    (hslot : g.reuseSlots.slot a = g.reuseSlots.slot b) :
    g.pass.firstTemporary ≤ g.slot a ∧
      SlotPlan.releaseRank (g.lastUses.get a) (i + 1) g.order.length < j + 1 := by
  have hmemA := List.mem_of_getElem? ha
  have hmemB := List.mem_of_getElem? hb
  by_cases htempA : g.pass.firstTemporary ≤ g.slot a
  · refine ⟨htempA, ?_⟩
    have hplanA := h.slot_reuseSlots_temporary ha htempA
    by_cases htempB : g.pass.firstTemporary ≤ g.slot b
    · have hplanB := h.slot_reuseSlots_temporary hb htempB
      have huse : g.temporaryUses[i]? = some (some (g.lastUses.get a)) := by
        simp [temporaryUses, ha, htempA]
      have hapart := SlotPlan.make_apart (Nat.zero_lt_of_lt h.roster_lt) huse hij
        (hslot ▸ hplanA) hplanB
      simpa [temporaryUses] using hapart
    · have hkeepB := h.slot_reuseSlots_reserved hmemB (Nat.lt_of_not_le htempB)
      have hrangeA := h.slot_reuseSlots_range hmemA htempA
      omega
  · have hkeepA := h.slot_reuseSlots_reserved hmemA (Nat.lt_of_not_le htempA)
    by_cases htempB : g.pass.firstTemporary ≤ g.slot b
    · have hrangeB := h.slot_reuseSlots_range hmemB htempB
      omega
    · have hkeepB := h.slot_reuseSlots_reserved hmemB (Nat.lt_of_not_le htempB)
      -- Reserved slots are not shared, so the two would be one node at two places.
      have hab : a = b := h.slot_inj a hmemA b hmemB (by omega)
      subst hab
      obtain ⟨hi, hgetA⟩ := List.getElem?_eq_some_iff.mp ha
      obtain ⟨hj, hgetB⟩ := List.getElem?_eq_some_iff.mp hb
      have hindex : i = j := h.nodup.getElem_inj_iff.mp (hgetA.trans hgetB.symm)
      omega

/-- Sharing slots gives and takes none. -/
theorem Scheduled.slot_reuseSlots_eq_zero (h : g.Scheduled outputs) (id : NodeId) :
    g.reuseSlots.slot id = 0 ↔ g.slot id = 0 := by
  by_cases hid : id ∈ g.order
  · have hgt := h.slot_gt id hid
    by_cases htemporary : g.pass.firstTemporary ≤ g.slot id
    · have hrange := h.slot_reuseSlots_range hid htemporary
      have hfirst := h.roster_lt
      omega
    · rw [h.slot_reuseSlots_reserved hid (Nat.lt_of_not_le htemporary)]
  · rw [slot_reuseSlots_of_not_mem hid]

/-- Sharing slots changes nothing about who reads what. -/
theorem Scheduled.reads_reuseSlots (h : g.Scheduled outputs) {id k : NodeId} :
    Reads g.references g.reuseSlots.slot id k ↔ Reads g.references g.slot id k :=
  ⟨fun hread => hread.congr fun _ _ j _ => (h.slot_reuseSlots_eq_zero j).symm,
    fun hread => hread.congr fun _ _ j _ => h.slot_reuseSlots_eq_zero j⟩

/-- The graph stays prepared when slots are shared. -/
theorem Scheduled.prepared_reuseSlots (h : g.Scheduled outputs) : g.reuseSlots.Prepared := by
  have hlast : g.pass.firstTemporary - 1 ≤ g.slotPlan.lastId :=
    (SlotPlan.make_lastId g.temporaryUses (Nat.zero_lt_of_lt h.roster_lt)).1
  have hfirst := h.roster_lt
  exact { h with
    roster_slot := by
      intro i id hi
      have hout : id ∉ g.order := fun hmem => h.not_mem_roster hmem (List.mem_of_getElem? hi)
      rw [slot_reuseSlots_of_not_mem hout]
      exact h.roster_slot i id hi
    slot_gt := by
      intro id hid
      change g.roster.length < g.reuseSlots.slot id
      have hgt := h.slot_gt id hid
      by_cases htemporary : g.pass.firstTemporary ≤ g.slot id
      · have hrange := h.slot_reuseSlots_range hid htemporary
        omega
      · rw [h.slot_reuseSlots_reserved hid (Nat.lt_of_not_le htemporary)]
        exact hgt
    slot_le := by
      intro id hid
      by_cases htemporary : g.pass.firstTemporary ≤ g.slot id
      · exact (h.slot_reuseSlots_range hid htemporary).2
      · rw [h.slot_reuseSlots_reserved hid (Nat.lt_of_not_le htemporary), lastId_reuseSlots]
        omega
    roster_le := by
      rw [lastId_reuseSlots]
      change g.roster.length ≤ g.slotPlan.lastId
      omega }

/-- The places of a list that is split at an entry. -/
theorem getElem?_split {β : Type} {ids front back : List β} {k : β} (h : ids = front ++ k :: back) :
    ids[front.length]? = some k ∧ ∀ m, ids[front.length + 1 + m]? = back[m]? := by
  subst h
  refine ⟨by simp, fun m => ?_⟩
  rw [List.getElem?_append_right (by omega),
    show front.length + 1 + m - front.length = m + 1 by omega, List.getElem?_cons_succ]

/-- A node that reads a value stands before every node that takes over its slot. -/
theorem Scheduled.reader_lt (h : g.Scheduled outputs) {i j m : Nat} {a b c : NodeId}
    (ha : g.order[i]? = some a) (hb : g.order[j]? = some b) (hij : i < j)
    (hslot : g.reuseSlots.slot a = g.reuseSlots.slot b) (hc : g.order[m]? = some c)
    (hread : Reads g.references g.slot c a) : m < j := by
  have hrelease := (h.release_lt ha hb hij hslot).2
  have huse : 1 + m ≤ g.lastUses.get a :=
    le_readRanks hc ((mem_reads h.ranked).mpr hread) 1 g.pass.lastUses
  obtain ⟨hlength, _⟩ := List.getElem?_eq_some_iff.mp hc
  simp only [SlotPlan.releaseRank] at hrelease
  omega

/-- Where a node reads a temporary, no later node has taken its slot. -/
theorem Scheduled.slot_ne_of_reads (h : g.Scheduled outputs) {front back after : List NodeId}
    {k id j : NodeId} (horder : g.order = front ++ k :: (back ++ id :: after))
    (hread : Reads g.references g.slot id k) (hj : j ∈ back) :
    g.reuseSlots.slot j ≠ g.reuseSlots.slot k := by
  intro heq
  obtain ⟨m, hm⟩ := List.mem_iff_getElem?.mp hj
  obtain ⟨hlt, _⟩ := List.getElem?_eq_some_iff.mp hm
  obtain ⟨hk, hlater⟩ := getElem?_split horder
  have hjAt : g.order[front.length + 1 + m]? = some j := by
    rw [hlater, List.getElem?_append_left hlt, hm]
  have hid : g.order[front.length + 1 + back.length]? = some id := by
    rw [hlater, (getElem?_split rfl).1]
  have hbefore := h.reader_lt hk hjAt (by omega) heq.symm hid hread
  omega

/-- A graph whose temporaries share slots can be executed. -/
theorem Scheduled.runnable_reuseSlots (h : g.Scheduled outputs) :
    g.reuseSlots.Runnable outputs where
  toPrepared := h.prepared_reuseSlots
  safe before id after horder k hread := by
    have hread' : Reads g.references g.slot id k := h.reads_reuseSlots.mp hread
    rcases h.mem_of_reads horder hread' with hroster | hbefore
    · exact .inl hroster
    · obtain ⟨front, back, rfl⟩ := List.append_of_mem hbefore
      refine .inr ⟨front, back, rfl, fun j hj => ?_⟩
      have hsplit : g.order = front ++ k :: (back ++ id :: after) := by
        rw [← List.cons_append, ← List.append_assoc]
        exact horder
      exact h.slot_ne_of_reads hsplit hread' hj
  results id hid := by
    rcases h.results id hid with hroster | ⟨horder, hreserved⟩
    · exact .inl hroster
    · obtain ⟨front, back, hsplit⟩ := List.append_of_mem horder
      refine .inr ⟨front, back, hsplit, fun j hj heq => ?_⟩
      obtain ⟨m, hm⟩ := List.mem_iff_getElem?.mp hj
      obtain ⟨hidAt, hlater⟩ := getElem?_split hsplit
      have htemporary := (h.release_lt hidAt ((hlater m).trans hm) (by omega) heq.symm).1
      omega

/-- Sharing slots never needs more of them. -/
theorem Scheduled.lastId_reuseSlots_le (h : g.Scheduled outputs) :
    g.reuseSlots.pass.lastId ≤ g.pass.lastId := by
  have hfirst := h.roster_lt
  have hlast := (SlotPlan.make_lastId g.temporaryUses (Nat.zero_lt_of_lt h.roster_lt)).2
  have hcount : g.temporaryUses.countP Option.isSome =
      g.order.countP fun id => g.pass.firstTemporary ≤ g.slot id := by
    rw [temporaryUses, List.countP_map]
    refine List.countP_congr fun id _ => ?_
    simp only [Function.comp_apply, decide_eq_true_eq]
    split <;> simp_all
  have htemporaries := h.temporaries
  rw [lastId_reuseSlots, slotPlan]
  omega

end Graph

end Straightline
