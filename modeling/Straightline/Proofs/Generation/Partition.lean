import Mathlib.Data.Set.Card
import Mathlib.Order.Interval.Finset.Nat
import Straightline.Proofs.Generation.Correctness

/-!
# The partition of the slots

The slots of a prepared graph fall into three ranges. The independent variables hold the first ones
in roster order, the requested nodes that are not independent variables hold the next ones, and the
other stored nodes hold the rest without a gap. A slot of the second range belongs to the first
output position that asks for its node. All this survives flattening, since a built node takes the
slot of its owner, and the sharing of slots, which moves temporaries within their range.
-/

namespace Straightline

namespace Graph

variable {α : Type} {g : Graph α} {outputs : List (Arg α)} {seen : List NodeId}

/-- The requested nodes that are not independent variables. -/
def dependents (g : Graph α) (outputs : List (Arg α)) : Finset NodeId :=
  ((outputs.filterMap Arg.node?).filter fun id => id ∉ g.roster).toFinset

/-- The stored nodes that are not requested. -/
def temporaries (g : Graph α) (outputs : List (Arg α)) : Finset NodeId :=
  g.order.toFinset \ g.dependents outputs

@[simp] theorem mem_dependents {id : NodeId} :
    id ∈ g.dependents outputs ↔ .node id ∈ outputs ∧ id ∉ g.roster := by
  simp [dependents, Arg.node?_eq_some]

@[simp] theorem mem_temporaries {id : NodeId} :
    id ∈ g.temporaries outputs ↔ id ∈ g.order ∧ id ∉ g.dependents outputs := by
  simp [temporaries]

/-- What the slots say about the nodes that hold them. -/
structure Partitioned (g : Graph α) (outputs : List (Arg α)) : Prop where
  /-- Independent variables and stored nodes are live. -/
  live : ∀ id, id ∈ g.roster ∨ id ∈ g.order → g.contains id = true
  /-- An independent variable holds the slot of its roster position, counted from one. -/
  independents : ∀ i id, g.roster[i]? = some id → g.slot id = i + 1
  /-- The requested nodes that are not independent variables are stored. -/
  stored : ∀ id ∈ g.dependents outputs, id ∈ g.order
  /-- They share out the slots behind those of the independent variables. -/
  dependents : Set.BijOn g.slot (g.dependents outputs)
    (Set.Icc (g.roster.length + 1) (g.roster.length + (g.dependents outputs).card))
  /-- Each of these slots belongs to the first output position that asks for its node. -/
  owners : ∀ id ∈ g.dependents outputs,
    ∃ i, g.pass.owners.get (g.slot id) = some i ∧ FirstAt outputs (.node id) i
  /-- The slots of temporaries begin behind them. -/
  firstTemporary : g.pass.firstTemporary = g.roster.length + (g.dependents outputs).card + 1
  /-- The other stored nodes hold the slots from there to the last one, and leave out none. -/
  temporaries : (g.temporaries outputs).image g.slot =
    Finset.Icc g.pass.firstTemporary g.pass.lastId
  /-- The slot of an independent variable or of a temporary belongs to no output position. -/
  unowned : ∀ id, id ∈ g.roster ∨ id ∈ g.temporaries outputs →
    g.pass.owners.get (g.slot id) = none

/-- Every reserved slot of a stored node belongs to the first output position that asks for the
node. -/
def Requested (g : Graph α) (outputs : List (Arg α)) : Prop :=
  ∀ id ∈ g.order, g.slot id < g.pass.firstTemporary →
    ∃ i, g.pass.owners.get (g.slot id) = some i ∧ FirstAt outputs (.node id) i

/-- The stored nodes with a reserved slot are the requested ones. -/
theorem Scheduled.mem_dependents_iff (h : g.Scheduled outputs) (hreq : g.Requested outputs)
    {id : NodeId} :
    id ∈ g.dependents outputs ↔ id ∈ g.order ∧ g.slot id < g.pass.firstTemporary := by
  rw [mem_dependents]
  constructor
  · rintro ⟨houtput, hroster⟩
    exact (h.results id houtput).resolve_left hroster
  · rintro ⟨horder, hlt⟩
    obtain ⟨i, _, hfirst⟩ := hreq id horder hlt
    exact ⟨List.mem_of_getElem? hfirst.1, h.not_mem_roster horder⟩

/-- The other stored nodes are the temporaries. -/
theorem Scheduled.mem_temporaries_iff (h : g.Scheduled outputs) (hreq : g.Requested outputs)
    {id : NodeId} :
    id ∈ g.temporaries outputs ↔ id ∈ g.order ∧ g.pass.firstTemporary ≤ g.slot id := by
  rw [mem_temporaries, h.mem_dependents_iff hreq, not_and, Nat.not_lt]
  exact and_congr_right fun hid => ⟨fun himp => himp hid, fun hle _ => hle⟩

/-- The requested nodes share out the reserved slots behind those of the roster. -/
theorem Scheduled.bijOn_reserved (h : g.Scheduled outputs) (hreq : g.Requested outputs) :
    Set.BijOn g.slot (g.dependents outputs)
      (Set.Icc (g.roster.length + 1) (g.pass.firstTemporary - 1)) := by
  refine ⟨?_, ?_, ?_⟩
  · intro id hid
    obtain ⟨horder, hlt⟩ := (h.mem_dependents_iff hreq).mp hid
    exact ⟨h.slot_gt id horder, Nat.le_sub_one_of_lt hlt⟩
  · intro a ha b hb hab
    exact h.slot_inj a ((h.mem_dependents_iff hreq).mp ha).1 b
      ((h.mem_dependents_iff hreq).mp hb).1 hab
  · rintro slot ⟨hgt, hle⟩
    have hlt : slot < g.pass.firstTemporary := by
      have hpos := h.roster_lt
      omega
    obtain ⟨id, hid, rfl⟩ := h.owned slot ((h.owners slot).mpr ⟨hgt, hlt⟩)
    exact ⟨id, (h.mem_dependents_iff hreq).mpr ⟨hid, hlt⟩, rfl⟩

/-- There is one reserved slot for every requested node and for every independent variable. -/
theorem Scheduled.firstTemporary_eq (h : g.Scheduled outputs) (hreq : g.Requested outputs) :
    g.pass.firstTemporary = g.roster.length + (g.dependents outputs).card + 1 := by
  have hbij := h.bijOn_reserved hreq
  rw [← Finset.coe_Icc] at hbij
  have hcard : (g.dependents outputs).card =
      (Finset.Icc (g.roster.length + 1) (g.pass.firstTemporary - 1)).card :=
    Finset.card_nbij g.slot hbij.mapsTo hbij.injOn hbij.surjOn
  have hlt := h.roster_lt
  rw [Nat.card_Icc] at hcard
  omega

/-- The slots from the first temporary on are held by the temporaries, one each. -/
theorem Scheduled.image_temporaries (h : g.Scheduled outputs) (hreq : g.Requested outputs) :
    (g.temporaries outputs).image g.slot = Finset.Icc g.pass.firstTemporary g.pass.lastId := by
  refine Finset.eq_of_subset_of_card_le ?_ ?_
  · intro slot hslot
    obtain ⟨id, hid, rfl⟩ := Finset.mem_image.mp hslot
    obtain ⟨horder, hle⟩ := (h.mem_temporaries_iff hreq).mp hid
    exact Finset.mem_Icc.mpr ⟨hle, h.slot_le id horder⟩
  · have hinj : Set.InjOn g.slot (g.temporaries outputs) := by
      intro a ha b hb hab
      exact h.slot_inj a ((h.mem_temporaries_iff hreq).mp ha).1 b
        ((h.mem_temporaries_iff hreq).mp hb).1 hab
    have hfilter : g.temporaries outputs =
        (g.order.filter fun id => g.pass.firstTemporary ≤ g.slot id).toFinset := by
      ext id
      rw [h.mem_temporaries_iff hreq]
      simp
    have hcount := h.temporaries
    rw [Finset.card_image_of_injOn hinj, hfilter,
      List.toFinset_card_of_nodup (h.nodup.filter _), ← List.countP_eq_length_filter, Nat.card_Icc]
    omega

/-- Independent variables and stored nodes are live. -/
theorem Prepared.contains_stored (h : g.Prepared) (id : NodeId)
    (hid : id ∈ g.roster ∨ id ∈ g.order) : g.contains id = true := by
  rcases hid with hroster | horder
  · exact contains_iff.mpr ⟨_, h.roster_independent id hroster⟩
  · exact h.contains_of_mem_order horder

/-- The slots of a scheduled graph are partitioned. -/
theorem Scheduled.partitioned (h : g.Scheduled outputs) (hreq : g.Requested outputs) :
    g.Partitioned outputs where
  live := h.toPrepared.contains_stored
  independents := h.roster_slot
  stored id hid := ((h.mem_dependents_iff hreq).mp hid).1
  dependents := by
    have hbij := h.bijOn_reserved hreq
    rwa [h.firstTemporary_eq hreq, Nat.add_sub_cancel] at hbij
  owners id hid := by
    obtain ⟨horder, hlt⟩ := (h.mem_dependents_iff hreq).mp hid
    exact hreq id horder hlt
  firstTemporary := h.firstTemporary_eq hreq
  temporaries := h.image_temporaries hreq
  unowned id hid := by
    by_contra hne
    obtain ⟨hgt, hlt⟩ := (h.owners _).mp hne
    rcases hid with hroster | htemporary
    · have hle := (h.slot_roster hroster).2
      omega
    · have hle := ((h.mem_temporaries_iff hreq).mp htemporary).2
      omega

/-- Shared slots leave out none of their range. -/
theorem Scheduled.image_temporaries_reuseSlots (h : g.Scheduled outputs)
    (hreq : g.Requested outputs) :
    (g.temporaries outputs).image g.reuseSlots.slot =
      Finset.Icc g.pass.firstTemporary g.reuseSlots.pass.lastId := by
  ext slot
  rw [Finset.mem_image, Finset.mem_Icc]
  constructor
  · rintro ⟨id, hid, rfl⟩
    obtain ⟨horder, hle⟩ := (h.mem_temporaries_iff hreq).mp hid
    exact h.slot_reuseSlots_range horder hle
  · rintro ⟨hge, hle⟩
    have hfirst : 0 < g.pass.firstTemporary := Nat.zero_lt_of_lt h.roster_lt
    obtain ⟨i, hi⟩ : ∃ i : Nat, g.slotPlan.slots[i]? = some (some slot) :=
      SlotPlan.make_issues g.temporaryUses hge hle hfirst
    -- A place with a planned slot is a place of the order, and a temporary stands there.
    have hlength : g.slotPlan.slots.length = g.order.length := by
      have hshape := congrArg List.length (SlotPlan.make_shape g.temporaryUses hfirst)
      rw [List.length_map, List.length_map] at hshape
      exact hshape.trans (List.length_map _)
    have hlt : i < g.order.length := hlength ▸ (List.getElem?_eq_some_iff.mp hi).1
    obtain ⟨planned, hplanned, hsome⟩ := h.slotPlan_isSome (List.getElem?_eq_getElem hlt)
    obtain rfl : planned = some slot := Option.some.inj (hplanned.symm.trans hi)
    have htemporary := hsome.mp rfl
    have hkept := h.slot_reuseSlots_temporary (List.getElem?_eq_getElem hlt) htemporary
    rw [hi, Option.some_inj, Option.some_inj] at hkept
    exact ⟨g.order[i], (h.mem_temporaries_iff hreq).mpr ⟨List.getElem_mem hlt, htemporary⟩,
      hkept.symm⟩

/-- The slots stay partitioned when temporaries share theirs. -/
theorem Scheduled.partitioned_reuseSlots (h : g.Scheduled outputs) (hreq : g.Requested outputs) :
    g.reuseSlots.Partitioned outputs := by
  have hplain := h.partitioned hreq
  have hsame : ∀ id ∈ g.dependents outputs, g.reuseSlots.slot id = g.slot id := by
    intro id hid
    obtain ⟨horder, hlt⟩ := (h.mem_dependents_iff hreq).mp hid
    exact h.slot_reuseSlots_reserved horder hlt
  exact {
    live := hplain.live
    independents := h.prepared_reuseSlots.roster_slot
    stored := hplain.stored
    dependents := hplain.dependents.congr fun id hid => (hsame id hid).symm
    owners := by
      intro id hid
      change ∃ i, g.pass.owners.get (g.reuseSlots.slot id) = some i ∧ _
      rw [hsame id hid]
      exact hplain.owners id hid
    firstTemporary := hplain.firstTemporary
    temporaries := h.image_temporaries_reuseSlots hreq
    unowned := by
      intro id hid
      by_contra hne
      obtain ⟨hgt, hlt⟩ := (h.owners _).mp hne
      rcases hid with hroster | htemporary
      · have hle : g.reuseSlots.slot id ≤ g.roster.length :=
          (h.prepared_reuseSlots.slot_roster hroster).2
        omega
      · obtain ⟨horder, hle⟩ := (h.mem_temporaries_iff hreq).mp htemporary
        have hrange := (h.slot_reuseSlots_range horder hle).1
        omega }

/-- Scheduling lets the first request of a node own its slot. -/
theorem WellFormed.requested_scheduled (h : g.WellFormed) (policy : Policy α)
    (hlive : ∀ id, Arg.node id ∈ outputs → ∃ node, g.recorded.get id = some node) :
    (g.scheduled policy outputs).Requested outputs := by
  intro id horder hlt
  obtain ⟨extra, hissued, _, _, hrun⟩ := h.settles_scheduled policy hlive
  obtain ⟨queued, hall, _⟩ := hrun.valid.issued
  have hgt := (h.scheduled_spec policy hlive).slot_gt id horder
  have hreserved : id ∈ g.roster ++ extra := by
    have hlisted := hall.ne_zero_iff.mp (hrun.valid.stored id horder)
    refine (List.mem_append.mp hlisted).resolve_right fun hqueued => ?_
    have hbehind := hall.lt_of_mem_append hqueued
    rw [← hissued.length] at hbehind
    exact absurd hlt (Nat.not_lt_of_le hbehind)
  -- A reserved node holds the slot of its place both before and after scheduling.
  obtain ⟨i, hi⟩ := List.mem_iff_getElem?.mp hreserved
  have hplace : ((g.roster ++ extra) ++ queued)[i]? = some id := by
    rw [List.getElem?_append_left (List.getElem?_eq_some_iff.mp hi).1, hi]
  have hslot : (g.scheduled policy outputs).slot id =
      (Reservation.make g.roster outputs).slots.get id :=
    (hall.slot i id hplace).trans (hissued.slot i id hi).symm
  have hroster : id ∉ g.roster := by
    intro hmem
    have hle := hissued.le_of_mem_prefix hmem
    rw [hslot] at hgt
    exact absurd hgt (Nat.not_lt_of_le hle)
  rw [hslot]
  exact Reservation.owners_make_first h.roster_nodup outputs hroster
    (hissued.ne_zero_iff.mpr hreserved)

/-- What stands for a requested operand in the final graph. -/
def standIn (g : Graph α) : Arg α → Arg α
  | .const v => .const v
  | .node id => .node ((g.counterpart? id).getD id)

end Graph

namespace Flattening

variable {α : Type} {g : Graph α} {outputs : List (Arg α)} {seen done : List NodeId}
  {owner : NodeId → NodeId} {f : Flattening α}

/-- A requested node has an image, which is a node. -/
theorem Valid.image_node (hg : g.Flattenable outputs seen) (h : Valid g seen done owner f)
    (hdone : ∀ id ∈ seen, id ∈ done) {id : NodeId} (hid : .node id ∈ outputs) :
    ∃ k, f.image (.node id) = .node k ∧ (id ∈ g.roster ∨ ∃ n, f.nodes.get k = some n) := by
  have hstands := h.image_output hg hdone hid
  generalize f.image (.node id) = y at hstands
  generalize hx : Arg.node id = x at hstands
  cases hstands with
  | const v => simp at hx
  | @independent t ht =>
    obtain rfl : id = t := by simpa using hx
    exact ⟨id, rfl, .inl ht⟩
  | @built k n hn => exact ⟨k, rfl, .inr ⟨n, hn⟩⟩

/-- The operand that flattening puts in the place of an output stands for it. -/
theorem Valid.image_eq_standIn (hg : g.Flattenable outputs seen) (h : Valid g seen done owner f)
    (hdone : ∀ id ∈ seen, id ∈ done) {x : Arg α} (hx : x ∈ outputs) :
    f.image x = (f.graph g).standIn x := by
  cases x with
  | const v => rfl
  | node id =>
    obtain ⟨k, hk, _⟩ := h.image_node hg hdone hx
    have hcounterpart : (f.graph g).counterpart? id = (f.images.get id).bind Arg.node? := rfl
    rw [Graph.standIn, hcounterpart, hk]
    rw [Flattening.image] at hk
    cases hfound : f.images.get id with
    | none =>
      rw [hfound, Option.getD_none] at hk
      exact hk.symm
    | some y =>
      rw [hfound, Option.getD_some] at hk
      rw [hk]
      rfl

/-- A requested node that is not an independent variable has a counterpart. -/
theorem Valid.isSome_counterpart (hg : g.Flattenable outputs seen)
    (h : Valid g seen done owner f) (hdone : ∀ id ∈ seen, id ∈ done) {id : NodeId}
    (hid : .node id ∈ outputs) (hroster : id ∉ g.roster) :
    ((f.graph g).counterpart? id).isSome = true := by
  obtain ⟨k, hk, hbuilt⟩ := h.image_node hg hdone hid
  obtain ⟨n, hn⟩ := hbuilt.resolve_left hroster
  have hlt := hg.wellFormed.issued id (hg.live id hid)
  have hne : k ≠ id := fun heq => absurd hlt (Nat.not_lt_of_le (heq ▸ (h.range k n hn).1))
  rw [counterpart?_of_image hk hne, Option.isSome_some]

/-- Different outputs stay different. -/
theorem Valid.image_inj (hg : g.Flattenable outputs seen) (h : Valid g seen done owner f)
    (hdone : ∀ id ∈ seen, id ∈ done) {x y : Arg α} (hx : x ∈ outputs) (hy : y ∈ outputs)
    (hxy : f.image x = f.image y) : x = y := by
  have hsx := h.image_output hg hdone hx
  have hsy := h.image_output hg hdone hy
  rw [← hxy] at hsy
  generalize f.image x = z at hsx hsy
  -- An independent variable is not built, so both outputs are of one kind.
  cases hsx with
  | const v =>
    cases hsy
    rfl
  | independent ht =>
    cases hsy with
    | independent _ => rfl
    | built hn => exact absurd ht (h.not_mem_roster hg hn)
  | built hn =>
    cases hsy with
    | independent ht => exact absurd ht (h.not_mem_roster hg hn)
    | built _ => rfl

/-- In the flattened graph, too, the first request of a node owns its slot. -/
theorem Valid.requested_graph (hg : g.Flattenable outputs seen) (h : Valid g seen done owner f)
    (hdone : ∀ id ∈ seen, id ∈ done) (hreq : g.Requested outputs) :
    (f.graph g).Requested (outputs.map f.image) := by
  intro b hb hlt
  obtain ⟨horder, n, hn⟩ := (h.mem_order hg hdone).mp hb
  rw [h.slot_built hg ⟨n, hn⟩] at hlt ⊢
  obtain ⟨i, howner, hfirst⟩ := hreq (owner b) horder hlt
  obtain ⟨c, m, himage, hm, hc⟩ := h.exists_built hg hdone horder
  obtain rfl := h.owner_inj c m b n hm hn hc
  refine ⟨i, howner, ?_⟩
  rw [← himage]
  exact hfirst.map fun x hx y hy => h.image_inj hg hdone hx hy

end Flattening

namespace Graph

variable {α : Type} {g : Graph α} {outputs : List (Arg α)} {seen : List NodeId}

/-- What a pass prepares lets the first request of a node own its slot. -/
theorem WellFormed.requested_prepared (h : g.WellFormed) (optimize : Bool) (policy : Policy α)
    (hlive : ∀ id, Arg.node id ∈ outputs → ∃ node, g.recorded.get id = some node) :
    (g.prepared optimize policy outputs).2.Requested (g.prepared optimize policy outputs).1 := by
  have hscheduled := h.requested_scheduled policy hlive
  unfold prepared
  cases optimize with
  | false => exact hscheduled
  | true =>
    obtain ⟨seen, hg⟩ := h.exists_flattenable policy hlive
    obtain ⟨done, owner, f, heq, hvalid, hdone, _⟩ := hg.exists_flatten
    rw [if_pos rfl, heq]
    exact hvalid.requested_graph hg hdone hscheduled

/-- The outputs of a pass are what stands for the requested operands, each for one of them. -/
structure StandsFor (g : Graph α) (optimize : Bool) (requested outputs : List (Arg α)) : Prop where
  /-- Every position holds what stands for the operand requested there. -/
  outputs : outputs = requested.map g.standIn
  /-- Different operands have different stand-ins. -/
  inj : ∀ x ∈ requested, ∀ y ∈ requested, g.standIn x = g.standIn y → x = y
  /-- A node that is not an independent variable has a flattened counterpart exactly if the graph
  was flattened. -/
  counterpart : ∀ id, .node id ∈ requested → id ∉ g.roster →
    (g.counterpart? id).isSome = optimize

theorem WellFormed.standsFor_prepared (h : g.WellFormed) (optimize : Bool) (policy : Policy α)
    (hlive : ∀ id, Arg.node id ∈ outputs → ∃ node, g.recorded.get id = some node) :
    (g.prepared optimize policy outputs).2.StandsFor optimize outputs
      (g.prepared optimize policy outputs).1 := by
  unfold prepared
  cases optimize with
  | false =>
    have hself : (g.scheduled policy outputs).standIn = id := by
      funext x
      cases x <;> rfl
    refine ⟨?_, ?_, fun _ _ _ => rfl⟩
    · simp only [Bool.false_eq_true, if_false, hself, List.map_id]
    · intro x _ y _ hxy
      simpa only [Bool.false_eq_true, if_false, hself, id_eq] using hxy
  | true =>
    obtain ⟨seen, hg⟩ := h.exists_flattenable policy hlive
    obtain ⟨done, owner, f, heq, hvalid, hdone, _⟩ := hg.exists_flatten
    rw [if_pos rfl, heq]
    refine ⟨?_, ?_, ?_⟩
    · exact List.map_congr_left fun x hx => hvalid.image_eq_standIn hg hdone hx
    · intro x hx y hy hxy
      rw [← hvalid.image_eq_standIn hg hdone hx, ← hvalid.image_eq_standIn hg hdone hy] at hxy
      exact hvalid.image_inj hg hdone hx hy hxy
    · intro id hid hroster
      exact hvalid.isSome_counterpart hg hdone hid hroster

theorem StandsFor.shared {optimize : Bool} {requested : List (Arg α)}
    (h : g.StandsFor optimize requested outputs) (reuse : Bool) :
    (g.shared reuse).StandsFor optimize requested outputs := by
  have hsame : (g.shared reuse).standIn = g.standIn := by
    funext x
    cases x <;> cases reuse <;> rfl
  refine ⟨hsame ▸ h.outputs, hsame ▸ h.inj, ?_⟩
  cases reuse <;> exact h.counterpart

/-- The slots of a pass are partitioned, with slots shared or not. -/
theorem WellFormed.partitioned_shared (h : g.WellFormed) (optimize reuse : Bool)
    (policy : Policy α)
    (hlive : ∀ id, Arg.node id ∈ outputs → ∃ node, g.recorded.get id = some node) :
    ((g.prepared optimize policy outputs).2.shared reuse).Partitioned
      (g.prepared optimize policy outputs).1 := by
  have hscheduled := (h.prepares optimize policy hlive).toScheduled
  have hreq := h.requested_prepared optimize policy hlive
  cases reuse with
  | false => exact hscheduled.partitioned hreq
  | true => exact hscheduled.partitioned_reuseSlots hreq

end Graph

end Straightline
