import Mathlib.Data.Finset.Card
import Mathlib.Data.Finset.Max
import Mathlib.Order.Interval.Finset.Nat
import Straightline.Proofs.Generation.SlotChoice

/-!
# How many slots a plan takes

A temporary lives from the rank at which it is computed to the rank after which its slot is free.
Temporaries that live at one rank need different slots, however they are chosen. A plan takes no
more: it issues a slot only where none is idle, so that at this rank the latest holders of all
issued slots live, together with the temporary that takes the new one.
-/

namespace Straightline

namespace SlotPlan

/-- The positions of the temporaries. -/
def temporaries (lastUses : List (Option Nat)) : Finset Nat :=
  (Finset.range lastUses.length).filter fun i => (lastUses[i]?.join).isSome

/-- The ranks from the computation of the temporary at a position to its last use, none for other
values. -/
def lifetime (lastUses : List (Option Nat)) (i : Nat) : Finset Nat :=
  Finset.Icc (i + 1) (stop lastUses i)

/-- The temporaries that live at a rank. -/
def alive (lastUses : List (Option Nat)) (rank : Nat) : Finset Nat :=
  (temporaries lastUses).filter fun i => rank ∈ lifetime lastUses i

/-- Two temporaries live at a common rank. -/
def Overlap (lastUses : List (Option Nat)) (i j : Nat) : Prop :=
  ∃ rank, rank ∈ lifetime lastUses i ∧ rank ∈ lifetime lastUses j

/-- A choice of slots that keeps overlapping temporaries apart. -/
def Separates (lastUses : List (Option Nat)) (choice : Nat → Nat) : Prop :=
  ∀ i ∈ temporaries lastUses, ∀ j ∈ temporaries lastUses, i ≠ j → Overlap lastUses i j →
    choice i ≠ choice j

section Lifetimes

variable {lastUses : List (Option Nat)} {choice : Nat → Nat} {i j rank : Nat}

theorem mem_temporaries :
    i ∈ temporaries lastUses ↔ ∃ lastUse, lastUses[i]? = some (some lastUse) := by
  rw [temporaries, Finset.mem_filter, Finset.mem_range, Option.isSome_iff_exists]
  simp only [Option.join_eq_some_iff]
  exact and_iff_right_of_imp fun ⟨_, hi⟩ => (List.getElem?_eq_some_iff.mp hi).1

theorem mem_alive : i ∈ alive lastUses rank ↔
    i ∈ temporaries lastUses ∧ i + 1 ≤ rank ∧ rank ≤ stop lastUses i := by
  rw [alive, Finset.mem_filter, lifetime, Finset.mem_Icc]

/-- Temporaries that live at one rank have different slots. -/
theorem Separates.card_alive_le (h : Separates lastUses choice) (rank : Nat) :
    (alive lastUses rank).card ≤ ((temporaries lastUses).image choice).card := by
  refine Finset.card_le_card_of_injOn choice (fun i hi => ?_) fun i hi j hj heq => ?_
  · exact Finset.mem_image_of_mem choice (Finset.mem_filter.mp hi).1
  · obtain ⟨hti, hi⟩ := Finset.mem_filter.mp hi
    obtain ⟨htj, hj⟩ := Finset.mem_filter.mp hj
    by_contra hne
    exact h i hti j htj hne ⟨rank, hi, hj⟩ heq

end Lifetimes

section Plan

variable {lastUses : List (Option Nat)} {first i j x : Nat}

/-- The slot at a position of a plan. -/
def slotAt (slots : List (Option Nat)) (i : Nat) : Nat := (slots[i]?.join).getD 0

theorem slotAt_eq {slots : List (Option Nat)} (h : slots[i]? = some (some x)) :
    slotAt slots i = x := by
  simp [slotAt, h]

/-- Exactly the temporaries have a slot. -/
theorem mem_temporaries_iff_make (hfirst : 0 < first) :
    i ∈ temporaries lastUses ↔ ∃ x, (make lastUses first).slots[i]? = some (some x) := by
  have hshape : ((make lastUses first).slots[i]?).map Option.isSome =
      (lastUses[i]?).map Option.isSome := by
    rw [← List.getElem?_map, ← List.getElem?_map, make_shape lastUses hfirst]
  have hiff : ∀ o : Option (Option Nat), (∃ x, o = some (some x)) ↔
      o.map Option.isSome = some true := by
    simp [Option.isSome_iff_exists]
  rw [mem_temporaries, hiff, hiff, hshape]

/-- Temporaries that share a slot do not overlap. -/
theorem not_overlap_of_lt (hfirst : 0 < first) (hij : i < j)
    (hi : (make lastUses first).slots[i]? = some (some x))
    (hj : (make lastUses first).slots[j]? = some (some x)) : ¬ Overlap lastUses i j := by
  rintro ⟨rank, hri, hrj⟩
  obtain ⟨lastUse, huse⟩ := mem_temporaries.mp ((mem_temporaries_iff_make hfirst).mpr ⟨x, hi⟩)
  have hapart := make_apart hfirst huse hij hi hj
  rw [← (lt_stop huse).1] at hapart
  have hend := (Finset.mem_Icc.mp hri).2
  have hbegin := (Finset.mem_Icc.mp hrj).1
  omega

/-- Overlapping temporaries have different slots. -/
theorem make_slots_ne (hfirst : 0 < first) {y : Nat} (hne : i ≠ j) (hoverlap : Overlap lastUses i j)
    (hi : (make lastUses first).slots[i]? = some (some x))
    (hj : (make lastUses first).slots[j]? = some (some y)) : x ≠ y := by
  rintro rfl
  rcases Nat.lt_or_gt_of_ne hne with hlt | hgt
  · exact not_overlap_of_lt hfirst hlt hi hj hoverlap
  · obtain ⟨rank, hri, hrj⟩ := hoverlap
    exact not_overlap_of_lt hfirst hgt hj hi ⟨rank, hrj, hri⟩

/-- A plan is such a choice. -/
theorem separates_make (hfirst : 0 < first) :
    Separates lastUses (slotAt (make lastUses first).slots) := by
  intro i hi j hj hne hoverlap
  obtain ⟨x, hx⟩ := (mem_temporaries_iff_make hfirst).mp hi
  obtain ⟨y, hy⟩ := (mem_temporaries_iff_make hfirst).mp hj
  rw [slotAt_eq hx, slotAt_eq hy]
  exact make_slots_ne hfirst hne hoverlap hx hy

/-- The slots in use are those from the first to the last one. -/
theorem mem_make_slots (lastUses : List (Option Nat)) (hfirst : 0 < first) :
    some x ∈ (make lastUses first).slots ↔
      x ∈ Finset.Icc first (make lastUses first).lastId := by
  rw [List.mem_iff_getElem?, Finset.mem_Icc]
  constructor
  · rintro ⟨i, hi⟩
    exact make_range hfirst hi
  · rintro ⟨hle, hlast⟩
    exact make_issues lastUses hle hlast hfirst

/-- They are the slots of the temporaries. -/
theorem image_slotAt (lastUses : List (Option Nat)) (hfirst : 0 < first) :
    (temporaries lastUses).image (slotAt (make lastUses first).slots) =
      Finset.Icc first (make lastUses first).lastId := by
  ext x
  rw [← mem_make_slots lastUses hfirst, List.mem_iff_getElem?, Finset.mem_image]
  constructor
  · rintro ⟨i, hi, rfl⟩
    obtain ⟨y, hy⟩ := (mem_temporaries_iff_make hfirst).mp hi
    exact ⟨i, by rw [slotAt_eq hy, hy]⟩
  · rintro ⟨i, hi⟩
    exact ⟨i, (mem_temporaries_iff_make hfirst).mpr ⟨x, hi⟩, slotAt_eq hi⟩

/-- A slot that was taken before has a latest holder. -/
theorem exists_holds {slots : List (Option Nat)} {k : Nat} (hk : k < i)
    (hx : slots[k]? = some (some x)) : ∃ j, Holds slots i x j := by
  obtain ⟨j, hj, hmax⟩ := Finset.exists_max_image
    ((Finset.range i).filter fun k => slots[k]? = some (some x)) id
    ⟨k, Finset.mem_filter.mpr ⟨Finset.mem_range.mpr hk, hx⟩⟩
  obtain ⟨hlt, htaken⟩ := Finset.mem_filter.mp hj
  refine ⟨j, Finset.mem_range.mp hlt, htaken, fun m hjm hmi hm => ?_⟩
  have hle := hmax m (Finset.mem_filter.mpr ⟨Finset.mem_range.mpr hmi, hm⟩)
  exact absurd hjm (Nat.not_lt.mpr hle)

/-- Where a slot is issued, all slots up to it are held by temporaries that live. -/
theorem card_le_alive_of_issued (hfirst : 0 < first)
    (hi : (make lastUses first).slots[i]? = some (some x))
    (hnew : ∀ k < i, (make lastUses first).slots[k]? ≠ some (some x)) :
    (Finset.Icc first x).card ≤ (alive lastUses (i + 1)).card := by
  have htemporary : ∀ {j y}, (make lastUses first).slots[j]? = some (some y) →
      j ∈ temporaries lastUses := fun hj => (mem_temporaries_iff_make hfirst).mpr ⟨_, hj⟩
  refine Finset.card_le_card_of_surjOn (slotAt (make lastUses first).slots) fun y hy => ?_
  obtain ⟨hle, hyx⟩ := Finset.mem_Icc.mp (Finset.mem_coe.mp hy)
  rcases Nat.eq_or_lt_of_le hyx with rfl | hlt
  · -- The temporary that takes the new slot lives at its own rank.
    obtain ⟨lastUse, huse⟩ := mem_temporaries.mp (htemporary hi)
    exact ⟨i, mem_alive.mpr ⟨htemporary hi, Nat.le_refl _, (lt_stop huse).2⟩, slotAt_eq hi⟩
  · cases (follows_make lastUses hfirst).picks i x hi with
    | reused hidle _ => exact absurd hidle.taken (hnew _ hidle.before)
    | issued hnone hleast =>
      -- A smaller slot was issued before, and its latest holder still needs it.
      obtain ⟨k, hk, hky⟩ : ∃ k < i, (make lastUses first).slots[k]? = some (some y) := by
        by_contra hunused
        exact absurd (hleast.2 ⟨hle, fun k hk hky => hunused ⟨k, hk, hky⟩⟩) (Nat.not_le.mpr hlt)
      obtain ⟨j, hj⟩ := exists_holds hk hky
      have hlive : i + 1 ≤ stop lastUses j := by
        by_contra hended
        exact hnone y j ⟨hj, Nat.lt_of_not_le hended⟩
      have hrank := Nat.succ_le_succ (Nat.le_of_lt hj.before)
      exact ⟨j, mem_alive.mpr ⟨htemporary hj.taken, hrank, hlive⟩, slotAt_eq hj.taken⟩

/-- At some rank as many temporaries live as there are slots. -/
theorem exists_card_le_alive (lastUses : List (Option Nat)) (hfirst : 0 < first) :
    ∃ rank, (Finset.Icc first (make lastUses first).lastId).card ≤
      (alive lastUses rank).card := by
  by_cases hle : first ≤ (make lastUses first).lastId
  · -- The last slot is issued where it is taken first.
    have hexists := make_issues lastUses hle (Nat.le_refl _) hfirst
    exact ⟨Nat.find hexists + 1,
      card_le_alive_of_issued hfirst (Nat.find_spec hexists) fun k hk => Nat.find_min hexists hk⟩
  · refine ⟨0, ?_⟩
    rw [Finset.Icc_eq_empty hle, Finset.card_empty]
    exact Nat.zero_le _

end Plan

/-- A plan gives a slot to exactly the temporaries and never one slot to two that overlap. The slots
in use are those from the first to the last one. There are as many as temporaries live at one rank
at most, so that no choice that keeps overlapping temporaries apart takes fewer. -/
theorem make_slots_fewest (lastUses : List (Option Nat)) {first : Nat} (hfirst : 0 < first) :
    (make lastUses first).slots.map Option.isSome = lastUses.map Option.isSome ∧
    (∀ i j x y, i ≠ j → Overlap lastUses i j →
      (make lastUses first).slots[i]? = some (some x) →
      (make lastUses first).slots[j]? = some (some y) → x ≠ y) ∧
    (∀ x, some x ∈ (make lastUses first).slots ↔
      x ∈ Finset.Icc first (make lastUses first).lastId) ∧
    IsGreatest (Set.range fun rank => (alive lastUses rank).card)
      (Finset.Icc first (make lastUses first).lastId).card ∧
    ∀ choice, Separates lastUses choice →
      (Finset.Icc first (make lastUses first).lastId).card ≤
        ((temporaries lastUses).image choice).card := by
  obtain ⟨rank, hrank⟩ := exists_card_le_alive lastUses hfirst
  have hbound : ∀ rank, (alive lastUses rank).card ≤
      (Finset.Icc first (make lastUses first).lastId).card := by
    intro rank
    rw [← image_slotAt lastUses hfirst]
    exact (separates_make hfirst).card_alive_le rank
  refine ⟨make_shape lastUses hfirst, fun i j x y hne hoverlap hi hj =>
    make_slots_ne hfirst hne hoverlap hi hj, fun x => mem_make_slots lastUses hfirst,
    ⟨⟨rank, Nat.le_antisymm (hbound rank) hrank⟩, ?_⟩, fun choice hchoice =>
    Nat.le_trans hrank (hchoice.card_alive_le rank)⟩
  rintro _ ⟨rank, rfl⟩
  exact hbound rank

/-- Six values, five of them temporaries of which three live at the third rank, take three slots,
and no choice of slots that keeps them apart takes two. -/
theorem make_slots_fewest_three :
    0 < 3 ∧ (make [some 4, some 4, some 5, none, some 5, some 6] 3).lastId = 5 ∧
      (alive [some 4, some 4, some 5, none, some 5, some 6] 3).card = 3 ∧
      ∀ choice, Separates [some 4, some 4, some 5, none, some 5, some 6] choice →
        3 ≤ ((temporaries [some 4, some 4, some 5, none, some 5, some 6]).image choice).card :=
  ⟨by decide, by decide, by decide, (make_slots_fewest _ (by decide : 0 < 3)).2.2.2.2⟩

end SlotPlan

end Straightline
