import Mathlib.Order.Bounds.Basic
import Straightline.Proofs.Generation.SlotPlan

/-!
# Which slot a temporary takes

A temporary takes the slot that was freed last, and of the slots freed after one rank the one whose
holder was computed last; where no slot is free it takes the least one that was never issued. No
step of planning compares ranks. The rule follows from an invariant: the free slots, paired with
their latest holders, stand in this order, and so do the slots that wait for one release. A plan is
the only list of slots that follows the rule.
-/

namespace Straightline

namespace SlotPlan

/-- The rank of the last use of the temporary at a position, between the rank of its computation
and the end of the order; zero for other values. What stands at position `i` is computed at rank
`i + 1`. -/
def stop (lastUses : List (Option Nat)) (i : Nat) : Nat :=
  match lastUses[i]? with
  | some (some lastUse) => min (max lastUse (i + 1)) lastUses.length
  | _ => 0

/-- Of all positions before `i`, position `j` is the last one that took the slot `x`. -/
structure Holds (slots : List (Option Nat)) (i x j : Nat) : Prop where
  /-- The holder comes before. -/
  before : j < i
  /-- It took the slot. -/
  taken : slots[j]? = some (some x)
  /-- Nothing took the slot since. -/
  latest : ∀ k, j < k → k < i → slots[k]? ≠ some (some x)

/-- The latest holder `j` of the slot `x` needs it no more at position `i`. -/
structure Idle (lastUses slots : List (Option Nat)) (i x j : Nat) : Prop
    extends Holds slots i x j where
  /-- Its lifetime ended before the rank of the position. -/
  ended : stop lastUses j < i + 1

/-- The slot of one holder is freed before that of another: its lifetime ended earlier, or both
ended after the same rank and it was computed earlier. -/
def FreedBefore (lastUses : List (Option Nat)) (j k : Nat) : Prop :=
  stop lastUses j < stop lastUses k ∨ stop lastUses j = stop lastUses k ∧ j < k

/-- The slot `x` is the one to take at position `i`. -/
inductive Picks (lastUses : List (Option Nat)) (first : Nat) (slots : List (Option Nat))
    (i x : Nat) : Prop where
  /-- Of the idle slots it was freed last. -/
  | reused {j : Nat} (hidle : Idle lastUses slots i x j)
    (hlast : ∀ y k, Idle lastUses slots i y k → y ≠ x → FreedBefore lastUses k j)
  /-- No slot is idle, and it is the least one that was never issued. -/
  | issued (hnone : ∀ y k, ¬ Idle lastUses slots i y k)
    (hleast : IsLeast {y | first ≤ y ∧ ∀ k < i, slots[k]? ≠ some (some y)} x)

/-- The slots of a list are chosen by the rule, for exactly the temporaries. -/
structure Follows (lastUses : List (Option Nat)) (first : Nat) (slots : List (Option Nat)) :
    Prop where
  /-- Exactly the temporaries take a slot. -/
  shape : slots.map Option.isSome = lastUses.map Option.isSome
  /-- Each slot is the one to take. -/
  picks : ∀ i x, slots[i]? = some (some x) → Picks lastUses first slots i x

section Rule

variable {lastUses slots slots' : List (Option Nat)} {first i j k x y : Nat}

theorem FreedBefore.asymm (h : FreedBefore lastUses j k) : ¬ FreedBefore lastUses k j := by
  unfold FreedBefore at h ⊢
  omega

/-- A slot has one latest holder. -/
theorem Holds.unique (h : Holds slots i x j) (h' : Holds slots i x k) : j = k := by
  rcases Nat.lt_trichotomy j k with hlt | heq | hgt
  · exact absurd h'.taken (h.latest k hlt h'.before)
  · exact heq
  · exact absurd h.taken (h'.latest j hgt h.before)

theorem Holds.congr (h : Holds slots i x j) (hsame : ∀ k < i, slots'[k]? = slots[k]?) :
    Holds slots' i x j where
  before := h.before
  taken := by rw [hsame j h.before, h.taken]
  latest k hjk hki := by
    rw [hsame k hki]
    exact h.latest k hjk hki

theorem Idle.congr (h : Idle lastUses slots i x j) (hsame : ∀ k < i, slots'[k]? = slots[k]?) :
    Idle lastUses slots' i x j :=
  ⟨h.toHolds.congr hsame, h.ended⟩

/-- The rule looks at the slots before the position alone. -/
theorem Picks.congr (h : Picks lastUses first slots i x)
    (hsame : ∀ k < i, slots'[k]? = slots[k]?) : Picks lastUses first slots' i x := by
  have hback : ∀ k < i, slots[k]? = slots'[k]? := fun k hk => (hsame k hk).symm
  cases h with
  | reused hidle hlast =>
    exact .reused (hidle.congr hsame) fun y k hk => hlast y k (hk.congr hback)
  | issued hnone hleast =>
    refine .issued (fun y k hk => hnone y k (hk.congr hback)) ?_
    have hset : {y | first ≤ y ∧ ∀ k < i, slots'[k]? ≠ some (some y)} =
        {y | first ≤ y ∧ ∀ k < i, slots[k]? ≠ some (some y)} := by
      ext y
      refine and_congr_right fun _ => forall₂_congr fun k hk => ?_
      rw [hsame k hk]
    rwa [hset]

/-- The rule leaves no choice. -/
theorem Picks.unique (h : Picks lastUses first slots i x) (h' : Picks lastUses first slots i y) :
    x = y := by
  cases h with
  | reused hidle hlast =>
    cases h' with
    | reused hidle' hlast' =>
      by_contra hne
      exact (hlast _ _ hidle' (Ne.symm hne)).asymm (hlast' _ _ hidle hne)
    | issued hnone' _ => exact absurd hidle (hnone' _ _)
  | issued hnone hleast =>
    cases h' with
    | reused hidle' _ => exact absurd hidle' (hnone _ _)
    | issued _ hleast' => exact hleast.unique hleast'

/-- Only one list of slots follows the rule. -/
theorem Follows.unique (h : Follows lastUses first slots) (h' : Follows lastUses first slots') :
    slots = slots' := by
  refine List.ext_getElem? fun i => ?_
  induction i using Nat.strong_induction_on with
  | _ i ih =>
    have hshape : (slots[i]?).map Option.isSome = (slots'[i]?).map Option.isSome := by
      rw [← List.getElem?_map, ← List.getElem?_map, h.shape, h'.shape]
    cases hi : slots[i]? with
    | none =>
      rw [hi, Option.map_none] at hshape
      exact (Option.map_eq_none_iff.mp hshape.symm).symm
    | some slot =>
      obtain ⟨slot', hi', hsome⟩ : ∃ slot', slots'[i]? = some slot' ∧
          slot'.isSome = slot.isSome := by
        simpa [hi] using hshape.symm
      rw [hi']
      cases slot with
      | none =>
        obtain rfl : slot' = none := by simpa using hsome
        rfl
      | some x =>
        obtain ⟨y, rfl⟩ := Option.isSome_iff_exists.mp hsome
        have hpicks := (h'.picks i y hi').congr ih
        rw [(h.picks i x hi).unique hpicks]

end Rule

section Invariant

variable {lastUses slots : List (Option Nat)} {first now x y i j k : Nat} {s : State}

/-- What the state of planning says about the slots that were chosen so far, once the slots that
are released before a rank are free. -/
structure Tracks (lastUses : List (Option Nat)) (first : Nat) (slots : List (Option Nat))
    (now : Nat) (s : State) : Prop where
  /-- The free slots with their latest holders, the one that was freed last first. -/
  free : ∃ pairs : List (Nat × Nat), s.free = pairs.map Prod.fst ∧
    (∀ x j, (x, j) ∈ pairs ↔ Holds slots slots.length x j ∧ stop lastUses j < now) ∧
    pairs.Pairwise fun a b => FreedBefore lastUses b.2 a.2
  /-- The slots that wait for a release with their holders, the one that was computed last
  first. -/
  waiting : ∀ q, now ≤ q → ∃ pairs : List (Nat × Nat), s.releases.get q = pairs.map Prod.fst ∧
    (∀ x j, (x, j) ∈ pairs ↔ slots[j]? = some (some x) ∧ stop lastUses j = q) ∧
    pairs.Pairwise fun a b => b.2 < a.2
  /-- The chosen slots are those issued. -/
  range : ∀ x, (∃ j : Nat, slots[j]? = some (some x)) ↔ first ≤ x ∧ x ≤ s.lastId
  /-- Slots are issued from the first one on. -/
  first_le : first ≤ s.lastId + 1
  /-- A slot is taken again only after its release. -/
  apart : ∀ j k x, j < k → slots[j]? = some (some x) → slots[k]? = some (some x) →
    stop lastUses j ≤ k
  /-- The slots were chosen by the rule. -/
  picks : ∀ i x, slots[i]? = some (some x) → Picks lastUses first slots i x

theorem tracks_start (lastUses : List (Option Nat)) (hfirst : 0 < first) :
    Tracks lastUses first [] 0 { lastId := first - 1 } where
  free := ⟨[], rfl, by simp, .nil⟩
  waiting q _ := ⟨[], Table.get_emptyCollection q, by simp, .nil⟩
  range x := by
    have hempty : ¬ ∃ j : Nat, ([] : List (Option Nat))[j]? = some (some x) := by simp
    refine iff_of_false hempty ?_
    dsimp only
    omega
  first_le := Nat.le_of_eq (Nat.sub_add_cancel hfirst).symm
  apart j k x _ hj := by simp at hj
  picks i x hi := by simp at hi

/-- A holder whose slot is not yet released is the latest one. -/
theorem Tracks.holds (h : Tracks lastUses first slots now s) (hj : slots[j]? = some (some x))
    (hstop : slots.length ≤ stop lastUses j) : Holds slots slots.length x j where
  before := (List.getElem?_eq_some_iff.mp hj).1
  taken := hj
  latest k hjk hk hx := by
    have hle := h.apart j k x hjk hj hx
    omega

/-- The slots that are released after a rank come before those that were free. -/
theorem Tracks.advance (h : Tracks lastUses first slots slots.length s) :
    Tracks lastUses first slots (slots.length + 1) (s.advance slots.length) := by
  obtain ⟨free, hfree, hfreeMem, hfreeOrder⟩ := h.free
  obtain ⟨released, hreleased, hreleasedMem, hreleasedOrder⟩ :=
    h.waiting slots.length (Nat.le_refl _)
  refine ⟨⟨released ++ free, ?_, ?_, ?_⟩, fun q hq => h.waiting q (by omega), h.range, h.first_le,
    h.apart, h.picks⟩
  · rw [List.map_append, ← hfree, ← hreleased]
    rfl
  · intro x j
    rw [List.mem_append, hfreeMem, hreleasedMem, Nat.lt_succ_iff_lt_or_eq]
    constructor
    · rintro (⟨htaken, hstop⟩ | ⟨hholds, hstop⟩)
      · exact ⟨h.holds htaken hstop.ge, .inr hstop⟩
      · exact ⟨hholds, .inl hstop⟩
    · rintro ⟨hholds, hstop | hstop⟩
      · exact .inr ⟨hholds, hstop⟩
      · exact .inl ⟨hholds.taken, hstop⟩
  · rw [List.pairwise_append]
    refine ⟨hreleasedOrder.imp_of_mem ?_, hfreeOrder, ?_⟩
    · rintro ⟨x, j⟩ ⟨y, k⟩ hx hy hlt
      have hj := ((hreleasedMem x j).mp hx).2
      have hk := ((hreleasedMem y k).mp hy).2
      exact .inr ⟨hk.trans hj.symm, hlt⟩
    · rintro ⟨x, j⟩ hx ⟨y, k⟩ hy
      have hj := ((hreleasedMem x j).mp hx).2
      have hk := ((hfreeMem y k).mp hy).2
      exact .inl (by rw [hj]; exact hk)

/-- A slot is among those chosen so far or the new one. -/
theorem getElem?_concat_eq_some {slot : Option Nat} :
    (slots ++ [slot])[k]? = some (some x) ↔
      slots[k]? = some (some x) ∨ k = slots.length ∧ slot = some x := by
  rw [List.getElem?_append]
  split
  · next hlt => exact ⟨.inl, fun h => h.resolve_right fun heq => by omega⟩
  · next hge =>
    have hold : slots[k]? = none := List.getElem?_eq_none (Nat.le_of_not_lt hge)
    have hlast : k - slots.length = 0 ↔ k = slots.length := by omega
    simp [hold, List.getElem?_singleton, hlast]

/-- A value that takes no slot changes no holder. -/
theorem holds_concat {slot : Option Nat} (hslot : slot ≠ some x) :
    Holds (slots ++ [slot]) (slots ++ [slot]).length x j ↔ Holds slots slots.length x j := by
  have hiff : ∀ k : Nat, (slots ++ [slot])[k]? = some (some x) ↔ slots[k]? = some (some x) := by
    intro k
    rw [getElem?_concat_eq_some]
    exact or_iff_left fun h => hslot h.2
  rw [List.length_append, List.length_singleton]
  constructor
  · intro h
    have htaken := (hiff j).mp h.taken
    exact ⟨(List.getElem?_eq_some_iff.mp htaken).1, htaken, fun k hjk hk hx =>
      h.latest k hjk (by omega) ((hiff k).mpr hx)⟩
  · intro h
    exact ⟨Nat.lt_succ_of_lt h.before, (hiff j).mpr h.taken, fun k hjk hk hx =>
      have hx := (hiff k).mp hx
      h.latest k hjk (List.getElem?_eq_some_iff.mp hx).1 hx⟩

/-- What takes a slot is its latest holder. -/
theorem holds_concat_self (slots : List (Option Nat)) (x : Nat) :
    Holds (slots ++ [some x]) (slots ++ [some x]).length x slots.length where
  before := by simp
  taken := by simp
  latest k hk hlt := by
    rw [List.length_append, List.length_singleton] at hlt
    omega

/-- Earlier choices stay right. -/
theorem Tracks.picks_concat (h : Tracks lastUses first slots now s) {slot : Option Nat}
    (hi : slots[i]? = some (some x)) : Picks lastUses first (slots ++ [slot]) i x := by
  have hlt := (List.getElem?_eq_some_iff.mp hi).1
  exact (h.picks i x hi).congr fun k hk => List.getElem?_append_left (Nat.lt_trans hk hlt)

/-- A value that is not a temporary takes no slot. -/
theorem Tracks.skip (h : Tracks lastUses first slots now s) :
    Tracks lastUses first (slots ++ [none]) now s := by
  have htaken : ∀ k x : Nat,
      (slots ++ [none])[k]? = some (some x) ↔ slots[k]? = some (some x) := by
    intro k x
    rw [getElem?_concat_eq_some]
    simp
  obtain ⟨free, hfree, hmem, horder⟩ := h.free
  refine ⟨⟨free, hfree, fun x j => ?_, horder⟩, fun q hq => ?_, fun x => ?_, h.first_le,
    fun j k x hjk hj hk => ?_, fun i x hi => ?_⟩
  · rw [hmem, holds_concat (by simp)]
  · obtain ⟨pairs, hpairs, hmem, horder⟩ := h.waiting q hq
    exact ⟨pairs, hpairs, fun x j => by rw [hmem, htaken], horder⟩
  · simp only [htaken]
    exact h.range x
  · exact h.apart j k x hjk ((htaken j x).mp hj) ((htaken k x).mp hk)
  · exact h.picks_concat ((htaken i x).mp hi)

/-- A slot that is not in use, with the state in which it is no longer free. -/
structure Chosen (lastUses : List (Option Nat)) (first : Nat) (slots : List (Option Nat))
    (s : State) (x : Nat) (s' : State) : Prop where
  /-- The slot is the one to take. -/
  picks : Picks lastUses first slots slots.length x
  /-- The other slots that were free are free. -/
  free : ∃ pairs : List (Nat × Nat), s'.free = pairs.map Prod.fst ∧
    (∀ y j, (y, j) ∈ pairs ↔ y ≠ x ∧ Holds slots slots.length y j ∧
      stop lastUses j < slots.length + 1) ∧
    pairs.Pairwise fun a b => FreedBefore lastUses b.2 a.2
  /-- Nothing is released. -/
  releases : s'.releases = s.releases
  /-- The slots issued are those chosen before and the new one. -/
  range : ∀ y, (∃ j : Nat, slots[j]? = some (some y)) ∨ y = x ↔ first ≤ y ∧ y ≤ s'.lastId
  /-- Slots are issued from the first one on. -/
  first_le : first ≤ s'.lastId + 1
  /-- Everything that held the slot needs it no more. -/
  ended : ∀ j : Nat, slots[j]? = some (some x) → stop lastUses j ≤ slots.length

/-- Taking a slot chooses by the rule. -/
theorem Tracks.take (h : Tracks lastUses first slots (slots.length + 1) s) :
    Chosen lastUses first slots s s.take.1 s.take.2 := by
  obtain ⟨pairs, hfree, hmem, horder⟩ := h.free
  have hidle : ∀ y k, Idle lastUses slots slots.length y k ↔ (y, k) ∈ pairs := by
    intro y k
    rw [hmem]
    exact ⟨fun hy => ⟨hy.toHolds, hy.ended⟩, fun hy => ⟨hy.1, hy.2⟩⟩
  cases pairs with
  | nil =>
    have htake : s.take = (s.lastId + 1, { s with lastId := s.lastId + 1 }) := by
      simp [State.take, hfree]
    have hnew : ¬ ∃ j : Nat, slots[j]? = some (some (s.lastId + 1)) := by
      rw [h.range]
      omega
    have hle := h.first_le
    rw [htake]
    refine ⟨.issued (fun y k hy => by simpa using (hidle y k).mp hy) ⟨⟨hle, fun k _ hk =>
      hnew ⟨k, hk⟩⟩, ?_⟩, ⟨[], hfree, fun y j => ?_, .nil⟩, rfl, fun y => ?_, ?_,
      fun j hj => absurd ⟨j, hj⟩ hnew⟩
    · rintro y ⟨hfirst, hunused⟩
      by_contra hlt
      obtain ⟨j, hj⟩ := (h.range y).mpr ⟨hfirst, by omega⟩
      exact hunused j (List.getElem?_eq_some_iff.mp hj).1 hj
    · rw [← hmem y j]
      simp
    · rw [h.range y]
      dsimp only
      omega
    · dsimp only
      omega
  | cons pair pairs =>
    obtain ⟨x, j⟩ := pair
    have htake : s.take = (x, { s with free := pairs.map Prod.fst }) := by
      simp [State.take, hfree]
    rw [List.pairwise_cons] at horder
    have hx : Idle lastUses slots slots.length x j := (hidle x j).mpr List.mem_cons_self
    -- The slot has one latest holder, so it is free once.
    have hother : ∀ y k, (y, k) ∈ pairs ↔ y ≠ x ∧ (y, k) ∈ (x, j) :: pairs := by
      intro y k
      constructor
      · intro hy
        refine ⟨?_, List.mem_cons_of_mem _ hy⟩
        rintro rfl
        have hk : Idle lastUses slots slots.length y k :=
          (hidle y k).mpr (List.mem_cons_of_mem _ hy)
        obtain rfl := hx.toHolds.unique hk.toHolds
        have hbefore := horder.1 _ hy
        exact hbefore.asymm hbefore
      · rintro ⟨hne, hy⟩
        rcases List.mem_cons.mp hy with heq | hy
        · exact absurd (congrArg Prod.fst heq) hne
        · exact hy
    have hrange := (h.range x).mp ⟨j, hx.taken⟩
    rw [htake]
    refine ⟨.reused hx fun y k hy hne => horder.1 (y, k) ((hother y k).mpr
      ⟨hne, (hidle y k).mp hy⟩), ⟨pairs, rfl, fun y k => ?_, horder.2⟩, rfl, fun y => ?_,
      h.first_le, fun k hk => ?_⟩
    · rw [hother, hmem]
    · rw [h.range y]
      exact or_iff_left_of_imp fun heq => heq ▸ hrange
    · -- An earlier holder was released before the latest one was computed.
      have hended := hx.ended
      rcases Nat.lt_trichotomy k j with hlt | rfl | hgt
      · have hle := h.apart k j x hlt hk hx.taken
        have hbefore := hx.before
        omega
      · omega
      · exact absurd hk (hx.latest k hgt (List.getElem?_eq_some_iff.mp hk).1)

/-- The temporary holds the slot that it took until its release. -/
theorem Chosen.hold {s' : State} (hchosen : Chosen lastUses first slots s x s')
    (h : Tracks lastUses first slots (slots.length + 1) s)
    (hstop : slots.length + 1 ≤ stop lastUses slots.length) :
    Tracks lastUses first (slots ++ [some x]) (slots.length + 1)
      (s'.hold (stop lastUses slots.length) x) := by
  have htaken : ∀ k y, (slots ++ [some x])[k]? = some (some y) ↔
      slots[k]? = some (some y) ∨ k = slots.length ∧ x = y := by
    intro k y
    rw [getElem?_concat_eq_some, Option.some_inj]
  refine ⟨?_, fun q hq => ?_, fun y => ?_, hchosen.first_le, fun j k y hjk hj hk => ?_,
    fun i y hi => ?_⟩
  · obtain ⟨pairs, hfree, hmem, horder⟩ := hchosen.free
    refine ⟨pairs, hfree, fun y j => ?_, horder⟩
    rw [hmem]
    by_cases hy : y = x
    · -- The latest holder of the slot is the new one, and its lifetime has just begun.
      subst hy
      refine iff_of_false (fun h => h.1 rfl) ?_
      rintro ⟨hholds, hended⟩
      obtain rfl := hholds.unique (holds_concat_self slots y)
      omega
    · rw [holds_concat fun heq => hy (Option.some.inj heq).symm]
      exact and_iff_right hy
  · obtain ⟨pairs, hpairs, hmem, horder⟩ := h.waiting q hq
    rw [State.hold, Table.get_set, hchosen.releases]
    by_cases heq : q = stop lastUses slots.length
    · subst heq
      refine ⟨(x, slots.length) :: pairs, by rw [if_pos rfl, hpairs]; rfl, fun y j => ?_, ?_⟩
      · rw [List.mem_cons, hmem, htaken, Prod.mk.injEq]
        constructor
        · rintro (⟨rfl, rfl⟩ | ⟨hj, hq⟩)
          · exact ⟨.inr ⟨rfl, rfl⟩, rfl⟩
          · exact ⟨.inl hj, hq⟩
        · rintro ⟨hj | ⟨rfl, rfl⟩, hq⟩
          · exact .inr ⟨hj, hq⟩
          · exact .inl ⟨rfl, rfl⟩
      · refine List.pairwise_cons.mpr ⟨?_, horder⟩
        rintro ⟨y, j⟩ hy
        exact (List.getElem?_eq_some_iff.mp ((hmem y j).mp hy).1).1
    · refine ⟨pairs, by rw [if_neg heq, hpairs], fun y j => ?_, horder⟩
      rw [hmem, htaken]
      refine and_congr_left fun hq => (or_iff_left ?_).symm
      rintro ⟨rfl, _⟩
      exact heq hq.symm
  · have hrange := hchosen.range y
    rw [State.hold, ← hrange]
    simp only [htaken]
    rw [exists_or]
    refine or_congr_right ⟨?_, fun heq => ⟨_, rfl, heq.symm⟩⟩
    rintro ⟨_, _, hxy⟩
    exact hxy.symm
  · rcases (htaken k y).mp hk with hk | ⟨rfl, rfl⟩
    · refine h.apart j k y hjk (((htaken j y).mp hj).resolve_right ?_) hk
      have hlt := (List.getElem?_eq_some_iff.mp hk).1
      omega
    · exact hchosen.ended j (((htaken j x).mp hj).resolve_right fun heq => by omega)
  · rcases (htaken i y).mp hi with hi | ⟨rfl, rfl⟩
    · exact h.picks_concat hi
    · exact hchosen.picks.congr fun k hk => List.getElem?_append_left hk

/-- The slot of a temporary is not released before the temporary is computed. -/
theorem lt_stop {lastUse : Nat} (hi : lastUses[i]? = some (some lastUse)) :
    stop lastUses i = releaseRank lastUse (i + 1) lastUses.length ∧ i + 1 ≤ stop lastUses i := by
  have hlt := (List.getElem?_eq_some_iff.mp hi).1
  have hstop : stop lastUses i = releaseRank lastUse (i + 1) lastUses.length := by
    simp only [stop, hi, releaseRank]
  rw [hstop, releaseRank]
  omega

/-- One rank is planned by the rule. -/
theorem Tracks.step (h : Tracks lastUses first slots slots.length s) {lastUse : Option Nat}
    (hlast : lastUses[slots.length]? = some lastUse) :
    Tracks lastUses first
      (slots ++ [(s.step lastUses.length (slots.length + 1) lastUse).1]) (slots.length + 1)
      (s.step lastUses.length (slots.length + 1) lastUse).2 := by
  cases lastUse with
  | none => exact h.advance.skip
  | some lastUse =>
    obtain ⟨hstop, hle⟩ := lt_stop hlast
    rw [step_some, ← hstop]
    exact h.advance.take.hold h.advance hle

/-- So is a whole order. -/
theorem Tracks.run (h : Tracks lastUses first slots slots.length s) {rest : List (Option Nat)}
    (hrest : lastUses.drop slots.length = rest) :
    ∃ now, Tracks lastUses first
      (slots ++ (State.run lastUses.length rest (slots.length + 1) s).1) now
      (State.run lastUses.length rest (slots.length + 1) s).2 := by
  induction rest generalizing slots s with
  | nil => exact ⟨slots.length, by simpa [State.run] using h⟩
  | cons lastUse rest ih =>
    have hlast : lastUses[slots.length]? = some lastUse := by
      have hhead := congrArg List.head? hrest
      rwa [List.head?_drop] at hhead
    have hstep := h.step hlast
    generalize hs : s.step lastUses.length (slots.length + 1) lastUse = next at hstep
    have hlength : (slots ++ [next.1]).length = slots.length + 1 := by simp
    rw [← hlength] at hstep
    obtain ⟨now, hrun⟩ := ih hstep (by rw [hlength, ← List.tail_drop, hrest, List.tail_cons])
    refine ⟨now, ?_⟩
    rw [run_cons, hs, ← hlength]
    simpa using hrun

/-- A plan follows the rule. -/
theorem follows_make (lastUses : List (Option Nat)) (hfirst : 0 < first) :
    Follows lastUses first (make lastUses first).slots := by
  obtain ⟨now, htracks⟩ := (tracks_start lastUses hfirst).run (List.drop_zero ..)
  exact ⟨make_shape lastUses hfirst, htracks.picks⟩

end Invariant

/-- The slots of a plan are the only ones that follow the rule: exactly the temporaries take a slot,
and each takes, of the slots whose latest holders ended before, the one whose holder ended last, and
of several that ended after one rank the one whose holder was computed last; if there is none, it
takes the least slot that was not issued before. -/
theorem make_slots_by_recency (lastUses : List (Option Nat)) {first : Nat} (hfirst : 0 < first)
    (slots : List (Option Nat)) :
    Follows lastUses first slots ↔ slots = (make lastUses first).slots := by
  constructor
  · intro h
    exact h.unique (follows_make lastUses hfirst)
  · rintro rfl
    exact follows_make lastUses hfirst

/-- Two slots are freed after one rank, and the one that was taken last is reused first. -/
theorem make_slots_by_recency_pair :
    0 < 3 ∧ Follows [some 4, some 4, some 5, none, some 5, some 6] 3
      [some 3, some 4, some 5, none, some 4, some 4] :=
  ⟨by decide, (make_slots_by_recency _ (by decide) _).mpr (by decide)⟩

end SlotPlan

end Straightline
