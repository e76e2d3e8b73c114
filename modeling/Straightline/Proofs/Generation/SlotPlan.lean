import Mathlib.Data.List.Nodup
import Straightline.Generation.SlotReuse

/-!
# Slot plans keep lifetimes apart

At every rank each issued slot is in one place: it is free, or it waits to be released after a
rank that is still to come. A temporary therefore never takes a slot that is in use, and no slot
is issued while one is free.
-/

namespace Straightline

namespace SlotPlan

variable {first done length : Nat} {s s' : State}

/-- What planning maintains after a number of ranks: every slot is free or waits for one release,
and lies between the first slot and the last one issued. -/
structure Valid (first done : Nat) (s : State) : Prop where
  /-- No slot is free twice. -/
  free_nodup : s.free.Nodup
  /-- No slot waits twice for one release. -/
  waiting_nodup : ∀ q, done ≤ q → (s.releases.get q).Nodup
  /-- A slot that waits is not free. -/
  apart : ∀ q, done ≤ q → ∀ x ∈ s.releases.get q, x ∉ s.free
  /-- A slot waits for one release only. -/
  single : ∀ q r, done ≤ q → done ≤ r → q ≠ r → ∀ x ∈ s.releases.get q, x ∉ s.releases.get r
  /-- Free slots are issued ones. -/
  free_range : ∀ x ∈ s.free, first ≤ x ∧ x ≤ s.lastId
  /-- Waiting slots are issued ones. -/
  waiting_range : ∀ q, done ≤ q → ∀ x ∈ s.releases.get q, first ≤ x ∧ x ≤ s.lastId
  /-- Slots are issued from the first one on. -/
  first_le : first ≤ s.lastId + 1

theorem valid_start (hfirst : 0 < first) : Valid first 0 { lastId := first - 1 } := by
  have hempty : ∀ q, (∅ : Table (List Nat)).get q = [] := fun q => Table.get_emptyCollection q
  exact {
    free_nodup := List.nodup_nil
    waiting_nodup := by simp [hempty]
    apart := by simp [hempty]
    single := by simp [hempty]
    free_range := by simp
    waiting_range := by simp [hempty]
    first_le := Nat.le_of_eq (Nat.sub_add_cancel hfirst).symm }

/-- The state in which the slots released after the last rank are free. -/
def State.advance (s : State) (done : Nat) : State :=
  { s with free := s.releases.get done ++ s.free }

/-- Releasing slots keeps every slot in one place. -/
theorem Valid.advance (h : Valid first done s) : Valid first (done + 1) (s.advance done) where
  free_nodup := by
    refine List.nodup_append'.mpr ⟨h.waiting_nodup done (Nat.le_refl _), h.free_nodup, ?_⟩
    intro x hx
    exact h.apart done (Nat.le_refl _) x hx
  waiting_nodup q hq := h.waiting_nodup q (by omega)
  apart q hq x hx := by
    have hne : q ≠ done := by omega
    rw [State.advance, List.mem_append, not_or]
    exact ⟨h.single q done (by omega) (Nat.le_refl _) hne x hx, h.apart q (by omega) x hx⟩
  single q r hq hr hne x hx := h.single q r (by omega) (by omega) hne x hx
  free_range x hx := by
    rw [State.advance, List.mem_append] at hx
    rcases hx with hx | hx
    · exact h.waiting_range done (Nat.le_refl _) x hx
    · exact h.free_range x hx
  waiting_range q hq x hx := h.waiting_range q (by omega) x hx
  first_le := h.first_le

/-- Put a slot among those that are released after a rank. -/
def State.hold (s : State) (stop slot : Nat) : State :=
  { s with releases := s.releases.set stop (slot :: s.releases.get stop) }

/-- The slot that is taken is in no other place. -/
structure Taken (first done : Nat) (s : State) (slot : Nat) (s' : State) : Prop where
  /-- The other slots stay where they are. -/
  valid : Valid first done s'
  /-- Nothing is released by taking a slot. -/
  releases : s'.releases = s.releases
  /-- The slot does not wait for a release. -/
  idle : ∀ q, done ≤ q → slot ∉ s.releases.get q
  /-- The slot is no longer free. -/
  used : slot ∉ s'.free
  /-- The slot is an issued one. -/
  range : first ≤ slot ∧ slot ≤ s'.lastId
  /-- At most one slot is issued. -/
  lastId : s.lastId ≤ s'.lastId ∧ s'.lastId ≤ s.lastId + 1

/-- Taking a free slot, or a new one where none is free. -/
theorem Valid.take (h : Valid first done s) : Taken first done s s.take.1 s.take.2 := by
  cases hfree : s.free with
  | nil =>
    have htake : s.take = (s.lastId + 1, { s with lastId := s.lastId + 1 }) := by
      simp [State.take, hfree]
    have hle := h.first_le
    rw [htake]
    refine ⟨⟨h.free_nodup, h.waiting_nodup, h.apart, h.single, ?_, ?_, ?_⟩, rfl, ?_, ?_,
      ⟨hle, Nat.le_refl _⟩, Nat.le_succ _, Nat.le_refl _⟩
    · intro x hx
      simp [hfree] at hx
    · intro q hq x hx
      have hrange := h.waiting_range q hq x hx
      exact ⟨hrange.1, Nat.le_succ_of_le hrange.2⟩
    · exact Nat.le_succ_of_le hle
    · intro q hq hmem
      have hrange := h.waiting_range q hq _ hmem
      omega
    · simp [hfree]
  | cons slot free =>
    have htake : s.take = (slot, { s with free := free }) := by
      simp [State.take, hfree]
    have hnodup := h.free_nodup
    rw [hfree, List.nodup_cons] at hnodup
    have hslot : slot ∈ s.free := by simp [hfree]
    have hrest : ∀ x ∈ free, x ∈ s.free := fun x hx => by simp [hfree, hx]
    rw [htake]
    refine ⟨⟨hnodup.2, h.waiting_nodup, ?_, h.single, ?_, h.waiting_range, h.first_le⟩, rfl, ?_,
      hnodup.1, h.free_range slot hslot, Nat.le_refl _, Nat.le_succ _⟩
    · intro q hq x hx hmem
      exact h.apart q hq x hx (hrest x hmem)
    · intro x hx
      exact h.free_range x (hrest x hx)
    · intro q hq hmem
      exact h.apart q hq slot hmem hslot

/-- A slot that is held waits beside those that waited before. -/
theorem Taken.releases_hold {slot : Nat} (h : Taken first done s slot s') (stop q : Nat) :
    (s'.hold stop slot).releases.get q =
      if q = stop then slot :: s.releases.get q else s.releases.get q := by
  simp only [State.hold, Table.get_set, h.releases]
  split
  · next heq => rw [heq]
  · rfl

/-- A slot that was taken is held until its release. -/
theorem Taken.hold {slot : Nat} (h : Taken first done s slot s') (stop : Nat) :
    Valid first done (s'.hold stop slot) := by
  have hmem : ∀ q x, x ∈ (s'.hold stop slot).releases.get q →
      q = stop ∧ x = slot ∨ x ∈ s.releases.get q := by
    intro q x hx
    rw [h.releases_hold] at hx
    split at hx
    · next heq => exact (List.mem_cons.mp hx).imp_left fun hslot => ⟨heq, hslot⟩
    · exact .inr hx
  have hold := h.valid
  exact {
    free_nodup := hold.free_nodup
    waiting_nodup := by
      intro q hq
      rw [h.releases_hold]
      split
      · exact List.nodup_cons.mpr ⟨h.idle q hq, h.releases ▸ hold.waiting_nodup q hq⟩
      · exact h.releases ▸ hold.waiting_nodup q hq
    apart := by
      intro q hq x hx
      rcases hmem q x hx with ⟨_, rfl⟩ | hx
      · exact h.used
      · exact hold.apart q hq x (h.releases ▸ hx)
    single := by
      intro q r hq hr hne x hx hx'
      rcases hmem q x hx with ⟨hqstop, hslot⟩ | hwait
      · rcases hmem r x hx' with ⟨hrstop, _⟩ | hwait'
        · exact hne (hqstop.trans hrstop.symm)
        · exact h.idle r hr (hslot ▸ hwait')
      · rcases hmem r x hx' with ⟨_, hslot⟩ | hwait'
        · exact h.idle q hq (hslot ▸ hwait)
        · exact hold.single q r hq hr hne x (h.releases ▸ hwait) (h.releases ▸ hwait')
    free_range := hold.free_range
    waiting_range := by
      intro q hq x hx
      rcases hmem q x hx with ⟨_, rfl⟩ | hx
      · exact h.range
      · exact hold.waiting_range q hq x (h.releases ▸ hx)
    first_le := hold.first_le }

section Step

variable (s) (length) (done)

theorem step_none : s.step length (done + 1) none = (none, s.advance done) := rfl

theorem step_some (lastUse : Nat) : s.step length (done + 1) (some lastUse) =
    (some (s.advance done).take.1, (s.advance done).take.2.hold
      (releaseRank lastUse (done + 1) length) (s.advance done).take.1) := rfl

end Step

/-- What planning one rank does. -/
structure Steps (first done length : Nat) (s : State) (lastUse slot : Option Nat) (s' : State) :
    Prop where
  /-- Every slot stays in one place. -/
  valid : Valid first (done + 1) s'
  /-- Exactly the temporaries take a slot. -/
  shape : slot.isSome = lastUse.isSome
  /-- A slot that is taken does not wait for a release. -/
  idle : ∀ x, slot = some x → ∀ q, done + 1 ≤ q → x ∉ s.releases.get q
  /-- Slots that wait go on waiting. -/
  kept : ∀ q, ∀ x ∈ s.releases.get q, x ∈ s'.releases.get q
  /-- A slot that is taken waits for its release. -/
  held : ∀ x u, slot = some x → lastUse = some u →
    x ∈ s'.releases.get (releaseRank u (done + 1) length)
  /-- A slot that is taken is an issued one. -/
  range : ∀ x, slot = some x → first ≤ x ∧ x ≤ s'.lastId
  /-- No slot is issued for a value that is not a temporary, and at most one for a temporary. -/
  lastId : s.lastId ≤ s'.lastId ∧ s'.lastId ≤ s.lastId + if lastUse.isSome then 1 else 0

/-- One rank is planned as described. -/
theorem Valid.step (h : Valid first done s) (length : Nat) (lastUse : Option Nat) :
    Steps first done length s lastUse (s.step length (done + 1) lastUse).1
      (s.step length (done + 1) lastUse).2 := by
  cases lastUse with
  | none =>
    rw [step_none]
    exact {
      valid := h.advance
      shape := rfl
      idle := by simp
      kept := fun q x hx => hx
      held := by simp
      range := by simp
      lastId := ⟨Nat.le_refl _, Nat.le_refl _⟩ }
  | some lastUse =>
    have htaken := h.advance.take
    rw [step_some]
    generalize (s.advance done).take.1 = slot at htaken
    generalize (s.advance done).take.2 = s' at htaken
    exact {
      valid := htaken.hold _
      shape := rfl
      idle := by
        intro x hx q hq
        obtain rfl := Option.some_inj.mp hx
        exact htaken.idle q hq
      kept := by
        intro q x hx
        rw [htaken.releases_hold]
        split
        · exact List.mem_cons_of_mem _ hx
        · exact hx
      held := by
        intro x u hx hu
        obtain rfl := Option.some_inj.mp hx
        obtain rfl := Option.some_inj.mp hu
        rw [htaken.releases_hold, if_pos rfl]
        exact List.mem_cons_self
      range := by
        intro x hx
        obtain rfl := Option.some_inj.mp hx
        exact htaken.range
      lastId := htaken.lastId }

section Run

variable {lastUses : List (Option Nat)} {i j x u : Nat}

theorem run_cons (lastUse : Option Nat) (rest : List (Option Nat)) (rank : Nat) :
    State.run length (lastUse :: rest) rank s =
      ((s.step length rank lastUse).1 ::
        (State.run length rest (rank + 1) (s.step length rank lastUse).2).1,
      (State.run length rest (rank + 1) (s.step length rank lastUse).2).2) := rfl

/-- Exactly the temporaries take a slot. -/
theorem Valid.run_shape (h : Valid first done s) :
    (State.run length lastUses (done + 1) s).1.map Option.isSome =
      lastUses.map Option.isSome := by
  induction lastUses generalizing done s with
  | nil => rfl
  | cons lastUse rest ih =>
    have hstep := h.step length lastUse
    rw [run_cons, List.map_cons, List.map_cons, hstep.shape, ih hstep.valid]

/-- Planning issues at most one slot for each temporary. -/
theorem Valid.run_lastId (h : Valid first done s) :
    s.lastId ≤ (State.run length lastUses (done + 1) s).2.lastId ∧
      (State.run length lastUses (done + 1) s).2.lastId ≤
        s.lastId + lastUses.countP Option.isSome := by
  induction lastUses generalizing done s with
  | nil => exact ⟨Nat.le_refl _, Nat.le_refl _⟩
  | cons lastUse rest ih =>
    have hstep := h.step length lastUse
    have hrest := ih hstep.valid
    have hfirst := hstep.lastId
    rw [run_cons, List.countP_cons]
    constructor
    · exact Nat.le_trans hfirst.1 hrest.1
    · dsimp only
      omega

/-- Every slot of a plan is an issued one. -/
theorem Valid.run_range (h : Valid first done s)
    (hi : (State.run length lastUses (done + 1) s).1[i]? = some (some x)) :
    first ≤ x ∧ x ≤ (State.run length lastUses (done + 1) s).2.lastId := by
  induction lastUses generalizing done s i with
  | nil => simp [State.run] at hi
  | cons lastUse rest ih =>
    have hstep := h.step length lastUse
    rw [run_cons] at hi ⊢
    cases i with
    | zero =>
      have hx := hstep.range x (by simpa using hi)
      exact ⟨hx.1, Nat.le_trans hx.2 hstep.valid.run_lastId.1⟩
    | succ i => exact ih hstep.valid (by simpa using hi)

/-- A slot that waits for a release is not taken before. -/
theorem Valid.run_ne (h : Valid first done s) {q : Nat} (hx : x ∈ s.releases.get q)
    (hj : (State.run length lastUses (done + 1) s).1[j]? = some (some x)) : q < done + 1 + j := by
  induction lastUses generalizing done s j with
  | nil => simp [State.run] at hj
  | cons lastUse rest ih =>
    have hstep := h.step length lastUse
    rw [run_cons] at hj
    cases j with
    | zero =>
      by_contra hle
      exact hstep.idle x (by simpa using hj) q (by omega) hx
    | succ j =>
      have hlater := ih hstep.valid (hstep.kept q x hx) (by simpa using hj)
      omega

/-- A slot is taken again only after its release. -/
theorem Valid.run_apart (h : Valid first done s) (huse : lastUses[i]? = some (some u))
    (hij : i < j)
    (hi : (State.run length lastUses (done + 1) s).1[i]? = some (some x))
    (hj : (State.run length lastUses (done + 1) s).1[j]? = some (some x)) :
    releaseRank u (done + 1 + i) length < done + 1 + j := by
  induction lastUses generalizing done s i j with
  | nil => simp at huse
  | cons lastUse rest ih =>
    have hstep := h.step length lastUse
    rw [run_cons] at hi hj
    obtain ⟨j, rfl⟩ : ∃ m, j = m + 1 := ⟨j - 1, by omega⟩
    rw [List.getElem?_cons_succ] at hj
    cases i with
    | zero =>
      have hheld := hstep.held x u (by simpa using hi) (by simpa using huse)
      have hlater := hstep.valid.run_ne hheld hj
      rw [Nat.add_zero]
      omega
    | succ i =>
      rw [List.getElem?_cons_succ] at hi huse
      have hlater := ih hstep.valid huse (Nat.lt_of_succ_lt_succ hij) hi hj
      rw [show done + 1 + (i + 1) = done + 1 + 1 + i by omega]
      omega

/-- A slot that one rank issues is taken at that rank. -/
theorem step_issues (s : State) (length rank : Nat) (lastUse : Option Nat) {x : Nat}
    (hold : s.lastId < x) (hnew : x ≤ (s.step length rank lastUse).2.lastId) :
    (s.step length rank lastUse).1 = some x := by
  cases lastUse with
  | none =>
    have hsame : (s.step length rank none).2.lastId = s.lastId := rfl
    omega
  | some lastUse =>
    unfold State.step at hnew ⊢
    cases hfree : s.releases.get (rank - 1) ++ s.free with
    | cons slot free =>
      simp only [State.take, hfree] at hnew
      omega
    | nil =>
      simp only [State.take, hfree] at hnew ⊢
      exact congrArg some (by omega)

/-- Every slot that is issued is taken at some rank. -/
theorem run_issues (lastUses : List (Option Nat)) (rank : Nat) (s : State) {x : Nat}
    (hold : s.lastId < x) (hnew : x ≤ (State.run length lastUses rank s).2.lastId) :
    ∃ i : Nat, (State.run length lastUses rank s).1[i]? = some (some x) := by
  induction lastUses generalizing rank s with
  | nil =>
    have hsame : (State.run length [] rank s).2.lastId = s.lastId := rfl
    omega
  | cons lastUse rest ih =>
    rw [run_cons] at hnew ⊢
    by_cases hstep : x ≤ (s.step length rank lastUse).2.lastId
    · exact ⟨0, by simp [step_issues s length rank lastUse hold hstep]⟩
    · obtain ⟨i, hi⟩ := ih (rank + 1) _ (Nat.lt_of_not_le hstep) hnew
      exact ⟨i + 1, by simpa using hi⟩

end Run

section Make

variable {lastUses : List (Option Nat)} {i j x u : Nat}

/-- A plan has a slot for exactly the temporaries. -/
theorem make_shape (lastUses : List (Option Nat)) (hfirst : 0 < first) :
    (make lastUses first).slots.map Option.isSome = lastUses.map Option.isSome :=
  (valid_start hfirst).run_shape

/-- A plan has no more slots than there are temporaries. -/
theorem make_lastId (lastUses : List (Option Nat)) (hfirst : 0 < first) :
    first - 1 ≤ (make lastUses first).lastId ∧
      (make lastUses first).lastId ≤ first - 1 + lastUses.countP Option.isSome :=
  (valid_start hfirst).run_lastId

/-- The slots of a plan lie between the first and the last one. -/
theorem make_range (hfirst : 0 < first) (hi : (make lastUses first).slots[i]? = some (some x)) :
    first ≤ x ∧ x ≤ (make lastUses first).lastId :=
  (valid_start hfirst).run_range hi

/-- Every slot between the first and the last one is in use. -/
theorem make_issues (lastUses : List (Option Nat)) (hfirst : first ≤ x)
    (hlast : x ≤ (make lastUses first).lastId) (hpos : 0 < first) :
    ∃ i : Nat, (make lastUses first).slots[i]? = some (some x) :=
  run_issues lastUses 1 { lastId := first - 1 } (Nat.lt_of_lt_of_le (Nat.sub_lt hpos Nat.one_pos)
    hfirst) hlast

/-- Two temporaries share a slot only if the earlier one is released before the later one is
computed. Ranks are counted from one. -/
theorem make_apart (hfirst : 0 < first) (huse : lastUses[i]? = some (some u)) (hij : i < j)
    (hi : (make lastUses first).slots[i]? = some (some x))
    (hj : (make lastUses first).slots[j]? = some (some x)) :
    releaseRank u (i + 1) lastUses.length < j + 1 := by
  have hapart := (valid_start hfirst).run_apart huse hij hi hj
  rwa [Nat.zero_add, Nat.add_comm 1 i, Nat.add_comm 1 j] at hapart

end Make

end SlotPlan

end Straightline
