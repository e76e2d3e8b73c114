import Mathlib.Data.List.Nodup
import Straightline.Generation.Schedule

/-!
# Issued slots

Slots are issued one after another, so that the nodes that hold one can be listed: the node at a
position of the list holds the slot of that position, counted from one, and no other node holds a
slot. The reserved slots are those of the roster followed by those of the requested nodes.
-/

namespace Straightline

/-- The listed nodes hold the slots from one to the last one, in order, and no other node has a
slot. -/
structure Issued (slots : Table Nat) (lastId : Nat) (ids : List NodeId) : Prop where
  /-- No node is listed twice. -/
  nodup : ids.Nodup
  /-- As many slots are issued as nodes are listed. -/
  length : lastId = ids.length
  /-- A listed node holds the slot of its position. -/
  slot : ∀ i id, ids[i]? = some id → slots.get id = i + 1
  /-- A node that is not listed holds none. -/
  absent : ∀ id, id ∉ ids → slots.get id = 0

namespace Issued

variable {slots : Table Nat} {lastId : Nat} {ids : List NodeId}

theorem empty : Issued ∅ 0 [] where
  nodup := List.nodup_nil
  length := rfl
  slot i id h := by simp at h
  absent id _ := by simp

/-- A node holds a slot exactly if it is listed. -/
theorem ne_zero_iff (h : Issued slots lastId ids) {id : NodeId} :
    slots.get id ≠ 0 ↔ id ∈ ids := by
  constructor
  · intro hne
    by_contra hmem
    exact hne (h.absent id hmem)
  · intro hmem
    obtain ⟨i, hi⟩ := List.mem_iff_getElem?.mp hmem
    rw [h.slot i id hi]
    omega

theorem not_mem (h : Issued slots lastId ids) {id : NodeId} (hid : slots.get id = 0) :
    id ∉ ids :=
  fun hmem => h.ne_zero_iff.mpr hmem hid

/-- No slot lies beyond the last one. -/
theorem le_lastId (h : Issued slots lastId ids) (id : NodeId) : slots.get id ≤ lastId := by
  by_cases hmem : id ∈ ids
  · obtain ⟨i, hi⟩ := List.mem_iff_getElem?.mp hmem
    obtain ⟨hlt, _⟩ := List.getElem?_eq_some_iff.mp hi
    rw [h.slot i id hi, h.length]
    omega
  · rw [h.absent id hmem]
    omega

/-- Different listed nodes hold different slots. -/
theorem inj (h : Issued slots lastId ids) {a b : NodeId} (ha : a ∈ ids)
    (hab : slots.get a = slots.get b) : a = b := by
  have hb : b ∈ ids := h.ne_zero_iff.mp (hab ▸ h.ne_zero_iff.mpr ha)
  obtain ⟨i, hi⟩ := List.mem_iff_getElem?.mp ha
  obtain ⟨j, hj⟩ := List.mem_iff_getElem?.mp hb
  rw [h.slot i a hi, h.slot j b hj] at hab
  obtain rfl : i = j := by omega
  exact Option.some.inj (hi.symm.trans hj)

/-- The next slot goes to a node that has none. -/
theorem concat (h : Issued slots lastId ids) {id : NodeId} (hid : slots.get id = 0) :
    Issued (slots.set id (lastId + 1)) (lastId + 1) (ids ++ [id]) where
  nodup := by
    exact List.nodup_append'.mpr ⟨h.nodup, List.nodup_singleton _, by simpa using h.not_mem hid⟩
  length := by rw [h.length, List.length_append, List.length_singleton]
  slot i k hk := by
    rw [Table.get_set]
    rcases Nat.lt_or_ge i ids.length with hlt | hge
    · rw [List.getElem?_append_left hlt] at hk
      have hne : k ≠ id := by
        rintro rfl
        exact h.not_mem hid (List.mem_of_getElem? hk)
      rw [if_neg hne, h.slot i k hk]
    · rw [List.getElem?_append_right hge] at hk
      obtain ⟨hi, rfl⟩ : i - ids.length = 0 ∧ id = k := by
        rw [List.getElem?_singleton] at hk
        by_cases hi : i - ids.length = 0
        · exact ⟨hi, by simpa [hi] using hk⟩
        · simp [hi] at hk
      rw [if_pos rfl, h.length]
      omega
  absent k hk := by
    rw [List.mem_append, List.mem_singleton, not_or] at hk
    rw [Table.get_set, if_neg hk.2, h.absent k hk.1]

/-- A node behind a listed prefix holds a slot behind those of the prefix. -/
theorem lt_of_mem_append {front back : List NodeId} (h : Issued slots lastId (front ++ back))
    {id : NodeId} (hid : id ∈ back) : front.length < slots.get id := by
  obtain ⟨i, hi⟩ := List.mem_iff_getElem?.mp hid
  have hpos : (front ++ back)[front.length + i]? = some id := by
    rw [List.getElem?_append_right (by omega), Nat.add_sub_cancel_left]
    exact hi
  rw [h.slot _ id hpos]
  omega

/-- A node of a listed prefix holds one of the slots of the prefix. -/
theorem le_of_mem_prefix {front back : List NodeId} (h : Issued slots lastId (front ++ back))
    {id : NodeId} (hid : id ∈ front) : slots.get id ≤ front.length := by
  obtain ⟨i, hi⟩ := List.mem_iff_getElem?.mp hid
  obtain ⟨hlt, _⟩ := List.getElem?_eq_some_iff.mp hi
  have hpos : (front ++ back)[i]? = some id := by
    rw [List.getElem?_append_left hlt]
    exact hi
  rw [h.slot i id hpos]
  omega

end Issued

/-- A value stands at a position of a list and at none before. -/
def FirstAt {β : Type} (values : List β) (x : β) (i : Nat) : Prop :=
  values[i]? = some x ∧ ∀ j < i, values[j]? ≠ some x

theorem FirstAt.append {β : Type} {values : List β} {x : β} {i : Nat} (h : FirstAt values x i)
    (more : List β) : FirstAt (values ++ more) x i := by
  obtain ⟨hlt, _⟩ := List.getElem?_eq_some_iff.mp h.1
  constructor
  · rw [List.getElem?_append_left hlt]
    exact h.1
  · intro j hj
    rw [List.getElem?_append_left (Nat.lt_trans hj hlt)]
    exact h.2 j hj

/-- A new value stands first where it is appended. -/
theorem firstAt_concat {β : Type} {values : List β} {x : β} (hx : x ∉ values) :
    FirstAt (values ++ [x]) x values.length := by
  constructor
  · simp
  · intro j hj heq
    rw [List.getElem?_append_left hj] at heq
    exact hx (List.mem_of_getElem? heq)

/-- A map that keeps the values apart keeps first positions. -/
theorem FirstAt.map {β γ : Type} {values : List β} {f : β → γ}
    (hinj : ∀ x ∈ values, ∀ y ∈ values, f x = f y → x = y) {x : β} {i : Nat}
    (h : FirstAt values x i) : FirstAt (values.map f) (f x) i := by
  constructor
  · rw [List.getElem?_map, h.1, Option.map_some]
  · intro j hj heq
    rw [List.getElem?_map] at heq
    obtain ⟨y, hy, hfy⟩ := Option.map_eq_some_iff.mp heq
    obtain rfl := hinj y (List.mem_of_getElem? hy) x (List.mem_of_getElem? h.1) hfy
    exact h.2 j hj hy

namespace Reservation

variable {α : Type}

/-- The roster takes the first slots in order. -/
theorem issued_roster {roster ids : List NodeId} {r : Reservation}
    (h : Issued r.slots r.lastId ids) (hnodup : (ids ++ roster).Nodup) :
    Issued (roster.foldl addIndependent r).slots (roster.foldl addIndependent r).lastId
      (ids ++ roster) := by
  induction roster generalizing ids r with
  | nil => simpa using h
  | cons id roster ih =>
    have hnew : id ∉ ids := by
      intro hmem
      exact (List.nodup_append'.mp hnodup).2.2 hmem List.mem_cons_self
    have hstep : Issued (r.addIndependent id).slots (r.addIndependent id).lastId (ids ++ [id]) :=
      h.concat (h.absent id hnew)
    have hsplit : ids ++ id :: roster = (ids ++ [id]) ++ roster := by simp
    rw [hsplit] at hnodup ⊢
    exact ih hstep hnodup

/-- The requested nodes take the slots that follow, each once. -/
theorem issued_outputs {outputs : List (Arg α)} (index : Nat) {ids : List NodeId}
    {r : Reservation} (h : Issued r.slots r.lastId ids) :
    ∃ extra, Issued (addOutputs outputs index r).slots (addOutputs outputs index r).lastId
        (ids ++ extra) ∧
      (∀ id ∈ extra, Arg.node id ∈ outputs) ∧ ∀ id, Arg.node id ∈ outputs → id ∈ ids ++ extra := by
  induction outputs generalizing index ids r with
  | nil => exact ⟨[], by simpa [addOutputs] using h, by simp, by simp⟩
  | cons x outputs ih =>
    cases x with
    | const v =>
      obtain ⟨extra, hissued, hfrom, hall⟩ := ih (index + 1) h
      exact ⟨extra, hissued, fun id hid => List.mem_cons_of_mem _ (hfrom id hid),
        fun id hid => hall id (by simpa using hid)⟩
    | node id =>
      by_cases hslot : r.slots.get id = 0
      · have hstep : Issued (r.addOutput id index).slots (r.addOutput id index).lastId
            (ids ++ [id]) := by
          simp only [addOutput, hslot, if_true]
          exact h.concat hslot
        obtain ⟨extra, hissued, hfrom, hall⟩ := ih (index + 1) hstep
        refine ⟨id :: extra, by simpa [addOutputs] using hissued, ?_, ?_⟩
        · intro k hk
          rcases List.mem_cons.mp hk with rfl | hk
          · exact List.mem_cons_self
          · exact List.mem_cons_of_mem _ (hfrom k hk)
        · intro k hk
          rcases List.mem_cons.mp hk with hk | hk
          · obtain rfl : k = id := by simpa using hk
            simp
          · simpa using hall k hk
      · have hsame : r.addOutput id index = r := by simp [addOutput, hslot]
        obtain ⟨extra, hissued, hfrom, hall⟩ := ih (index + 1) h
        refine ⟨extra, ?_, fun k hk => List.mem_cons_of_mem _ (hfrom k hk), ?_⟩
        · simpa only [addOutputs, hsame] using hissued
        · intro k hk
          rcases List.mem_cons.mp hk with hk | hk
          · obtain rfl : k = id := by simpa using hk
            exact List.mem_append_left _ (h.ne_zero_iff.mp hslot)
          · exact hall k hk

/-- The reserved slots are those of the roster, followed by those of the requested nodes that are
not in it. -/
theorem issued_make {roster : List NodeId} (hnodup : roster.Nodup) (outputs : List (Arg α)) :
    ∃ extra, Issued (make roster outputs).slots (make roster outputs).lastId (roster ++ extra) ∧
      (∀ id ∈ extra, Arg.node id ∈ outputs) ∧
      ∀ id, Arg.node id ∈ outputs → id ∈ roster ++ extra := by
  have hempty : Issued ({} : Reservation).slots ({} : Reservation).lastId [] := Issued.empty
  have hroster := issued_roster hempty (by simpa using hnodup)
  exact issued_outputs 0 (by simpa using hroster)

/-- The roster owns no slot for an output. -/
theorem owners_roster (roster : List NodeId) (r : Reservation) :
    (roster.foldl addIndependent r).owners = r.owners := by
  induction roster generalizing r with
  | nil => rfl
  | cons id roster ih => exact ih (r.addIndependent id)

/-- The slots from a first one on belong to outputs. -/
theorem owners_outputs (outputs : List (Arg α)) (index : Nat) {first : Nat} {r : Reservation}
    (hfirst : first ≤ r.lastId)
    (h : ∀ slot, r.owners.get slot ≠ none ↔ first < slot ∧ slot ≤ r.lastId) (slot : Nat) :
    (addOutputs outputs index r).owners.get slot ≠ none ↔
      first < slot ∧ slot ≤ (addOutputs outputs index r).lastId := by
  induction outputs generalizing index r with
  | nil => exact h slot
  | cons x outputs ih =>
    cases x with
    | const v => exact ih (index + 1) hfirst h
    | node id =>
      by_cases hslot : r.slots.get id = 0
      · have hlast : (r.addOutput id index).lastId = r.lastId + 1 := by simp [addOutput, hslot]
        refine ih (index + 1) (by omega) fun k => ?_
        have hget : (r.addOutput id index).owners.get k =
            if k = r.lastId + 1 then some index else r.owners.get k := by
          simp [addOutput, hslot, Table.get_set]
        rw [hget, hlast]
        split
        · next heq => simp [heq, Nat.lt_succ_of_le hfirst]
        · next hne =>
          rw [h k]
          omega
      · have hsame : r.addOutput id index = r := by simp [addOutput, hslot]
        rw [addOutputs, hsame]
        exact ih (index + 1) hfirst h

/-- The reserved slots behind those of the roster belong to outputs. -/
theorem owners_make {roster : List NodeId} (hnodup : roster.Nodup) (outputs : List (Arg α))
    (slot : Nat) :
    (make roster outputs).owners.get slot ≠ none ↔
      roster.length < slot ∧ slot ≤ (make roster outputs).lastId := by
  have hempty : Issued ({} : Reservation).slots ({} : Reservation).lastId [] := Issued.empty
  have hlast := (issued_roster hempty (by simpa using hnodup)).length
  rw [List.nil_append] at hlast
  refine owners_outputs outputs 0 (Nat.le_of_eq hlast.symm) (fun k => ?_) slot
  rw [owners_roster, hlast]
  simp only [Table.get_emptyCollection]
  constructor
  · intro hne
    exact absurd rfl hne
  · omega

/-- The slot of a requested node belongs to the first output position that asks for it. The outputs
before have been dealt with, and their nodes have slots. -/
theorem owners_first {roster : List NodeId} (outputs : List (Arg α)) {front : List (Arg α)}
    {r : Reservation} (hle : ∀ id, r.slots.get id ≤ r.lastId)
    (hseen : ∀ id, .node id ∈ front → r.slots.get id ≠ 0)
    (h : ∀ id, id ∉ roster → r.slots.get id ≠ 0 →
      ∃ i, r.owners.get (r.slots.get id) = some i ∧ FirstAt front (.node id) i) :
    ∀ id, id ∉ roster → (addOutputs outputs front.length r).slots.get id ≠ 0 →
      ∃ i, (addOutputs outputs front.length r).owners.get
          ((addOutputs outputs front.length r).slots.get id) = some i ∧
        FirstAt (front ++ outputs) (.node id) i := by
  induction outputs generalizing front r with
  | nil => simpa [addOutputs] using h
  | cons x outputs ih =>
    have hlength : front.length + 1 = (front ++ [x]).length := by simp
    have hsplit : front ++ x :: outputs = (front ++ [x]) ++ outputs := by simp
    have hkept : ∀ id, id ∉ roster → r.slots.get id ≠ 0 →
        ∃ i, r.owners.get (r.slots.get id) = some i ∧ FirstAt (front ++ [x]) (.node id) i := by
      intro id hid hslot
      obtain ⟨i, howner, hfirst⟩ := h id hid hslot
      exact ⟨i, howner, hfirst.append [x]⟩
    rw [hsplit]
    cases x with
    | const v =>
      rw [addOutputs, hlength]
      exact ih hle (by simpa using hseen) hkept
    | node id =>
      by_cases hslot : r.slots.get id = 0
      · have hadd : r.addOutput id front.length =
            { slots := r.slots.set id (r.lastId + 1)
              owners := r.owners.set (r.lastId + 1) (some front.length)
              lastId := r.lastId + 1 } := by
          rw [addOutput, if_pos hslot]
        rw [addOutputs, hlength]
        refine ih ?_ ?_ ?_
        · intro k
          rw [hadd, Table.get_set]
          split
          · exact Nat.le_refl _
          · exact Nat.le_succ_of_le (hle k)
        · intro k hk
          rw [hadd, Table.get_set]
          split
          · exact Nat.succ_ne_zero _
          · next hne => exact hseen k (by simpa [hne] using hk)
        · intro k hk hkslot
          rw [hadd] at hkslot ⊢
          dsimp only at hkslot ⊢
          by_cases heq : k = id
          · subst heq
            have hnew : Arg.node k ∉ front := fun hmem => hseen k hmem hslot
            rw [Table.get_set_self, Table.get_set_self]
            exact ⟨front.length, rfl, firstAt_concat hnew⟩
          · rw [Table.get_set_of_ne _ _ heq] at hkslot ⊢
            have hne : r.slots.get k ≠ r.lastId + 1 := by
              have hbound := hle k
              omega
            rw [Table.get_set_of_ne _ _ hne]
            exact hkept k hk hkslot
      · have hsame : r.addOutput id front.length = r := by rw [addOutput, if_neg hslot]
        rw [addOutputs, hsame, hlength]
        refine ih hle ?_ hkept
        intro k hk
        rcases List.mem_append.mp hk with hk | hk
        · exact hseen k hk
        · obtain rfl : k = id := by simpa using hk
          exact hslot

/-- The reserved slot of a node behind the roster belongs to the first output position that asks for
the node. -/
theorem owners_make_first {roster : List NodeId} (hnodup : roster.Nodup) (outputs : List (Arg α))
    {id : NodeId} (hid : id ∉ roster) (hslot : (make roster outputs).slots.get id ≠ 0) :
    ∃ i, (make roster outputs).owners.get ((make roster outputs).slots.get id) = some i ∧
      FirstAt outputs (.node id) i := by
  have hempty : Issued ({} : Reservation).slots ({} : Reservation).lastId [] := Issued.empty
  have hissued := issued_roster hempty (by simpa using hnodup)
  rw [List.nil_append] at hissued
  have hseen : ∀ k, .node k ∈ ([] : List (Arg α)) →
      (roster.foldl addIndependent {}).slots.get k ≠ 0 := by simp
  refine owners_first outputs hissued.le_lastId hseen ?_ id hid hslot
  intro k hk hkslot
  exact absurd (hissued.ne_zero_iff.mp hkslot) hk

end Reservation

end Straightline
