/-!
# Total tables

A `Table` is a finite table read as a total function on the natural numbers: an index that was
never written holds the default value. Writing past the end pads with defaults, so reading after
writing needs no bound. Node identifiers, slots and evaluation ranks all index such tables.
-/

namespace Straightline

/-- A function from the natural numbers that differs from the default at finitely many places. -/
structure Table (β : Type) where
  /-- The stored values; every later index holds the default. -/
  entries : Array β

namespace Table

variable {β : Type}

/-- The table that holds the default everywhere. -/
def empty : Table β := ⟨#[]⟩

instance : Inhabited (Table β) := ⟨empty⟩

instance : EmptyCollection (Table β) := ⟨empty⟩

variable [Inhabited β]

/-- The value at an index. -/
def get (t : Table β) (i : Nat) : β := t.entries.getD i default

/-- Change the value at one index. -/
def set (t : Table β) (i : Nat) (b : β) : Table β :=
  if i < t.entries.size then ⟨t.entries.setIfInBounds i b⟩
  else ⟨(t.entries ++ Array.replicate (i - t.entries.size) default).push b⟩

/-- Apply a function to the value at one index. -/
def modify (t : Table β) (i : Nat) (f : β → β) : Table β := t.set i (f (t.get i))

@[simp] theorem get_empty (i : Nat) : (empty : Table β).get i = default := by
  simp [empty, get]

@[simp] theorem get_emptyCollection (i : Nat) : (∅ : Table β).get i = default :=
  get_empty i

/-- Writing changes the written index and no other. -/
theorem get_set (t : Table β) (i j : Nat) (b : β) :
    (t.set i b).get j = if j = i then b else t.get j := by
  unfold set
  split
  · next h =>
    by_cases hj : j = i
    · subst hj
      simp [get, h]
    · simp [get, hj, Ne.symm hj]
  · next h =>
    have hsize : t.entries.size + (i - t.entries.size) = i := by omega
    simp only [get, Array.getD_eq_getD_getElem?, Array.getElem?_push, Array.size_append,
      Array.size_replicate, hsize]
    by_cases hj : j = i
    · simp [hj]
    · simp only [hj, if_false, Array.getElem?_append, Array.getElem?_replicate]
      by_cases hlt : j < t.entries.size
      · simp [hlt]
      · simp only [hlt, if_false, Array.getElem?_eq_none (Nat.le_of_not_lt hlt)]
        split <;> rfl

@[simp] theorem get_set_self (t : Table β) (i : Nat) (b : β) : (t.set i b).get i = b := by
  simp [get_set]

theorem get_set_of_ne {i j : Nat} (t : Table β) (b : β) (h : j ≠ i) :
    (t.set i b).get j = t.get j := by
  simp [get_set, h]

/-- Of two writes at one index the later one stays. -/
@[simp] theorem set_set (t : Table β) (i : Nat) (b b' : β) :
    (t.set i b).set i b' = t.set i b' := by
  by_cases h : i < t.entries.size
  · simp [set, h]
  · unfold set
    rw [if_neg h, if_neg h]
    generalize hpad : t.entries ++ Array.replicate (i - t.entries.size) default = pad
    have hsize : pad.size = i := by
      rw [← hpad, Array.size_append, Array.size_replicate]
      omega
    subst hsize
    have hlast : (pad.push b).setIfInBounds pad.size b' = pad.push b' := Array.ext' (by simp)
    simp [hlast]

/-- Modification acts on the chosen index and keeps the rest. -/
theorem get_modify (t : Table β) (i j : Nat) (f : β → β) :
    (t.modify i f).get j = if j = i then f (t.get i) else t.get j := by
  simp [modify, get_set]

end Table

end Straightline
