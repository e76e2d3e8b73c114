import Straightline.Bundle
import Straightline.Proofs.Generation.Partition

/-!
# Names of slots

A slot stands for a variable of the generated program: an input, an output or a temporary. Which
one it is depends on the slot alone, and different slots in use stand for different variables. With
the names of three different arrays, and display names that are different from each other and from
every element, different variables have different names. So two stored values have one name exactly
if they have one slot.
-/

namespace Straightline

/-- A variable of a generated program. -/
inductive Variable where
  /-- The independent variable at a roster position. -/
  | input (position : Nat)
  /-- The output at a position. -/
  | output (position : Nat)
  /-- The temporary at an offset. -/
  | temporary (offset : Nat)
  deriving DecidableEq, Repr

namespace Naming

/-- The identifier of a variable that holds a value with a display name. -/
def identifier (naming : Naming) : Variable → Option String → String
  | .input position, display => naming.independent position display
  | .output position, _ => naming.dependent position
  | .temporary offset, display => naming.temporary offset display

/-- The digits of an index contain no bracket. -/
theorem bracket_not_mem_index (i : Nat) : '[' ∉ (toString i).toList := by
  intro hmem
  rw [Nat.toString_eq_repr, Nat.toList_repr] at hmem
  exact absurd (Nat.isDigit_of_mem_toDigits (by decide) (by decide) hmem) (by decide)

/-- An element determines its array and its index. -/
theorem element_inj {p q : String} {i j : Nat} (h : element p i = element q j) :
    p = q ∧ i = j := by
  have hchars :
      p.toList ++ '[' :: (toString i).toList = q.toList ++ '[' :: (toString j).toList := by
    have hlists := congrArg String.toList h
    simp only [element, String.toList_append] at hlists
    simpa using List.append_cancel_right hlists
  -- The bracket that begins the index is the last one on both sides.
  have hsplit : p.toList = q.toList ∧ (toString i).toList = (toString j).toList := by
    rcases List.append_eq_append_iff.mp hchars with ⟨rest, hq, hrest⟩ | ⟨rest, hp, hrest⟩
    · cases rest with
      | nil => simpa using And.intro hq.symm hrest
      | cons c rest =>
        have hindex : (toString i).toList = rest ++ '[' :: (toString j).toList := by
          simpa using (List.cons.inj hrest).2
        exact absurd (hindex ▸ by simp) (bracket_not_mem_index i)
    · cases rest with
      | nil => simpa using And.intro hp hrest.symm
      | cons c rest =>
        have hindex : (toString j).toList = rest ++ '[' :: (toString i).toList := by
          simpa using (List.cons.inj hrest).2
        exact absurd (hindex ▸ by simp) (bracket_not_mem_index j)
  have hindex := congrArg (Nat.ofDigitChars 10 · 0) hsplit.2
  simp only [Nat.toString_eq_repr, Nat.toList_repr, Nat.ofDigitChars_toDigits (by decide : 1 < 10)
    (by decide : 10 ≤ 10)] at hindex
  exact ⟨String.toList_inj.mp hsplit.1, hindex⟩

/-- A name without a bracket is no element. -/
theorem ne_element {s : String} (h : '[' ∉ s.toList) (array : String) (n : Nat) :
    s ≠ element array n := by
  rintro rfl
  exact h (by simp [element])

/-- The arrays are different, and the display names of the independent variables are different from
each other and from every element. -/
structure Apart (dependent independent temporary : String) (display : Nat → Option String) :
    Prop where
  /-- The array of the outputs is not the one of the inputs. -/
  dependent_ne_independent : dependent ≠ independent
  /-- The array of the outputs is not the one of the temporaries. -/
  dependent_ne_temporary : dependent ≠ temporary
  /-- The array of the inputs is not the one of the temporaries. -/
  independent_ne_temporary : independent ≠ temporary
  /-- Different positions have different display names. -/
  displays : ∀ i j s, display i = some s → display j = some s → i = j
  /-- A display name is no element of an array. -/
  elements : ∀ i s, display i = some s → ∀ array ∈ [dependent, independent, temporary], ∀ n,
    s ≠ element array n

variable {dependent independent temporary : String} {display : Nat → Option String}

/-- The display name that takes part in the name of a variable. -/
def shown (display : Nat → Option String) : Variable → Option String
  | .input position => display position
  | _ => none

/-- The name of an input is no element of another array. -/
theorem Apart.input_ne (h : Apart dependent independent temporary display) (i n : Nat)
    {array : String} (harray : array ∈ [dependent, temporary]) :
    (display i).getD (element independent i) ≠ element array n := by
  intro heq
  cases hshown : display i with
  | some s =>
    rw [hshown] at heq
    have hlisted : array ∈ [dependent, independent, temporary] := by
      simp only [List.mem_cons, List.not_mem_nil, or_false] at harray ⊢
      exact harray.imp_right .inr
    exact h.elements i s hshown array hlisted n heq
  | none =>
    rw [hshown] at heq
    obtain rfl := (element_inj heq).1
    simp only [List.mem_cons, List.not_mem_nil, or_false] at harray
    exact harray.elim h.dependent_ne_independent.symm h.independent_ne_temporary

/-- Different inputs have different names. -/
theorem Apart.input_inj (h : Apart dependent independent temporary display) {i j : Nat}
    (heq : (display i).getD (element independent i) = (display j).getD (element independent j)) :
    i = j := by
  cases hi : display i with
  | some s =>
    cases hj : display j with
    | some t =>
      rw [hi, hj] at heq
      exact h.displays i j s hi (hj.trans (congrArg some heq.symm))
    | none =>
      rw [hi, hj] at heq
      exact absurd heq (h.elements i s hi independent (by simp) j)
  | none =>
    cases hj : display j with
    | some t =>
      rw [hi, hj] at heq
      exact absurd heq.symm (h.elements j t hj independent (by simp) i)
    | none =>
      rw [hi, hj] at heq
      exact (element_inj heq).2

/-- Different variables have different names. -/
theorem Apart.identifier_inj (h : Apart dependent independent temporary display) {v w : Variable}
    (heq : (arrays dependent independent temporary).identifier v (shown display v) =
      (arrays dependent independent temporary).identifier w (shown display w)) : v = w := by
  cases v with
  | input i =>
    cases w with
    | input j => exact congrArg Variable.input (h.input_inj heq)
    | output j => exact absurd heq (h.input_ne i j (by simp))
    | temporary j => exact absurd heq (h.input_ne i j (by simp))
  | output i =>
    cases w with
    | input j => exact absurd heq.symm (h.input_ne j i (by simp))
    | output j => exact congrArg Variable.output (element_inj heq).2
    | temporary j => exact absurd (element_inj heq).1 h.dependent_ne_temporary
  | temporary i =>
    cases w with
    | input j => exact absurd heq.symm (h.input_ne j i (by simp))
    | output j => exact absurd (element_inj heq).1.symm h.dependent_ne_temporary
    | temporary j => exact congrArg Variable.temporary (element_inj heq).2

/-- Without display names it is enough that the arrays are different. -/
theorem Apart.of_undisplayed (hdi : dependent ≠ independent) (hdt : dependent ≠ temporary)
    (hit : independent ≠ temporary) (hnone : ∀ i, display i = none) :
    Apart dependent independent temporary display where
  dependent_ne_independent := hdi
  dependent_ne_temporary := hdt
  independent_ne_temporary := hit
  displays i j s hi := by simp [hnone] at hi
  elements i s hi := by simp [hnone] at hi

end Naming

namespace Graph

variable {α : Type} {g : Graph α} {outputs : List (Arg α)} {id : NodeId}

/-- The display name of a recorded node. -/
def displayName? (g : Graph α) (id : NodeId) : Option String := (g.recorded.get id).bind Node.name

/-- The display name of the independent variable at a roster position. -/
def display? (g : Graph α) (position : Nat) : Option String :=
  g.roster[position]?.bind g.displayName?

/-- Without display names on the roster no position shows one. -/
theorem display?_eq_none (h : ∀ id ∈ g.roster, g.displayName? id = none) (position : Nat) :
    g.display? position = none := by
  rw [display?, Option.bind_eq_none_iff]
  exact fun id hid => h id (List.mem_of_getElem? hid)

/-- A pass keeps the roster and its display names. -/
theorem display?_shared (g : Graph α) (optimize reuse : Bool) (policy : Policy α)
    (outputs : List (Arg α)) :
    ((g.prepared optimize policy outputs).2.shared reuse).display? = g.display? := by
  cases optimize <;> cases reuse <;> rfl

theorem roster_shared (g : Graph α) (optimize reuse : Bool) (policy : Policy α)
    (outputs : List (Arg α)) :
    ((g.prepared optimize policy outputs).2.shared reuse).roster = g.roster := by
  cases optimize <;> cases reuse <;> rfl

/-- The variable that a slot stands for. -/
def variableAt? (g : Graph α) (slot : Nat) : Option Variable :=
  if slot = 0 then none
  else if slot ≤ g.roster.length then some (.input (slot - 1))
  else
    match g.pass.owners.get slot with
    | some position => some (.output position)
    | none =>
      if g.pass.firstTemporary ≤ slot then some (.temporary (slot - g.pass.firstTemporary))
      else none

/-- A node with a slot in use is an independent variable, a requested node or a temporary. -/
theorem Partitioned.cases (h : g.Partitioned outputs) (hid : id ∈ g.roster ∨ id ∈ g.order) :
    (∃ i, g.roster[i]? = some id ∧ g.slot id = i + 1) ∨ id ∈ g.dependents outputs ∨
      id ∈ g.temporaries outputs := by
  rcases hid with hroster | horder
  · obtain ⟨i, hi⟩ := List.mem_iff_getElem?.mp hroster
    exact .inl ⟨i, hi, h.independents i id hi⟩
  · by_cases hrequested : id ∈ g.dependents outputs
    · exact .inr (.inl hrequested)
    · exact .inr (.inr (mem_temporaries.mpr ⟨horder, hrequested⟩))

/-- An independent variable is the input at its roster position. -/
theorem Partitioned.variableAt?_independent (h : g.Partitioned outputs) {i : Nat}
    (hi : g.roster[i]? = some id) : g.variableAt? (g.slot id) = some (.input i) := by
  obtain ⟨hlt, _⟩ := List.getElem?_eq_some_iff.mp hi
  rw [h.independents i id hi, variableAt?, if_neg (Nat.succ_ne_zero i),
    if_pos (Nat.succ_le_of_lt hlt), Nat.add_sub_cancel]

/-- A requested node is the output at the position that owns its slot. -/
theorem Partitioned.variableAt?_dependent (h : g.Partitioned outputs)
    (hid : id ∈ g.dependents outputs) {i : Nat} (howner : g.pass.owners.get (g.slot id) = some i) :
    g.variableAt? (g.slot id) = some (.output i) := by
  have hgt : g.roster.length + 1 ≤ g.slot id := (h.dependents.mapsTo hid).1
  rw [variableAt?, if_neg (by omega), if_neg (by omega), howner]

/-- The slots of requested nodes alone belong to output positions. -/
theorem Partitioned.of_owner (h : g.Partitioned outputs) (hid : id ∈ g.roster ∨ id ∈ g.order)
    {i : Nat} (howner : g.pass.owners.get (g.slot id) = some i) :
    id ∈ g.dependents outputs ∧ FirstAt outputs (.node id) i := by
  have hrequested : id ∈ g.dependents outputs := by
    rcases h.cases hid with ⟨j, hj, _⟩ | hrequested | htemporary
    · simp [h.unowned id (.inl (List.mem_of_getElem? hj))] at howner
    · exact hrequested
    · simp [h.unowned id (.inr htemporary)] at howner
  obtain ⟨j, hj, hfirst⟩ := h.owners id hrequested
  obtain rfl : i = j := Option.some.inj (howner.symm.trans hj)
  exact ⟨hrequested, hfirst⟩

/-- Temporaries hold slots from the first one on. -/
theorem Partitioned.slot_temporary (h : g.Partitioned outputs) (hid : id ∈ g.temporaries outputs) :
    g.pass.firstTemporary ≤ g.slot id ∧ g.slot id ≤ g.pass.lastId := by
  rw [← Finset.mem_Icc, ← h.temporaries]
  exact Finset.mem_image_of_mem _ hid

/-- Any other stored node is the temporary at the offset of its slot. -/
theorem Partitioned.variableAt?_temporary (h : g.Partitioned outputs)
    (hid : id ∈ g.temporaries outputs) :
    g.variableAt? (g.slot id) = some (.temporary (g.slot id - g.pass.firstTemporary)) := by
  have hfirst := h.firstTemporary
  have hle := (h.slot_temporary hid).1
  rw [variableAt?, if_neg (by omega), if_neg (by omega), h.unowned id (.inr hid)]
  exact if_pos hle

/-- The slot of a variable. -/
def slotOf (g : Graph α) (outputs : List (Arg α)) : Variable → Nat
  | .input position => position + 1
  | .output position => ((outputs[position]?.bind Arg.node?).map g.slot).getD 0
  | .temporary offset => g.pass.firstTemporary + offset

/-- A slot in use stands for a variable, and can be told from it. -/
theorem Partitioned.exists_variable (h : g.Partitioned outputs)
    (hid : id ∈ g.roster ∨ id ∈ g.order) :
    ∃ v, g.variableAt? (g.slot id) = some v ∧ g.slotOf outputs v = g.slot id := by
  rcases h.cases hid with ⟨i, hi, hslot⟩ | hrequested | htemporary
  · exact ⟨_, h.variableAt?_independent hi, hslot.symm⟩
  · obtain ⟨i, howner, hfirst⟩ := h.owners id hrequested
    refine ⟨_, h.variableAt?_dependent hrequested howner, ?_⟩
    rw [slotOf, hfirst.1]
    rfl
  · exact ⟨_, h.variableAt?_temporary htemporary,
      Nat.add_sub_of_le (h.slot_temporary htemporary).1⟩

/-- The slot of an output position stands for the output. -/
theorem Partitioned.variableAt?_eq_output_iff (h : g.Partitioned outputs)
    (hid : id ∈ g.roster ∨ id ∈ g.order) {i : Nat} :
    g.variableAt? (g.slot id) = some (.output i) ↔ g.pass.owners.get (g.slot id) = some i := by
  constructor
  · intro hv
    rcases h.cases hid with ⟨j, hj, _⟩ | hrequested | htemporary
    · simp [h.variableAt?_independent hj] at hv
    · obtain ⟨j, howner, _⟩ := h.owners id hrequested
      rw [h.variableAt?_dependent hrequested howner] at hv
      obtain rfl : j = i := by simpa using hv
      exact howner
    · simp [h.variableAt?_temporary htemporary] at hv
  · intro howner
    exact h.variableAt?_dependent (h.of_owner hid howner).1 howner

end Graph

namespace Bundle

variable {α : Type} {b : Bundle α} {id : NodeId}

/-- The name of a variable, with the display names of the independent variables. -/
def nameOf (b : Bundle α) (v : Variable) : String :=
  b.naming.identifier v (Naming.shown b.graph.display? v)

/-- A live node has the name of the variable that its slot stands for. -/
theorem variableName?_of_node? {node : Node α} {v : Variable} (hnode : b.graph.node? id = some node)
    (hv : b.graph.variableAt? (b.graph.slot id) = some v) :
    b.variableName? id = some (b.naming.identifier v node.name) := by
  have hlive : b.graph.contains id = true := by rw [Graph.contains, hnode, Option.isSome_some]
  rw [Graph.variableAt?] at hv
  simp only [variableName?, hnode, dependentIndex?, hlive, if_true, Option.bind_eq_bind,
    Option.bind_some]
  by_cases hzero : b.graph.slot id = 0
  · rw [if_pos hzero] at hv
    cases hv
  · rw [if_neg hzero] at hv ⊢
    by_cases hinput : b.graph.slot id ≤ b.graph.roster.length
    · rw [if_pos hinput] at hv ⊢
      cases hv
      rfl
    · rw [if_neg hinput] at hv ⊢
      cases howner : b.graph.pass.owners.get (b.graph.slot id) with
      | some position =>
        rw [howner] at hv
        cases hv
        rfl
      | none =>
        simp only [howner] at hv ⊢
        by_cases hfirst : b.graph.pass.firstTemporary ≤ b.graph.slot id
        · rw [if_pos hfirst] at hv ⊢
          cases hv
          rfl
        · rw [if_neg hfirst] at hv
          cases hv

/-- A stored value has a name, whatever the naming is. -/
theorem variableName?_ne_none (h : b.graph.Partitioned b.outputs)
    (hid : id ∈ b.graph.roster ∨ id ∈ b.graph.order) : b.variableName? id ≠ none := by
  obtain ⟨node, hnode⟩ := Option.isSome_iff_exists.mp (h.live id hid)
  obtain ⟨v, hv, _⟩ := h.exists_variable hid
  simp [variableName?_of_node? hnode hv]

/-- A requested node has the first position that asks for it. -/
theorem dependentIndex?_of_mem (h : b.graph.Partitioned b.outputs)
    (hid : id ∈ b.graph.dependents b.outputs) :
    ∃ i, b.dependentIndex? id = some i ∧ FirstAt b.outputs (.node id) i := by
  obtain ⟨i, howner, hfirst⟩ := h.owners id hid
  refine ⟨i, ?_, hfirst⟩
  rw [dependentIndex?, if_pos (h.live id (.inr (h.stored id hid))), howner]

/-- The number of temporaries is the number of their slots. -/
theorem temporaryCount_eq_card (h : b.graph.Partitioned b.outputs) :
    b.temporaryCount = ((b.graph.temporaries b.outputs).image b.graph.slot).card := by
  rw [h.temporaries, Nat.card_Icc]
  rfl

section Arrays

variable {dependent independent temporary : String}

/-- With the names of arrays, a stored value has the name of its variable. -/
theorem variableName?_of_arrays (h : b.graph.Partitioned b.outputs) (hgraph : b.graph.WellFormed)
    (hnaming : b.naming = Naming.arrays dependent independent temporary)
    (hid : id ∈ b.graph.roster ∨ id ∈ b.graph.order) {v : Variable}
    (hv : b.graph.variableAt? (b.graph.slot id) = some v) :
    b.variableName? id = some (b.nameOf v) := by
  obtain ⟨node, hnode⟩ := Option.isSome_iff_exists.mp (h.live id hid)
  rw [variableName?_of_node? hnode hv, nameOf, hnaming]
  -- Display names take part for independent variables only.
  rcases h.cases hid with ⟨i, hi, _⟩ | hrequested | htemporary
  · obtain rfl : v = .input i := Option.some.inj (hv.symm.trans (h.variableAt?_independent hi))
    obtain ⟨node', hrecorded, _⟩ := (hgraph.mem_roster id).mp (List.mem_of_getElem? hi)
    rw [Graph.node?, hrecorded, Option.some_or, Option.some_inj] at hnode
    simp [Naming.shown, Graph.display?, Graph.displayName?, hi, hrecorded, hnode]
  · obtain ⟨i, howner, _⟩ := h.owners id hrequested
    obtain rfl := Option.some.inj (hv.symm.trans (h.variableAt?_dependent hrequested howner))
    rfl
  · obtain rfl := Option.some.inj (hv.symm.trans (h.variableAt?_temporary htemporary))
    rfl

/-- Different variables of the bundle have different names. -/
theorem nameOf_inj (hnaming : b.naming = Naming.arrays dependent independent temporary)
    (hapart : Naming.Apart dependent independent temporary b.graph.display?) {v w : Variable}
    (heq : b.nameOf v = b.nameOf w) : v = w := by
  rw [nameOf, nameOf, hnaming] at heq
  exact hapart.identifier_inj heq

/-- Two stored values have one name exactly if they have one slot. -/
theorem variableName?_eq_iff (h : b.graph.Partitioned b.outputs) (hgraph : b.graph.WellFormed)
    (hnaming : b.naming = Naming.arrays dependent independent temporary)
    (hapart : Naming.Apart dependent independent temporary b.graph.display?) {a c : NodeId}
    (ha : a ∈ b.graph.roster ∨ a ∈ b.graph.order) (hc : c ∈ b.graph.roster ∨ c ∈ b.graph.order) :
    b.variableName? a = b.variableName? c ↔ b.graph.slot a = b.graph.slot c := by
  obtain ⟨v, hv, hslot⟩ := h.exists_variable ha
  obtain ⟨w, hw, hslot'⟩ := h.exists_variable hc
  rw [variableName?_of_arrays h hgraph hnaming ha hv,
    variableName?_of_arrays h hgraph hnaming hc hw, Option.some_inj]
  constructor
  · intro heq
    obtain rfl := nameOf_inj hnaming hapart heq
    exact hslot.symm.trans hslot'
  · intro heq
    rw [heq, hw, Option.some_inj] at hv
    rw [hv]

end Arrays

end Bundle

end Straightline
