import Straightline.Render.C
import Straightline.Proofs.Generation.Names
import Straightline.Proofs.Render.Reading

/-!
# Execution of C statements

The lines of a bundle are assignments to names. They are executed in order on a memory of named
values, which starts with the inputs. The memory keeps an invariant: once the assignments of some
nodes are executed, the name of every node that is still held has its value. So a name that is read
was assigned before, every output is assigned once, and it ends with the value of its operand.
-/

namespace Straightline

namespace C

variable {α : Type}

/-- An assignment of an expression to a name. -/
structure Statement (α : Type) where
  /-- The name that is assigned. -/
  target : String
  /-- Where the expression stands. -/
  position : Position
  /-- The expression. -/
  value : Expression α

/-- The line of an assignment. -/
def Statement.text [Numeral α] (style : Style) (name : NodeId → String) (s : Statement α) :
    String :=
  style.line s.target (expressionText name s.position s.value)

/-- The assignments of the stored nodes. -/
def stores (b : Bundle α) (nodes : List (NodeId × Expression α)) : List (Statement α) :=
  nodes.map fun s => ⟨nameOf b s.1, .statement, s.2⟩

/-- The assignments of the outputs that are not computed in place. -/
def copies (b : Bundle α) (exprs : List (Expression α)) : List (Statement α) :=
  (b.outputs.zip exprs).zipIdx.filterMap fun ((output, x), index) =>
    if isInPlace b index output then none else some ⟨b.naming.dependent index, .operand, x⟩

/-- The assignments of a bundle. -/
def statements (b : Bundle α) : Except Error (List (Statement α)) := do
  return stores b (← b.assignments) ++ copies b (← b.results)

section Lines

variable {b : Bundle α} {nodes : List (NodeId × Expression α)} {exprs : List (Expression α)}

theorem statements_eq (hnodes : b.assignments = .ok nodes) (hexprs : b.results = .ok exprs) :
    statements b = .ok (stores b nodes ++ copies b exprs) := by
  rw [statements, hnodes, hexprs]
  rfl

/-- What is assigned to the outputs that are not computed in place. -/
theorem mem_copies {s : Statement α} : s ∈ copies b exprs ↔ ∃ index x e,
    b.outputs[index]? = some x ∧ exprs[index]? = some e ∧ isInPlace b index x = false ∧
      s = ⟨b.naming.dependent index, .operand, e⟩ := by
  rw [copies, List.mem_filterMap]
  constructor
  · rintro ⟨⟨⟨x, e⟩, index⟩, hmem, hs⟩
    obtain ⟨hx, he⟩ := List.getElem?_zip_eq_some.mp (List.mem_zipIdx_iff_getElem?.mp hmem)
    dsimp only at hs
    split at hs
    · cases hs
    · next hplace =>
      exact ⟨index, x, e, hx, he, by simpa using hplace, (Option.some.inj hs).symm⟩
  · rintro ⟨index, x, e, hx, he, hplace, rfl⟩
    refine ⟨((x, e), index), ?_, by simp [hplace]⟩
    exact List.mem_zipIdx_iff_getElem?.mpr (List.getElem?_zip_eq_some.mpr ⟨hx, he⟩)

/-- The declaration of an array for the temporaries. -/
theorem declaration_arrays (style : Style) {dependent independent temporary : String}
    (hnaming : b.naming = Naming.arrays dependent independent temporary) :
    declaration style b = if 0 < b.temporaryCount then
      style.indentation ++ style.baseType ++ " " ++
        Naming.element temporary b.temporaryCount ++ ";\n" else "" := by
  rw [declaration, hnaming]
  by_cases hcount : 0 < b.temporaryCount
  · simp only [Naming.arrays, Naming.element, if_pos hcount, String.append_assoc]
    rfl
  · simp only [Naming.arrays, if_neg hcount]

variable [Numeral α]

theorem storeLines_eq (style : Style) (hnodes : b.assignments = .ok nodes)
    (hnamed : ∀ s ∈ nodes, b.variableName? s.1 ≠ none) :
    storeLines style b = .ok ((stores b nodes).map (Statement.text style (nameOf b))) := by
  rw [storeLines, hnodes, stores, List.map_map]
  refine mapM_eq_ok_map fun s hs => ?_
  obtain ⟨name, hname⟩ := Option.ne_none_iff_exists'.mp (hnamed s hs)
  simp only [Function.comp_apply, Statement.text, nameOf, hname, Option.getD_some]

theorem resultLines_eq (style : Style) (hexprs : b.results = .ok exprs) :
    resultLines style b = .ok ((copies b exprs).map (Statement.text style (nameOf b))) := by
  rw [resultLines, hexprs, copies, List.map_filterMap]
  refine congrArg Except.ok (List.filterMap_congr ?_)
  rintro ⟨⟨output, x⟩, index⟩ _
  dsimp only
  split <;> rfl

/-- The text of a bundle is a declaration and one line for each assignment. -/
theorem render_eq (style : Style) (hnodes : b.assignments = .ok nodes)
    (hexprs : b.results = .ok exprs) (hnamed : ∀ s ∈ nodes, b.variableName? s.1 ≠ none) :
    render style b = .ok (declaration style b ++
      String.join ((stores b nodes ++ copies b exprs).map (Statement.text style (nameOf b)))) := by
  rw [render, storeLines_eq style hnodes hnamed, resultLines_eq style hexprs, List.map_append,
    String.join_append, ← String.append_assoc]
  rfl

/-- The assigned nodes of a bundle whose slots are partitioned have names. -/
theorem render_of_runnable (style : Style) (hrunnable : b.graph.Runnable b.outputs)
    (hpartitioned : b.graph.Partitioned b.outputs) (hnodes : b.assignments = .ok nodes)
    (hexprs : b.results = .ok exprs) :
    render style b = .ok (declaration style b ++
      String.join ((stores b nodes ++ copies b exprs).map (Statement.text style (nameOf b)))) := by
  obtain ⟨nodes', hassignments, hall⟩ := hrunnable.exists_assignments
  obtain rfl : nodes = nodes' := Except.ok.inj (hnodes.symm.trans hassignments)
  refine render_eq style hnodes hexprs fun s hs => ?_
  obtain ⟨id, hid, hexpands⟩ := exists_mem_of_forall₂ hall hs
  rw [hexpands.node]
  exact Bundle.variableName?_ne_none hpartitioned (.inr hid)

end Lines

/-- Named values. -/
abbrev Memory (α : Type) := String → Option α

/-- Execute an assignment; it fails where a name that is read has no value. -/
def Statement.exec [Scalar α] (name : NodeId → String) (s : Statement α) (m : Memory α) :
    Option (Memory α) :=
  (s.value.read fun id => m (name id)).map fun v => Function.update m s.target (some v)

/-- Execute assignments in order. -/
def exec [Scalar α] (name : NodeId → String) : List (Statement α) → Memory α → Option (Memory α)
  | [], m => some m
  | s :: rest, m => (s.exec name m).bind (exec name rest)

/-- Every assignment reads known names, and its own name is known after it. -/
def Defined (name : NodeId → String) : List String → List (Statement α) → Prop
  | _, [] => True
  | known, s :: rest =>
    s.value.Loads (fun id => name id ∈ known) ∧ Defined name (known ++ [s.target]) rest

/-- The names of the independent variables. -/
def inputNames (b : Bundle α) : List String := b.graph.roster.map (nameOf b)

/-- The memory that holds the inputs and nothing else. -/
def inputMemory (b : Bundle α) (inputs : List α) : Memory α := fun name =>
  ((inputNames b).idxOf? name).bind (inputs[·]?)

section Run

variable {name : NodeId → String} {list list' : List (Statement α)} {m : Memory α}
  {known : List String} {val : NodeId → α}

theorem defined_append (hfront : Defined name known list)
    (hback : Defined name (known ++ list.map Statement.target) list') :
    Defined name known (list ++ list') := by
  induction list generalizing known with
  | nil => simpa using hback
  | cons s list ih =>
    refine ⟨hfront.1, ih hfront.2 ?_⟩
    simpa using hback

/-- Assignments that read names known from the start. -/
theorem defined_of_forall (h : ∀ s ∈ list, s.value.Loads fun id => name id ∈ known) :
    Defined name known list := by
  induction list generalizing known with
  | nil => trivial
  | cons s list ih =>
    refine ⟨h s List.mem_cons_self, ih fun t ht => ?_⟩
    exact t.value.loads_mono (fun _ hid => List.mem_append_left _ hid)
      (h t (List.mem_cons_of_mem _ ht))

variable [Scalar α]

theorem exec_append (list list' : List (Statement α)) (m : Memory α) :
    exec name (list ++ list') m = (exec name list m).bind (exec name list') := by
  induction list generalizing m with
  | nil => rfl
  | cons s list ih =>
    simp only [List.cons_append, exec, Option.bind_assoc]
    exact congrArg _ (funext ih)

/-- An assignment whose stored values are there. -/
theorem Statement.exec_eq (laws : NeutralLaws α) {s : Statement α} (hled : s.value.Led)
    (hloads : s.value.Loads fun k => m (name k) = some (val k)) :
    s.exec name m = some (Function.update m s.target (some (s.value.eval val))) := by
  rw [Statement.exec, s.value.read_eq_eval laws hled hloads, Option.map_some]

/-- Assignments to different names, none of which is read by them. -/
theorem exec_apart (laws : NeutralLaws α) (hled : ∀ s ∈ list, s.value.Led)
    (hloads : ∀ s ∈ list, s.value.Loads fun k =>
      m (name k) = some (val k) ∧ name k ∉ list.map Statement.target)
    (hnodup : (list.map Statement.target).Nodup) :
    ∃ m', exec name list m = some m' ∧
      (∀ n, n ∉ list.map Statement.target → m' n = m n) ∧
      ∀ s ∈ list, m' s.target = some (s.value.eval val) := by
  induction list generalizing m with
  | nil => exact ⟨m, rfl, fun _ _ => rfl, by simp⟩
  | cons s list ih =>
    rw [List.map_cons, List.nodup_cons] at hnodup
    have hstep := s.exec_eq laws (hled s List.mem_cons_self)
      (s.value.loads_mono (fun _ hk => hk.1) (hloads s List.mem_cons_self))
    obtain ⟨m', hexec, hother, htargets⟩ := ih (fun t ht => hled t (List.mem_cons_of_mem _ ht))
      (m := Function.update m s.target (some (s.value.eval val)))
      (fun t ht => t.value.loads_mono
        (fun k hk => by
          rw [List.map_cons, List.mem_cons, not_or] at hk
          exact ⟨(Function.update_of_ne hk.2.1 _ _).trans hk.1, hk.2.2⟩)
        (hloads t (List.mem_cons_of_mem _ ht)))
      hnodup.2
    refine ⟨m', ?_, ?_, ?_⟩
    · rw [exec, hstep, Option.bind_some, hexec]
    · intro n hn
      rw [List.map_cons, List.mem_cons, not_or] at hn
      rw [hother n hn.2, Function.update_of_ne hn.1]
    · intro t ht
      rcases List.mem_cons.mp ht with rfl | ht
      · rw [hother t.target hnodup.1, Function.update_self]
      · exact htargets t ht

end Run

/-- The expressions of the outputs of a bundle. -/
def Results [Scalar α] (b : Bundle α) (exprs : List (Expression α)) : Prop :=
  List.Forall₂ (fun x e => b.graph.expand (b.graph.next + 1) x = .ok e ∧
    Expression.Denotes (b.graph.Leaf x) b.graph.Valuates x e) b.outputs exprs

/-- An output has an expression. -/
theorem Results.exists_getElem? [Scalar α] {b : Bundle α} {exprs : List (Expression α)}
    (hexprs : Results b exprs) {i : Nat} {x : Arg α}
    (hx : b.outputs[i]? = some x) : ∃ e, exprs[i]? = some e := by
  obtain ⟨hlt, _⟩ := List.getElem?_eq_some_iff.mp hx
  exact ⟨_, List.getElem?_eq_getElem (hexprs.length_eq ▸ hlt)⟩

/-- What an output and its expression at one position have to do with each other. -/
theorem Results.getElem? [Scalar α] {b : Bundle α} {exprs : List (Expression α)}
    (hexprs : Results b exprs) {i : Nat} {x : Arg α} {e : Expression α}
    (hx : b.outputs[i]? = some x) (he : exprs[i]? = some e) :
    b.graph.expand (b.graph.next + 1) x = .ok e ∧
      Expression.Denotes (b.graph.Leaf x) b.graph.Valuates x e :=
  (List.forall₂_iff_zip.mp hexprs).2
    (List.mem_of_getElem? (List.getElem?_zip_eq_some.mpr ⟨hx, he⟩))

/-- A bundle whose statements can be executed: it holds every value until it was read, and the names
of its variables are different. -/
structure Printable (b : Bundle α) (dependent independent temporary : String) : Prop where
  /-- Every value that is read is still in its slot. -/
  runnable : b.graph.Runnable b.outputs
  /-- No node is computed twice. -/
  nodup_order : b.graph.order.Nodup
  /-- The slots are partitioned. -/
  partitioned : b.graph.Partitioned b.outputs
  /-- The graph is well formed. -/
  wellFormed : b.graph.WellFormed
  /-- Chains begin with a direct term. -/
  led : b.graph.Led
  /-- The outputs are live. -/
  live : ∀ id, .node id ∈ b.outputs → b.graph.contains id = true
  /-- The variables are elements of arrays. -/
  naming : b.naming = Naming.arrays dependent independent temporary
  /-- Their names are different. -/
  apart : Naming.Apart dependent independent temporary b.graph.display?

namespace Printable

variable {b : Bundle α} {dependent independent temporary : String} {id : NodeId}

/-- A stored node has the name of its variable. -/
theorem nameOf_eq (h : Printable b dependent independent temporary)
    (hid : id ∈ b.graph.roster ∨ id ∈ b.graph.order) {v : Variable}
    (hv : b.graph.variableAt? (b.graph.slot id) = some v) : nameOf b id = b.nameOf v := by
  rw [nameOf, Bundle.variableName?_of_arrays h.partitioned h.wellFormed h.naming hid hv,
    Option.getD_some]

/-- Stored nodes have one name exactly if they have one slot. -/
theorem nameOf_eq_iff (h : Printable b dependent independent temporary) {a c : NodeId}
    (ha : a ∈ b.graph.roster ∨ a ∈ b.graph.order) (hc : c ∈ b.graph.roster ∨ c ∈ b.graph.order) :
    nameOf b a = nameOf b c ↔ b.graph.slot a = b.graph.slot c := by
  rw [← Bundle.variableName?_eq_iff h.partitioned h.wellFormed h.naming h.apart ha hc]
  obtain ⟨s, hs⟩ := Option.ne_none_iff_exists'.mp (Bundle.variableName?_ne_none h.partitioned ha)
  obtain ⟨t, ht⟩ := Option.ne_none_iff_exists'.mp (Bundle.variableName?_ne_none h.partitioned hc)
  rw [nameOf, nameOf, hs, ht, Option.getD_some, Option.getD_some, Option.some_inj]

/-- A stored node has the name of an output exactly if it is computed in place there. -/
theorem nameOf_eq_dependent_iff (h : Printable b dependent independent temporary)
    (hid : id ∈ b.graph.roster ∨ id ∈ b.graph.order) {i : Nat} :
    nameOf b id = b.naming.dependent i ↔ isInPlace b i (.node id) = true := by
  have hplace : isInPlace b i (.node id) = true ↔
      b.graph.pass.owners.get (b.graph.slot id) = some i := by
    rw [isInPlace, decide_eq_true_eq, Bundle.dependentIndex?,
      if_pos (h.partitioned.live id hid)]
  rw [hplace, ← h.partitioned.variableAt?_eq_output_iff hid]
  obtain ⟨v, hv, _⟩ := h.partitioned.exists_variable hid
  rw [h.nameOf_eq hid hv, hv, Option.some_inj]
  constructor
  · intro heq
    exact Bundle.nameOf_inj h.naming h.apart heq
  · rintro rfl
    rfl

/-- What is computed in place at a position is what the position asks for. -/
theorem output_of_isInPlace (h : Printable b dependent independent temporary)
    (hid : id ∈ b.graph.roster ∨ id ∈ b.graph.order) {i : Nat}
    (hplace : isInPlace b i (.node id) = true) :
    id ∈ b.graph.order ∧ b.outputs[i]? = some (.node id) := by
  rw [isInPlace, decide_eq_true_eq, Bundle.dependentIndex?,
    if_pos (h.partitioned.live id hid)] at hplace
  obtain ⟨hrequested, hfirst⟩ := h.partitioned.of_owner hid hplace
  exact ⟨h.partitioned.stored id hrequested, hfirst.1⟩

/-- What is held is stored. -/
theorem stored_of_held {done rest : List NodeId} (horder : b.graph.order = done ++ rest)
    (hk : b.graph.Held done id) : id ∈ b.graph.roster ∨ id ∈ b.graph.order := by
  refine hk.imp_right ?_
  rintro ⟨before, after, rfl, _⟩
  simp [horder]

/-- An output is held at the end. -/
theorem stored_of_output (h : Printable b dependent independent temporary)
    (hid : .node id ∈ b.outputs) : id ∈ b.graph.roster ∨ id ∈ b.graph.order :=
  stored_of_held (List.append_nil _).symm (h.runnable.results id hid)

/-- An output has a slot, so that its expression loads it and nothing else. -/
theorem eq_of_leaf (h : Printable b dependent independent temporary) {x : Arg α} {k : NodeId}
    (hx : x ∈ b.outputs) (hleaf : b.graph.Leaf x k) : x = .node k := by
  obtain ⟨m, rfl, ⟨_, rfl⟩ | ⟨hzero, _⟩⟩ := hleaf
  · rfl
  · exact absurd hzero (h.runnable.slot_ne_zero (h.runnable.results m hx))

/-- Different positions have different names. -/
theorem dependent_inj (h : Printable b dependent independent temporary) {i j : Nat}
    (heq : b.naming.dependent i = b.naming.dependent j) : i = j := by
  rw [h.naming] at heq
  exact (Naming.element_inj heq).2

section Copies

variable {exprs : List (Expression α)}

/-- An output is assigned apart from the stored nodes only where it is not computed in place. -/
theorem dependent_mem_copies (h : Printable b dependent independent temporary) {i : Nat}
    {x : Arg α} (hx : b.outputs[i]? = some x)
    (hmem : b.naming.dependent i ∈ (copies b exprs).map Statement.target) :
    isInPlace b i x = false := by
  obtain ⟨s, hs, htarget⟩ := List.mem_map.mp hmem
  obtain ⟨j, y, e, hy, _, hplace, rfl⟩ := mem_copies.mp hs
  obtain rfl := h.dependent_inj htarget
  rw [hx, Option.some_inj] at hy
  rw [hy]
  exact hplace

/-- No name of a stored node is assigned once more. -/
theorem nameOf_not_mem_copies (h : Printable b dependent independent temporary)
    (hid : id ∈ b.graph.roster ∨ id ∈ b.graph.order) :
    nameOf b id ∉ (copies b exprs).map Statement.target := by
  intro hmem
  obtain ⟨s, hs, htarget⟩ := List.mem_map.mp hmem
  obtain ⟨i, x, e, hx, _, hplace, rfl⟩ := mem_copies.mp hs
  have hself := (h.nameOf_eq_dependent_iff hid).mp htarget.symm
  obtain ⟨_, hout⟩ := h.output_of_isInPlace hid hself
  obtain rfl : x = .node id := Option.some.inj (hx.symm.trans hout)
  rw [hself] at hplace
  exact Bool.noConfusion hplace

/-- The outputs that are not computed in place are assigned once. -/
theorem nodup_copies (h : Printable b dependent independent temporary) :
    ((copies b exprs).map Statement.target).Nodup := by
  rw [List.Nodup, List.pairwise_map, copies, List.pairwise_filterMap]
  have hpositions : ((b.outputs.zip exprs).zipIdx.map Prod.snd).Nodup := by
    rw [List.zipIdx_map_snd]
    exact List.nodup_range'
  refine (List.pairwise_map.mp hpositions).imp ?_
  rintro ⟨⟨x, e⟩, i⟩ ⟨⟨y, e'⟩, j⟩ hne s hs t ht heq
  dsimp only at hs ht
  split at hs
  · cases hs
  · split at ht
    · cases ht
    · cases hs
      cases ht
      exact hne (h.dependent_inj heq)

end Copies

section Lines

variable [Scalar α] {nodes : List (NodeId × Expression α)} {exprs : List (Expression α)}

/-- Each stored node is assigned to its name, in evaluation order. -/
theorem map_target_stores (hnodes : List.Forall₂ b.graph.Expands b.graph.order nodes) :
    (stores b nodes).map Statement.target = b.graph.order.map (nameOf b) := by
  rw [stores, List.map_map, ← List.forall₂_eq_eq_eq, List.forall₂_map_left_iff,
    List.forall₂_map_right_iff]
  exact hnodes.flip.imp fun s id hs => congrArg (nameOf b) hs.node

/-- Every output is assigned exactly once. -/
theorem count_target (h : Printable b dependent independent temporary)
    (hnodes : List.Forall₂ b.graph.Expands b.graph.order nodes)
    (hexprs : Results b exprs) {i : Nat} {x : Arg α} (hx : b.outputs[i]? = some x) :
    ((stores b nodes ++ copies b exprs).map Statement.target).count (b.naming.dependent i) = 1 := by
  rw [List.map_append, List.count_append, map_target_stores hnodes]
  have hplaced : ∀ k ∈ b.graph.order, nameOf b k = b.naming.dependent i →
      x = .node k ∧ isInPlace b i x = true := by
    intro k hk heq
    have hplace := (h.nameOf_eq_dependent_iff (.inr hk)).mp heq
    obtain ⟨_, hout⟩ := h.output_of_isInPlace (.inr hk) hplace
    obtain rfl : x = .node k := Option.some.inj (hx.symm.trans hout)
    exact ⟨rfl, hplace⟩
  by_cases hplace : isInPlace b i x = true
  · have hcopies : ((copies b exprs).map Statement.target).count (b.naming.dependent i) = 0 := by
      rw [List.count_eq_zero]
      intro hmem
      rw [h.dependent_mem_copies hx hmem] at hplace
      exact Bool.noConfusion hplace
    obtain ⟨id, rfl⟩ : ∃ id, x = .node id := by
      cases x with
      | const v => exact Bool.noConfusion hplace
      | node id => exact ⟨id, rfl⟩
    have hid := h.stored_of_output (List.mem_of_getElem? hx)
    obtain ⟨horder, _⟩ := h.output_of_isInPlace hid hplace
    -- Of all stored nodes, the requested one alone has the name of the position.
    have hstores : (b.graph.order.map (nameOf b)).count (b.naming.dependent i) =
        b.graph.order.count id := by
      rw [List.count_eq_countP, List.countP_map, List.count_eq_countP]
      refine List.countP_congr fun k hk => ?_
      rw [Function.comp_apply, beq_iff_eq, beq_iff_eq]
      constructor
      · intro heq
        exact (Arg.node.inj (hplaced k hk heq).1).symm
      · rintro rfl
        exact (h.nameOf_eq_dependent_iff hid).mpr hplace
    rw [hcopies, hstores, List.count_eq_one_of_mem h.nodup_order horder]
  · have hstores : (b.graph.order.map (nameOf b)).count (b.naming.dependent i) = 0 := by
      rw [List.count_eq_zero]
      intro hmem
      obtain ⟨k, hk, heq⟩ := List.mem_map.mp hmem
      exact hplace (hplaced k hk heq).2
    obtain ⟨e, he⟩ := hexprs.exists_getElem? hx
    have hmem : b.naming.dependent i ∈ (copies b exprs).map Statement.target :=
      List.mem_map_of_mem (mem_copies.mpr ⟨i, x, e, hx, he, by simpa using hplace, rfl⟩)
    rw [hstores, List.count_eq_one_of_mem h.nodup_copies hmem]

/-- Only outputs and temporaries within the declared array are assigned. -/
theorem target_cases (h : Printable b dependent independent temporary)
    (hnodes : List.Forall₂ b.graph.Expands b.graph.order nodes) {s : Statement α}
    (hs : s ∈ stores b nodes ++ copies b exprs) :
    (∃ i < b.outputs.length, s.target = b.naming.dependent i) ∨
      ∃ j < b.temporaryCount, s.target = b.naming.temporary j none := by
  rcases List.mem_append.mp hs with hstore | hcopy
  · obtain ⟨id, hid, hname⟩ : ∃ id ∈ b.graph.order, nameOf b id = s.target := by
      rw [← List.mem_map, ← map_target_stores hnodes]
      exact List.mem_map_of_mem hstore
    by_cases hrequested : id ∈ b.graph.dependents b.outputs
    · obtain ⟨i, howner, hfirst⟩ := h.partitioned.owners id hrequested
      obtain ⟨hlt, _⟩ := List.getElem?_eq_some_iff.mp hfirst.1
      refine .inl ⟨i, hlt, ?_⟩
      rw [← hname]
      exact h.nameOf_eq (.inr hid) (h.partitioned.variableAt?_dependent hrequested howner)
    · have htemporary : id ∈ b.graph.temporaries b.outputs :=
        Graph.mem_temporaries.mpr ⟨hid, hrequested⟩
      obtain ⟨hge, hle⟩ := h.partitioned.slot_temporary htemporary
      refine .inr ⟨b.graph.slot id - b.graph.pass.firstTemporary, ?_, ?_⟩
      · rw [Bundle.temporaryCount]
        omega
      · rw [← hname]
        exact h.nameOf_eq (.inr hid) (h.partitioned.variableAt?_temporary htemporary)
  · obtain ⟨i, x, e, hx, _, _, rfl⟩ := mem_copies.mp hcopy
    obtain ⟨hlt, _⟩ := List.getElem?_eq_some_iff.mp hx
    exact .inl ⟨i, hlt, rfl⟩

/-- The assignments of stored nodes read inputs and nodes that were assigned before. -/
theorem defined_stores (h : Printable b dependent independent temporary)
    {done rest : List NodeId} (horder : b.graph.order = done ++ rest)
    (hnodes : List.Forall₂ b.graph.Expands rest nodes) :
    Defined (nameOf b) (inputNames b ++ done.map (nameOf b)) (stores b nodes) := by
  induction hnodes generalizing done with
  | nil => trivial
  | @cons id s rest nodes hs _ ih =>
    obtain rfl := hs.node
    constructor
    · refine s.2.loads_mono (fun k hk => ?_) hs.loads
      rcases h.runnable.safe done s.1 rest horder k hk with hroster | ⟨before, after, rfl, _⟩
      · exact List.mem_append_left _ (List.mem_map_of_mem hroster)
      · exact List.mem_append_right _ (List.mem_map_of_mem (by simp))
    · have horder' : b.graph.order = (done ++ [s.1]) ++ rest := by simpa using horder
      have hrest := ih horder'
      rw [List.map_append, ← List.append_assoc] at hrest
      exact hrest

/-- The assignments of a bundle read inputs and names that were assigned before. -/
theorem defined_statements (h : Printable b dependent independent temporary)
    (hnodes : List.Forall₂ b.graph.Expands b.graph.order nodes) (hexprs : Results b exprs) :
    Defined (nameOf b) (inputNames b) (stores b nodes ++ copies b exprs) := by
  have hstores := h.defined_stores (List.nil_append _).symm hnodes
  rw [List.map_nil, List.append_nil] at hstores
  refine defined_append hstores (defined_of_forall fun s hs => ?_)
  obtain ⟨i, x, e, hx, he, _, rfl⟩ := mem_copies.mp hs
  refine e.loads_mono (fun k hk => ?_) (hexprs.getElem? hx he).2.loads
  obtain rfl := h.eq_of_leaf (List.mem_of_getElem? hx) hk
  rw [map_target_stores hnodes]
  rcases h.stored_of_output (List.mem_of_getElem? hx) with hroster | horder
  · exact List.mem_append_left _ (List.mem_map_of_mem hroster)
  · exact List.mem_append_right _ (List.mem_map_of_mem horder)

end Lines

section Values

variable {val : NodeId → α} {inputs : List α} {m : Memory α}

/-- The memory holds the values of the nodes that are held after the given ones are computed. -/
def Keeps (b : Bundle α) (val : NodeId → α) (done : List NodeId) (m : Memory α) : Prop :=
  ∀ k, b.graph.Held done k → m (nameOf b k) = some (val k)

/-- Assigning a computed node. -/
theorem Keeps.concat (h : Printable b dependent independent temporary) {done rest : List NodeId}
    (horder : b.graph.order = done ++ id :: rest) (hm : Keeps b val done m) :
    Keeps b val (done ++ [id]) (Function.update m (nameOf b id) (some (val id))) := by
  have hid : id ∈ b.graph.order := by simp [horder]
  intro k hk
  rcases h.runnable.held_concat hid hk with rfl | ⟨hold, hslot⟩
  · rw [Function.update_self]
  · have hne : nameOf b k ≠ nameOf b id := by
      intro heq
      exact hslot ((h.nameOf_eq_iff (stored_of_held horder hold) (.inr hid)).mp heq)
    rw [Function.update_of_ne hne]
    exact hm k hold

variable [Scalar α]

/-- The inputs are the values of the independent variables. -/
theorem keeps_inputMemory (h : Printable b dependent independent temporary)
    (hval : b.graph.IsValuation inputs val) : Keeps b val [] (inputMemory b inputs) := by
  intro k hk
  obtain ⟨i, hi⟩ := List.mem_iff_getElem?.mp hk.mem_roster
  have hvalue := hval k .independent (h.runnable.roster_independent k hk.mem_roster)
  simp only [Graph.required?, h.runnable.rosterIndex?_eq hi, Option.bind_some] at hvalue
  have hindex : (inputNames b).idxOf? (nameOf b k) = some i := by
    obtain ⟨hlt, hget⟩ := List.getElem?_eq_some_iff.mp hi
    have hlength : (inputNames b).length = b.graph.roster.length := List.length_map _
    rw [List.idxOf?_eq_some_iff]
    refine ⟨hlength ▸ hlt, by simp [inputNames, hget], fun j hj heq => ?_⟩
    -- Another position has another slot.
    have hjlt : j < b.graph.roster.length := Nat.lt_trans hj hlt
    simp only [inputNames, List.getElem_map] at heq
    rw [h.nameOf_eq_iff (.inl (List.getElem_mem hjlt)) (.inl hk.mem_roster),
      h.partitioned.independents j _ (List.getElem?_eq_getElem hjlt),
      h.partitioned.independents i k hi] at heq
    omega
  rw [inputMemory, hindex, Option.bind_some, hvalue]

/-- The assignments of the stored nodes leave every held value under its name. -/
theorem exec_stores (h : Printable b dependent independent temporary) (laws : NeutralLaws α)
    {done rest : List NodeId} (horder : b.graph.order = done ++ rest)
    {nodes : List (NodeId × Expression α)} (hnodes : List.Forall₂ b.graph.Expands rest nodes)
    (hval : b.graph.Valuates val) (hm : Keeps b val done m) :
    ∃ m', exec (nameOf b) (stores b nodes) m = some m' ∧ Keeps b val b.graph.order m' := by
  induction hnodes generalizing done m with
  | nil =>
    rw [List.append_nil] at horder
    exact ⟨m, rfl, horder ▸ hm⟩
  | @cons id s rest nodes hs _ ih =>
    obtain rfl := hs.node
    have hstep : Statement.exec (nameOf b) ⟨nameOf b s.1, .statement, s.2⟩ m =
        some (Function.update m (nameOf b s.1) (some (s.2.eval val))) :=
      Statement.exec_eq laws (h.led.expandNode hs.expanded) (s.2.loads_mono
        (fun k hk => hm k (h.runnable.safe done s.1 rest horder k hk)) hs.loads)
    rw [hs.eval val hval] at hstep
    obtain ⟨m', hexec, hkeeps⟩ := ih (by simpa using horder) (hm.concat h horder)
    refine ⟨m', ?_, hkeeps⟩
    rw [stores, List.map_cons, exec, hstep, Option.bind_some]
    exact hexec

/-- The remaining assignments leave the value of every output under its name. -/
theorem exec_copies (h : Printable b dependent independent temporary) (laws : NeutralLaws α)
    {exprs : List (Expression α)} (hexprs : Results b exprs) (hval : b.graph.Valuates val)
    (hm : Keeps b val b.graph.order m) :
    ∃ m', exec (nameOf b) (copies b exprs) m = some m' ∧
      ∀ i x, b.outputs[i]? = some x → m' (b.naming.dependent i) = some (x.eval val) := by
  have hled : ∀ s ∈ copies b exprs, s.value.Led := by
    intro s hs
    obtain ⟨i, x, e, hx, he, _, rfl⟩ := mem_copies.mp hs
    exact h.led.expand (hexprs.getElem? hx he).1
  have hloads : ∀ s ∈ copies b exprs, s.value.Loads fun k =>
      m (nameOf b k) = some (val k) ∧ nameOf b k ∉ (copies b exprs).map Statement.target := by
    intro s hs
    obtain ⟨i, x, e, hx, he, _, rfl⟩ := mem_copies.mp hs
    refine e.loads_mono (fun k hk => ?_) (hexprs.getElem? hx he).2.loads
    have hmem := List.mem_of_getElem? hx
    obtain rfl := h.eq_of_leaf hmem hk
    exact ⟨hm k (h.runnable.results k hmem), h.nameOf_not_mem_copies (h.stored_of_output hmem)⟩
  obtain ⟨m', hexec, hother, htargets⟩ := exec_apart laws hled hloads h.nodup_copies
  refine ⟨m', hexec, fun i x hx => ?_⟩
  by_cases hplace : isInPlace b i x = true
  · -- The output was computed in place and is not assigned again.
    cases x with
    | const v => exact Bool.noConfusion hplace
    | node id =>
      have hmem := List.mem_of_getElem? hx
      have hid := h.stored_of_output hmem
      rw [← (h.nameOf_eq_dependent_iff hid).mpr hplace, hother _ (h.nameOf_not_mem_copies hid)]
      exact hm id (h.runnable.results id hmem)
  · obtain ⟨e, he⟩ := hexprs.exists_getElem? hx
    have hcopy := htargets _ (mem_copies.mpr ⟨i, x, e, hx, he, by simpa using hplace, rfl⟩)
    rw [(hexprs.getElem? hx he).2.eval val hval] at hcopy
    exact hcopy

end Values

end Printable

/-- The assignments of a bundle do what its program does. -/
structure Faithful [Scalar α] (b : Bundle α) (p : Program α) (list : List (Statement α)) :
    Prop where
  /-- Every output is assigned exactly once. -/
  once : ∀ i < b.outputs.length,
    (list.map Statement.target).count (b.naming.dependent i) = 1
  /-- Only inputs are read, and names that were assigned before. -/
  defined : Defined (nameOf b) (inputNames b) list
  /-- Only outputs are assigned, and temporaries within the declared array. -/
  targets : ∀ s ∈ list, (∃ i < b.outputs.length, s.target = b.naming.dependent i) ∨
    ∃ j < b.temporaryCount, s.target = b.naming.temporary j none
  /-- On all inputs every output ends with the result of the program. -/
  outputs : ∀ inputs : List α, inputs.length = b.graph.roster.length →
    ∃ values m, p.evaluate inputs = .ok values ∧ values.length = b.outputs.length ∧
      exec (nameOf b) list (inputMemory b inputs) = some m ∧
      ∀ i < b.outputs.length, m (b.naming.dependent i) = values[i]?

/-- A bundle with different names has assignments that do what its program does. -/
theorem Printable.exists_faithful [Scalar α] {b : Bundle α}
    {dependent independent temporary : String}
    (h : Printable b dependent independent temporary) (laws : NeutralLaws α) {p : Program α}
    (hp : ∀ inputs val, b.graph.IsValuation inputs val →
      inputs.length = b.graph.roster.length →
        p.evaluate inputs = .ok (b.outputs.map (Arg.eval val))) :
    ∃ nodes exprs, b.assignments = .ok nodes ∧ b.results = .ok exprs ∧
      Faithful b p (stores b nodes ++ copies b exprs) := by
  obtain ⟨nodes, hassignments, hnodes⟩ := h.runnable.exists_assignments
  obtain ⟨exprs, hresults, hexprs⟩ := h.runnable.exists_results h.live
  refine ⟨nodes, exprs, hassignments, hresults, ?_, h.defined_statements hnodes hexprs,
    fun s => h.target_cases hnodes, ?_⟩
  · intro i hi
    exact h.count_target hnodes hexprs (List.getElem?_eq_getElem hi)
  · intro inputs hinputs
    obtain ⟨rank, hrank, hbound⟩ := h.runnable.ranked
    obtain ⟨val, hval⟩ := Graph.exists_isValuation hrank hbound h.runnable.closed
      h.runnable.listed hinputs
    obtain ⟨m, hstores, hkeeps⟩ := h.exec_stores laws (List.nil_append _).symm hnodes
      ⟨inputs, hval⟩ (h.keeps_inputMemory hval)
    obtain ⟨m', hcopies, hout⟩ := h.exec_copies laws hexprs ⟨inputs, hval⟩ hkeeps
    refine ⟨_, m', hp inputs val hval hinputs, List.length_map _, ?_, ?_⟩
    · rw [exec_append, hstores, Option.bind_some, hcopies]
    · intro i hi
      rw [hout i _ (List.getElem?_eq_getElem hi), List.getElem?_map,
        List.getElem?_eq_getElem hi, Option.map_some]

end C

end Straightline
