import Straightline.Proofs.Machine.Expansion

/-!
# Evaluation of prepared graphs

The program of a graph that can be executed computes, for every choice of inputs, the values of
the outputs under the valuation of the graph. The cells keep an invariant: after some nodes of the
order are computed, the slot of every node that is still held contains its value.
-/

namespace Straightline

variable {α : Type}

namespace Graph

variable {g : Graph α} {outputs : List (Arg α)} {val : NodeId → α} {inputs : List α}

/-- The cells hold the values of the nodes that are held after the given ones are computed. -/
structure Stores (g : Graph α) (val : NodeId → α) (done : List NodeId) (b : Buffers α) : Prop where
  /-- There is a cell for every issued slot. -/
  size : g.pass.lastId < b.cells.size
  /-- A held value is in its cell. -/
  held : ∀ k, g.Held done k → b.cells[g.slot k]? = some (some (val k))

/-- Nothing is held at the start but the independent variables. -/
theorem Held.mem_roster {k : NodeId} (h : g.Held [] k) : k ∈ g.roster := by
  rcases h with hroster | ⟨before, after, hsplit, _⟩
  · exact hroster
  · simp at hsplit

/-- A held node has a slot. -/
theorem Prepared.slot_ne_zero (h : g.Prepared) {k : NodeId} (hk : g.Held g.order k) :
    g.slot k ≠ 0 := by
  rcases hk with hroster | ⟨before, after, hsplit, _⟩
  · have hpos := (h.slot_roster hroster).1
    omega
  · have hgt := h.slot_gt k (by simp [hsplit])
    omega

/-- What is held after one more node is that node or was held before. -/
theorem Prepared.held_concat (h : g.Prepared) {done : List NodeId} {id k : NodeId}
    (hid : id ∈ g.order) (hk : g.Held (done ++ [id]) k) :
    k = id ∨ g.Held done k ∧ g.slot k ≠ g.slot id := by
  rcases hk with hroster | ⟨before, after, hsplit, hafter⟩
  · have hle := (h.slot_roster hroster).2
    have hgt := h.slot_gt id hid
    exact .inr ⟨.inl hroster, by omega⟩
  · rcases List.eq_nil_or_concat after with rfl | ⟨front, last, rfl⟩
    · have hlast := List.append_inj_right' hsplit rfl
      exact .inl (by simpa using hlast.symm)
    · have hsplit' : done ++ [id] = (before ++ k :: front) ++ [last] := by
        simpa using hsplit
      obtain ⟨hdone, hlast⟩ := List.append_inj' hsplit' rfl
      obtain rfl : id = last := by simpa using hlast
      refine .inr ⟨.inr ⟨before, front, hdone, fun j hj => hafter j (by simp [hj])⟩, ?_⟩
      exact (hafter id (by simp)).symm

/-- The roster position of an independent variable is one below its slot. -/
theorem Prepared.rosterIndex?_eq (h : g.Prepared) {i : Nat} {id : NodeId}
    (hi : g.roster[i]? = some id) : g.rosterIndex? id = some i := by
  obtain ⟨hlt, hget⟩ := List.getElem?_eq_some_iff.mp hi
  rw [rosterIndex?, List.idxOf?_eq_some_iff]
  refine ⟨hlt, hget, fun j hj heq => ?_⟩
  have hslot := h.roster_slot i id hi
  have hslot' := h.roster_slot j id (List.getElem?_eq_some_iff.mpr ⟨by omega, heq⟩)
  omega

/-- Storing the value of a computed node. -/
theorem Stores.concat {b : Buffers α} {done : List NodeId} {id : NodeId} (h : g.Prepared)
    (hb : g.Stores val done b) (hid : id ∈ g.order) :
    g.Stores val (done ++ [id])
      { b with cells := b.cells.setIfInBounds (g.slot id) (some (val id)) } where
  size := by
    rw [Array.size_setIfInBounds]
    exact hb.size
  held k hk := by
    have hlt : g.slot id < b.cells.size := Nat.lt_of_le_of_lt (h.slot_le id hid) hb.size
    rcases h.held_concat hid hk with rfl | ⟨hold, hne⟩
    · simp [hlt]
    · simp [hne.symm, hb.held k hold]

variable [Scalar α]

/-- A stored node as the assembler takes it: an expression that loads what the node reads and has
its value. -/
def Assigns (g : Graph α) (val : NodeId → α) (id : NodeId) (s : NodeId × Expression α) : Prop :=
  s.1 = id ∧ s.2.Loads (Reads g.references g.slot id) ∧ s.2.eval val = val id

/-- The code of one stored node puts its value into its slot. -/
theorem Runnable.runs_assignment (h : g.Runnable outputs) {done rest : List NodeId} {id : NodeId}
    (horder : g.order = done ++ id :: rest) {s : NodeId × Expression α} (hs : g.Assigns val id s)
    {b : Buffers α} (hb : g.Stores val done b) (a : Assembler α) :
    Assembler.Runs a (Assembler.assignment g.slot a s) b
      { b with cells := b.cells.setIfInBounds (g.slot id) (some (val id)) } := by
  obtain ⟨rfl, hloads, heval⟩ := hs
  have hid : s.1 ∈ g.order := by simp [horder]
  have hlt : g.slot s.1 < b.cells.size := Nat.lt_of_le_of_lt (h.slot_le s.1 hid) hb.size
  have hloaded : s.2.Loads (Assembler.Loaded g.slot val b) :=
    s.2.loads_mono (fun k hk => hb.held k (h.safe done s.1 rest horder k hk)) hloads
  refine (Assembler.runs_expression g.slot val s.2 a b hloaded).trans
    (Assembler.runs_emit fun p => ?_)
  simp only [Program.step, hlt, if_true, heval]

/-- The code of the stored nodes leaves every held value in its cell. -/
theorem Runnable.runs_assignments (h : g.Runnable outputs) {done rest : List NodeId}
    (horder : g.order = done ++ rest) {list : List (NodeId × Expression α)}
    (hlist : List.Forall₂ (g.Assigns val) rest list) {b : Buffers α} (hb : g.Stores val done b)
    (a : Assembler α) :
    ∃ cells, Assembler.Runs a (list.foldl (Assembler.assignment g.slot) a) b
        { b with cells := cells } ∧
      g.Stores val g.order { b with cells := cells } := by
  induction hlist generalizing done b a with
  | nil =>
    rw [List.append_nil] at horder
    exact ⟨b.cells, Assembler.Runs.refl a b, horder ▸ hb⟩
  | @cons id s rest list hs _ ih =>
    have hid : id ∈ g.order := by simp [horder]
    obtain ⟨cells, hruns, hstores⟩ := ih (by simpa using horder) (hb.concat h.toPrepared hid)
      (Assembler.assignment g.slot a s)
    exact ⟨cells, (h.runs_assignment horder hs hb a).trans hruns, hstores⟩

end Graph

/-- Outputs that are all written can be read. -/
theorem Program.readOutputs_map_some (values : List α) (index : Nat) :
    readOutputs (values.map some) index = .ok values := by
  induction values generalizing index with
  | nil => rfl
  | cons v values ih =>
    simp only [List.map_cons, readOutputs, ih, bind, Except.bind, pure, Except.pure]

variable [Scalar α]

/-- Whatever an earlier run left in the buffers, a run on the inputs writes the values to the
outputs and leaves the stack empty. -/
def Program.Yields (p : Program α) (inputs values : List α) : Prop :=
  ∀ b : Buffers α, b.outputs.size = p.outputCount →
    ∃ cells, p.run b inputs =
      .ok { cells := cells, stack := [], outputs := (values.map some).toArray }

/-- The values that a program yields are those that it is evaluated to. -/
theorem Program.Yields.evaluate {p : Program α} {inputs values : List α}
    (h : p.Yields inputs values) (hinputs : inputs.length = p.inputCount) :
    p.evaluate inputs = .ok values := by
  obtain ⟨cells, hrun⟩ := h p.fresh (by simp [fresh])
  have hcount : ¬ inputs.length ≠ p.inputCount := fun hne => hne hinputs
  rw [Program.evaluate, if_neg hcount, hrun]
  simp only [bind, Except.bind, outputsOf, readOutputs_map_some]
  rfl

namespace Assembler

variable {slot : NodeId → Nat} {val : NodeId → α}

/-- The code of the outputs writes their values, each at its position. -/
theorem runs_results {list : List (Expression α)} {b : Buffers α}
    (hlist : ∀ e ∈ list, e.Loads (Loaded slot val b)) {index : Nat}
    (hsize : index + list.length ≤ b.outputs.size) (a : Assembler α) :
    ∃ outputs, Runs a ((list.zipIdx index).foldl (result slot) a) b { b with outputs := outputs } ∧
      outputs.toList = b.outputs.toList.take index ++ list.map (fun e => some (e.eval val)) ++
        b.outputs.toList.drop (index + list.length) := by
  induction list generalizing index b a with
  | nil => exact ⟨b.outputs, Runs.refl a b, by simp⟩
  | cons e list ih =>
    rw [List.length_cons] at hsize
    have hlt : index < b.outputs.size := by omega
    let b' : Buffers α :=
      { b with outputs := b.outputs.setIfInBounds index (some (e.eval val)) }
    have hfirst : Runs a (result slot a (e, index)) b b' := by
      refine (runs_expression slot val e a b (hlist e List.mem_cons_self)).trans
        (runs_emit fun p => ?_)
      simp only [Program.step, hlt, if_true, b']
    have hsize' : index + 1 + list.length ≤ b'.outputs.size := by
      simp only [b', Array.size_setIfInBounds]
      omega
    have hlist' : ∀ e ∈ list, e.Loads (Loaded slot val b') :=
      fun e he => hlist e (List.mem_cons_of_mem _ he)
    obtain ⟨outputs, hruns, hout⟩ := ih hlist' hsize' (result slot a (e, index))
    refine ⟨outputs, hfirst.trans hruns, ?_⟩
    have hset : b'.outputs.toList = b.outputs.toList.set index (some (e.eval val)) := by
      simp [b']
    have hlen : index < b.outputs.toList.length := hlt
    rw [hout, hset, List.drop_set_of_lt (by omega), List.take_add_one,
      List.take_set_of_le (Nat.le_refl _), List.getElem?_set_self hlen, List.length_cons,
      Nat.add_assoc, Nat.add_comm 1 list.length]
    simp

end Assembler

namespace Graph

variable {g : Graph α} {outputs : List (Arg α)} {val : NodeId → α} {inputs : List α}

/-- Loading the inputs puts the independent variables into their cells. -/
theorem Prepared.stores_load (h : g.Prepared) (hval : g.IsValuation inputs val)
    (hinputs : inputs.length = g.roster.length) {p : Program α}
    (hcount : p.slotCount = g.pass.lastId + 1) (b : Buffers α) :
    g.Stores val [] (p.load b inputs) where
  size := by
    simp only [Program.load, Array.size_append, Array.size_replicate, List.size_toArray,
      List.length_map, List.length_cons, List.length_nil]
    omega
  held k hk := by
    obtain ⟨i, hi⟩ := List.mem_iff_getElem?.mp hk.mem_roster
    have hvalue := hval k .independent (h.roster_independent k hk.mem_roster)
    simp only [required?, h.rosterIndex?_eq hi, Option.bind_some] at hvalue
    obtain ⟨hlt, hget⟩ := List.getElem?_eq_some_iff.mp hvalue
    rw [h.roster_slot i k hi]
    simp [Program.load, Array.getElem?_append, hlt, hget]

/-- The program of given assignments and results. -/
def link (g : Graph α) (nodes : List (NodeId × Expression α)) (exprs : List (Expression α)) :
    Program α :=
  let a := nodes.foldl (Assembler.assignment g.slot) {}
  let a := exprs.zipIdx.foldl (Assembler.result g.slot) a
  { instructions := a.instructions
    tags := a.tags
    inputCount := g.roster.length
    slotCount := g.pass.lastId + 1
    outputCount := exprs.length
    stackSize := a.maxDepth }

/-- Whatever the buffers hold, a run of the linked program writes the values of the outputs. -/
theorem Runnable.yields_link (h : g.Runnable outputs) {nodes : List (NodeId × Expression α)}
    {exprs : List (Expression α)} (hval : g.IsValuation inputs val)
    (hinputs : inputs.length = g.roster.length)
    (hnodes : List.Forall₂ (g.Assigns val) g.order nodes)
    (hexprs : List.Forall₂ (fun x e => e.Loads (g.Leaf x) ∧ e.eval val = x.eval val)
      outputs exprs) :
    (g.link nodes exprs).Yields inputs (outputs.map (Arg.eval val)) := by
  intro b hroom
  let p := g.link nodes exprs
  let start := p.load b inputs
  have hstart : g.Stores val [] start := h.stores_load hval hinputs rfl b
  obtain ⟨cells, hruns, hstores⟩ := h.runs_assignments (List.nil_append _).symm hnodes hstart {}
  have hloads : ∀ e ∈ exprs,
      e.Loads (Assembler.Loaded g.slot val { start with cells := cells }) := by
    intro e he
    obtain ⟨x, hx, hload, _⟩ := exists_mem_of_forall₂ hexprs he
    refine e.loads_mono ?_ hload
    rintro k ⟨id, rfl, hleaf⟩
    have hheld := h.results id hx
    rcases hleaf with ⟨_, rfl⟩ | ⟨hzero, _⟩
    · exact hstores.held k hheld
    · exact absurd hzero (h.slot_ne_zero hheld)
  have hsize : start.outputs.size = exprs.length := hroom
  have hfits : 0 + exprs.length ≤ start.outputs.size := by omega
  obtain ⟨results, hwrites, hresults⟩ := Assembler.runs_results hloads hfits
    (nodes.foldl (Assembler.assignment g.slot) {})
  have hvalues : results = ((outputs.map (Arg.eval val)).map some).toArray := by
    have hmap : outputs.map (Arg.eval val) = exprs.map fun e => e.eval val := by
      rw [← List.forall₂_eq_eq_eq, List.forall₂_map_left_iff, List.forall₂_map_right_iff]
      exact hexprs.imp fun _ _ hx => hx.2.symm
    have hdrop : start.outputs.toList.drop (0 + exprs.length) = [] := by
      rw [List.drop_eq_nil_iff, Array.length_toList]
      omega
    rw [← Array.toList_inj, hresults, hdrop, hmap]
    simp
  obtain ⟨code, tags, hcode, _, hexec⟩ := hruns.trans hwrites
  refine ⟨cells, ?_⟩
  have hinstructions : p.instructions.toList = code := by
    rw [← List.nil_append code]
    exact hcode
  change p.run b inputs = _
  rw [Program.run, hinstructions, ← hvalues]
  exact hexec p List.prefix_rfl

/-- The expression of a stored node: it loads what the node reads and has its value. -/
structure Expands (g : Graph α) (id : NodeId) (s : NodeId × Expression α) : Prop where
  /-- The expression belongs to the node. -/
  node : s.1 = id
  /-- It is the expansion of the node. -/
  expanded : g.expandNode id = .ok s.2
  /-- What it loads. -/
  loads : s.2.Loads (Reads g.references g.slot id)
  /-- Its value. -/
  eval : ∀ val, g.Valuates val → s.2.eval val = val id

/-- The stored nodes of a bundle are expanded. -/
theorem Prepared.exists_assignments {b : Bundle α} (h : b.graph.Prepared) :
    ∃ nodes, b.assignments = .ok nodes ∧
      List.Forall₂ b.graph.Expands b.graph.order nodes := by
  have hnodes : ∀ id ∈ b.graph.order, ∃ s : NodeId × Expression α,
      (do return (id, ← b.graph.expandNode id) : Except Error _) = .ok s ∧
        b.graph.Expands id s := by
    intro id hid
    obtain ⟨e, he, hloads, heval⟩ := h.exists_expandNode hid
    exact ⟨(id, e), by simp [he, bind, Except.bind, pure, Except.pure], rfl, he, hloads, heval⟩
  exact exists_mapM_ok hnodes

/-- The outputs of a bundle are expanded. -/
theorem Prepared.exists_results {b : Bundle α} (h : b.graph.Prepared)
    (hlive : ∀ id, .node id ∈ b.outputs → b.graph.contains id = true) :
    ∃ exprs, b.results = .ok exprs ∧
      List.Forall₂ (fun x e => b.graph.expand (b.graph.next + 1) x = .ok e ∧
        Expression.Denotes (b.graph.Leaf x) b.graph.Valuates x e) b.outputs exprs := by
  obtain ⟨rank, hrank, hbound⟩ := h.ranked
  have hexprs : ∀ x ∈ b.outputs, ∃ e, b.graph.expand (b.graph.next + 1) x = .ok e ∧
      (b.graph.expand (b.graph.next + 1) x = .ok e ∧
        Expression.Denotes (b.graph.Leaf x) b.graph.Valuates x e) := by
    intro x hx
    obtain ⟨e, he, hdenotes⟩ := h.exists_expand hrank fun id hid =>
      ⟨hlive id (hid ▸ hx), Nat.lt_succ_of_le (hbound id)⟩
    exact ⟨e, he, he, hdenotes⟩
  exact exists_mapM_ok hexprs

/-- A graph that can be executed is linked from the expressions of its stored nodes and of its
outputs. -/
theorem Runnable.exists_link (h : g.Runnable outputs)
    (hlive : ∀ id, .node id ∈ outputs → g.contains id = true) (naming : Naming) :
    ∃ nodes exprs, Bundle.compile { graph := g, outputs := outputs, naming := naming } =
        .ok (g.link nodes exprs) ∧
      List.Forall₂ (fun id s => s.1 = id) g.order nodes ∧ exprs.length = outputs.length ∧
      ∀ inputs val, g.IsValuation inputs val → inputs.length = g.roster.length →
        (g.link nodes exprs).Yields inputs (outputs.map (Arg.eval val)) := by
  let b : Bundle α := { graph := g, outputs := outputs, naming := naming }
  obtain ⟨nodes, hnodes, hnodesAll⟩ := Prepared.exists_assignments (b := b) h.toPrepared
  obtain ⟨exprs, hexprs, hexprsAll⟩ := Prepared.exists_results (b := b) h.toPrepared hlive
  refine ⟨nodes, exprs, ?_, hnodesAll.imp fun _ _ hs => hs.node, hexprsAll.length_eq.symm, ?_⟩
  · change b.compile = _
    simp only [Bundle.compile, hnodes, hexprs, bind, Except.bind]
    rfl
  · intro inputs val hval hinputs
    refine h.yields_link hval hinputs
      (hnodesAll.imp fun _ _ hs => ⟨hs.node, hs.loads, hs.eval val ⟨inputs, hval⟩⟩) ?_
    exact hexprsAll.imp fun _ _ he => ⟨he.2.loads, he.2.eval val ⟨inputs, hval⟩⟩

end Graph

end Straightline
