import Straightline.Proofs.Solver.Answers
import Straightline.Proofs.Solver.Required

/-!
# Solutions of the equation

Over a field, where the operations on the path can be inverted at the values of their operands, the
residual is zero exactly if the target has the value of the solution. One step of the path passes
the required value on to the operand, and undoing the step builds an expression with that value,
whatever shortcuts are taken on the way.
-/

namespace Straightline

namespace Graph

variable {α : Type} [Scalar α] {g g' : Graph α} {target : NodeId} {val : NodeId → α}

/-- Values of the nodes that satisfy every operation, where the independent variables and the target
have any values. -/
def IsAssignment (g : Graph α) (target : NodeId) (val : NodeId → α) : Prop :=
  ∀ id op, g.operation? id = some op → id ≠ target → op ≠ .independent →
    (op.map (Arg.eval val)).value? = some (val id)

theorem Keeps.isAssignment (h : g.Keeps g' target) (hval : g'.IsAssignment target val) :
    g.IsAssignment target val :=
  fun id op hop => hval id op (h.operation id op hop)

/-- All values of the independent variables and of the target can be assigned. -/
theorem Proper.exists_isAssignment (hg : g.Proper) (htarget : g.contains target = true)
    (given : NodeId → α) :
    ∃ val, g.IsAssignment target val ∧ val target = given target ∧
      ∀ id, g.operation? id = some .independent → val id = given id := by
  -- the values are those of the graph in which the target is an independent variable
  let free : Graph α :=
    { g with
      recorded := g.recorded.set target (some { operation := .independent })
      roster := List.range g.next }
  have hop : ∀ id, free.operation? id =
      if id = target then some .independent else g.operation? id := by
    intro id
    simp only [free, operation?, node?, Table.get_set]
    split <;> rfl
  have hrefs : ∀ a, ∀ b ∈ free.references a, b ∈ g.references a := by
    intro a b hb
    rw [references, hop] at hb
    split at hb
    · simp [Operation.references, Operation.operands] at hb
    · exact hb
  have hissued : ∀ id, free.operation? id = some .independent → id < g.next := by
    intro id hid
    rw [hop] at hid
    split at hid
    · next heq => exact hg.issued id (heq ▸ htarget)
    · exact hg.issued id (contains_iff.mpr ⟨_, hid⟩)
  have hclosed : free.Closed := by
    intro a b hb
    obtain ⟨op, hb⟩ := contains_iff.mp (hg.closed a b (hrefs a b hb))
    rw [contains_iff, hop]
    split
    · exact ⟨_, rfl⟩
    · exact ⟨op, hb⟩
  obtain ⟨rank, hrank, hbound⟩ := hg.exists_ranked
  have hlength : ((List.range g.next).map given).length = free.roster.length := by simp [free]
  obtain ⟨val, hval⟩ := exists_isValuation (fun a b hb => hrank a b (hrefs a b hb)) hbound hclosed
    (fun id hid => List.mem_range.mpr (hissued id hid)) hlength
  have hgiven : ∀ id, free.operation? id = some .independent → val id = given id := by
    intro id hid
    have hlt := hissued id hid
    have hindex : free.rosterIndex? id = some id := by
      rw [rosterIndex?, List.idxOf?_eq_some_iff]
      refine ⟨by simpa [free] using hlt, by simp [free], fun j hj => ?_⟩
      simp only [free, List.getElem_range]
      exact Nat.ne_of_lt hj
    have hrequired := hval id .independent hid
    simp only [required?, hindex, Option.bind_some, List.getElem?_map,
      List.getElem?_range hlt, Option.map_some, Option.some_inj] at hrequired
    exact hrequired.symm
  refine ⟨val, fun id op hid hne hindependent => ?_, hgiven target (by rw [hop, if_pos rfl]), ?_⟩
  · have hrequired := hval id op (by rw [hop, if_neg hne, hid])
    rwa [required?_of_ne _ _ _ hindependent] at hrequired
  · intro id hid
    apply hgiven
    rw [hop, hid, ite_self]

end Graph

namespace Build

variable {α β γ : Type} [Scalar α] {g : Graph α} {target : NodeId}

/-- A computation that keeps the nodes, and whose answer is related to the values of the nodes in
every assignment to the new graph. -/
def Gives (target : NodeId) (g : Graph α) (m : Build α β) (P : (NodeId → α) → β → Prop) : Prop :=
  Yields (fun g g' => g.Keeps g' target)
    (fun g y => ∀ val, g.IsAssignment target val → P val y) g m

theorem gives_pure (hg : g.Bounded ∧ g.contains target = true) {P : (NodeId → α) → β → Prop}
    {y : β} (hy : ∀ val, P val y) : Gives target g (pure y) P :=
  (Graph.frame_keeps target).pure hg fun val _ => hy val

theorem Gives.bind {m : Build α β} {f : β → Build α γ} {P : (NodeId → α) → β → Prop}
    {P' : β → (NodeId → α) → γ → Prop} {Q : (NodeId → α) → γ → Prop} (hm : Gives target g m P)
    (hf : ∀ g' x, g'.Bounded ∧ g'.contains target = true → Gives target g' (f x) (P' x))
    (hQ : ∀ val x y, P val x → P' x val y → Q val y) : Gives target g (m >>= f) Q := by
  refine (Graph.frame_keeps target).bind hm fun g' x hkeeps hx => ?_
  obtain ⟨hkeeps', hy⟩ := hf g' x ((Graph.frame_keeps target).inv hkeeps)
  exact ⟨hkeeps', fun val hval => hQ val x _ (hx val (hkeeps'.isAssignment hval)) (hy val hval)⟩

theorem Gives.answer {m : Build α β} {P : (NodeId → α) → β → Prop} {Q : (NodeId → α) → γ → Prop}
    (hm : Gives target g m P) {f : β → γ} (hQ : ∀ val x, P val x → Q val (f x)) :
    Gives target g (do return f (← m)) Q :=
  ⟨hm.1, fun val hval => hQ val _ (hm.2 val hval)⟩

theorem Gives.mono {m : Build α β} {P Q : (NodeId → α) → β → Prop} (hm : Gives target g m P)
    (hQ : ∀ val x, P val x → Q val x) : Gives target g m Q :=
  ⟨hm.1, fun val hval => hQ val _ (hm.2 val hval)⟩

/-- A recorded operation has its value in every assignment. -/
theorem gives_record (hg : g.Bounded ∧ g.contains target = true) {op : Operation (Arg α)}
    (hop : op ≠ .independent) :
    Gives target g (record op)
      fun val x => (op.map (Arg.eval val)).value? = some (x.eval val) := by
  refine ⟨hg.1.keeps_record hg.2 op, fun val hval => ?_⟩
  refine hval g.next op ?_ (Nat.ne_of_gt (hg.1 target hg.2)) hop
  change ((g.record op).2.node? g.next).map Node.operation = some op
  rw [(hg.1.writes_record op).node?, if_pos rfl, Option.map_some]

theorem gives_unary (hg : g.Bounded ∧ g.contains target = true) (op : Unary) (x : Arg α) :
    Gives target g (unary op x) fun val y => y.eval val = op.apply (x.eval val) := by
  cases x with
  | const v => exact gives_pure hg fun _ => rfl
  | node k =>
    have hrecord := gives_record hg (show Operation.unary op (.node k) ≠ .independent by simp)
    exact ⟨hrecord.1, fun val hval => (Option.some.inj (hrecord.2 val hval)).symm⟩

/-- Over a field the answer has the value of the operation, whatever shortcut is taken. -/
theorem gives_binary {K : Type} [Field K] [Scalar K] [Scalar.IsExact K] {g : Graph K}
    (hg : g.Bounded ∧ g.contains target = true) (op : Binary) (l r : Arg K) :
    Gives target g (binary op l r)
      fun val x => x.eval val = op.apply (l.eval val) (r.eval val) := by
  have hconst : ∀ (x : Arg K) val, ∀ v ∈ x.const?, v = x.eval val := by
    intro x val v hv
    cases x with
    | node k => cases hv
    | const w => exact (Option.some.inj hv).symm
  have hshortcut : ∀ s, op.shortcut? l.const? r.const? = some s → ∀ val,
      s.resolve (l.eval val) (r.eval val) = op.apply (l.eval val) (r.eval val) := by
    intro s hs val
    rw [op.apply_eq_exact]
    exact op.resolve_shortcut? hs (hconst l val) (hconst r val)
  unfold binary
  split
  · next v hs => exact gives_pure hg (hshortcut _ hs)
  · next hs => exact gives_pure hg (hshortcut _ hs)
  · next hs => exact gives_pure hg (hshortcut _ hs)
  · have hrecord := gives_record hg (show Operation.binary op l r ≠ .independent by simp)
    exact ⟨hrecord.1, fun val hval => (Option.some.inj (hrecord.2 val hval)).symm⟩

end Build

namespace Inversion

variable {K : Type} [Field K] [Scalar K]

/-- The value of an unfinished combination, which is neutral without terms. -/
def combined (family : Family) (val : NodeId → K) (acc : Option (Arg K)) : K :=
  (acc.getD (.const family.neutral)).eval val

/-- The value that the target must have for the first node of a path to have a value. -/
def requiredAlong (val : NodeId → K) (steps : List (Step K)) (w : K) : K :=
  steps.foldl (fun w step => (step.operation.map (Arg.eval val)).required step.position w) w

/-- Every operation on a path can be inverted for the value that is required of it. -/
def InvertsAlong (val : NodeId → K) : List (Step K) → K → Prop
  | [], _ => True
  | step :: rest, w =>
    (step.operation.map (Arg.eval val)).Inverts step.position w ∧
      InvertsAlong val rest ((step.operation.map (Arg.eval val)).required step.position w)

variable [Scalar.IsExact K] {g : Graph K} {target : NodeId}

open Build

theorem gives_addTerm (hg : g.Bounded ∧ g.contains target = true) (family : Family)
    (acc : Option (Arg K)) (term : Sense × Arg K) :
    Gives target g (addTerm family acc term) fun val y =>
      combined family val y =
        (⟨family, term.1⟩ : Tag).apply (combined family val acc) (term.2.eval val) := by
  match acc, family, term with
  | some x, family, (sense, y) =>
    exact (gives_binary hg (.arith ⟨family, sense⟩) x y).answer fun val x hx => hx
  | none, family, (.direct, y) =>
    exact gives_pure hg fun val => (Tag.apply_neutral_left family (y.eval val)).symm
  | none, .additive, (.inverse, y) =>
    refine (gives_unary hg .neg y).answer fun val x hx => ?_
    change x.eval val = Scalar.sub Scalar.zero (y.eval val)
    rw [hx, Unary.apply, Scalar.IsExact.neg_eq, Scalar.IsField.sub_eq, Scalar.IsField.zero_eq,
      zero_sub]
  | none, .multiplicative, (.inverse, y) =>
    exact (gives_binary hg .div (.const Scalar.one) y).answer fun val x hx => hx

theorem gives_foldlM_addTerm (hg : g.Bounded ∧ g.contains target = true) (family : Family)
    (terms : List (Sense × Arg K)) (acc : Option (Arg K)) :
    Gives target g (terms.foldlM (addTerm family) acc) fun val y =>
      combined family val y = family.extend (combined family val acc)
        (terms.map fun t => (t.1, t.2.eval val)) := by
  induction terms generalizing g acc with
  | nil => exact gives_pure hg fun _ => rfl
  | cons term rest ih =>
    rw [List.foldlM_cons]
    refine (gives_addTerm hg family acc term).bind (fun g' acc' hg' => ih hg' acc') ?_
    intro val acc' y hacc hy
    rw [hy, hacc]
    rfl

theorem gives_remainder (hg : g.Bounded ∧ g.contains target = true) (family : Family)
    (terms : List (Sense × Arg K)) (skip : Nat) :
    Gives target g (remainder family terms skip) fun val x => x.eval val =
      family.chainValue ((terms.map fun t => (t.1, t.2.eval val)).eraseIdx skip) := by
  refine (gives_foldlM_addTerm hg family (terms.eraseIdx skip) none).answer fun val acc hacc => ?_
  rw [List.eraseIdx_map]
  exact hacc

/-- Undoing an operation gives the value that is required of the operand. -/
theorem gives_undo (hg : g.Bounded ∧ g.contains target = true) (op : Operation (Arg K))
    {index : Nat} (hindex : index < op.operands.length) (value : Arg K) :
    Gives target g (undo op index value) fun val x =>
      x.eval val = (op.map (Arg.eval val)).required index (value.eval val) := by
  match op with
  | .binary (.arith ⟨family, sense⟩) l r =>
    have hposition : index = 0 ∨ index = 1 := by
      simp only [Operation.operands, List.length_cons, List.length_nil] at hindex
      omega
    rcases hposition with rfl | rfl
    · have hleft : undo (.binary (.arith ⟨family, sense⟩) l r) 0 value =
          binary (.arith (Tag.flip ⟨family, sense⟩)) value r := by
        cases sense <;> rfl
      rw [hleft]
      exact (gives_binary hg _ value r).mono fun val x hx =>
        hx.trans (family.required_left sense _ _ _).symm
    · cases sense with
      | direct =>
        exact (gives_binary hg _ value l).mono fun val x hx =>
          hx.trans (family.required_right .direct _ _ _).symm
      | inverse =>
        exact (gives_binary hg _ l value).mono fun val x hx =>
          hx.trans (family.required_right .inverse _ _ _).symm
  | .chain family terms =>
    have hlt : index < terms.length := by simpa [Operation.operands] using hindex
    obtain ⟨⟨sense, x⟩, hterm⟩ : ∃ t, terms[index]? = some t := ⟨_, List.getElem?_eq_getElem hlt⟩
    have hmapped : ∀ val : NodeId → K, (terms.map fun t => (t.1, t.2.eval val))[index]? =
        some (sense, x.eval val) := by
      intro val
      rw [List.getElem?_map, hterm, Option.map_some]
    simp only [undo, hterm, Option.map_some]
    cases sense with
    | direct =>
      refine (gives_remainder hg family terms index).bind
        (fun g' rest hg' => gives_binary hg' (.arith ⟨family, .inverse⟩) value rest) ?_
      intro val rest y hrest hy
      rw [hy, hrest]
      simp only [Operation.map, Operation.required, Operation.chain?, Family.required, hmapped val]
      rfl
    | inverse =>
      refine (gives_remainder hg family terms index).bind
        (fun g' rest hg' => gives_binary hg' (.arith ⟨family, .inverse⟩) rest value) ?_
      intro val rest y hrest hy
      rw [hy, hrest]
      simp only [Operation.map, Operation.required, Operation.chain?, Family.required, hmapped val]
      rfl
  | .unary .neg x => exact gives_unary hg .neg value
  | .unary (.call .exp) x => exact gives_unary hg (.call .log) value
  | .unary (.call .log) x => exact gives_unary hg (.call .exp) value
  | .unary (.call .sqrt) x => exact gives_binary hg .mul value value
  | .independent | .copy x | .select c l r t f | .binary .pow l r | .unary .sign x
  | .unary (.call .abs) x | .unary (.call .acos) x | .unary (.call .asin) x
  | .unary (.call .atan) x | .unary (.call .cosh) x | .unary (.call .cos) x
  | .unary (.call .sinh) x | .unary (.call .sin) x | .unary (.call .tanh) x
  | .unary (.call .tan) x => exact gives_pure hg fun _ => rfl

/-- Undoing the operations of a path gives the value that is required of the target. -/
theorem gives_undoAll (hg : g.Bounded ∧ g.contains target = true) {steps : List (Step K)}
    (hsteps : ∀ step ∈ steps, step.position < step.operation.operands.length) (value : Arg K) :
    Gives target g (undoAll (steps.map fun step => (step.operation, step.position)) value)
      fun val x => x.eval val = requiredAlong val steps (value.eval val) := by
  induction steps generalizing g value with
  | nil => exact gives_pure hg fun _ => rfl
  | cons step rest ih =>
    have hrest : ∀ other ∈ rest, other.position < other.operation.operands.length :=
      fun other hother => hsteps other (List.mem_cons_of_mem _ hother)
    refine (gives_undo hg step.operation (hsteps step List.mem_cons_self) value).bind
      (fun g' x hg' => ih hg' hrest x) ?_
    intro val x y hx hy
    rw [hy, hx]
    rfl

end Inversion

/-- Along a path that can be inverted, the first node has a value exactly if the target has the
required one. -/
theorem Graph.Path.value_eq_iff {K : Type} [Field K] [Scalar K] [Scalar.IsExact K] {g : Graph K}
    {target id : NodeId} {steps : List (Step K)} (hpath : g.Path target id steps) (hg : g.Proper)
    (hsteps : ∀ step ∈ steps, step.operation.opcode.isInvertible = true) {val : NodeId → K}
    (hval : g.IsAssignment target val) {w : K} (hinverts : Inversion.InvertsAlong val steps w) :
    val id = w ↔ val target = Inversion.requiredAlong val steps w := by
  induction hpath generalizing w with
  | done => rfl
  | @step id child op position rest hop hchild hrest ih =>
    have hne := hg.ne_target (.step hop hchild hrest)
    have hindependent : op ≠ .independent := by
      rintro rfl
      simp [Operation.operands] at hchild
    have hoperand : (op.map (Arg.eval val)).operands[position]? = some (val child) := by
      rw [Operation.operands_map, List.getElem?_map, hchild]
      rfl
    have hinvertible : (op.map (Arg.eval val)).opcode.isInvertible = true := by
      rw [Operation.opcode_map]
      exact hsteps _ List.mem_cons_self
    have hstep := Operation.value_eq_iff hinvertible hoperand (hval id op hop hne hindependent)
      hinverts.1
    exact hstep.trans (ih (fun step hmem => hsteps step (List.mem_cons_of_mem _ hmem)) hinverts.2)

/-- The positions of a path are positions of operands. -/
theorem Graph.Path.position_lt {α : Type} {g : Graph α} {target id : NodeId}
    {steps : List (Step α)} (hpath : g.Path target id steps) :
    ∀ step ∈ steps, step.position < step.operation.operands.length := by
  induction hpath with
  | done => simp
  | step hop hchild _ ih =>
    intro step hstep
    rcases List.mem_cons.mp hstep with rfl | hstep
    · exact (List.getElem?_eq_some_iff.mp hchild).1
    · exact ih step hstep

/-- If the solver answers, there is one path to the target, and all values of the independent
variables and of the target can be assigned. Where every operation on the path can be inverted, the
residual is zero exactly if the target has the value of the answer. -/
theorem solve_isolates_target {K : Type} [Field K] [Scalar K] [Scalar.IsExact K] {g g' : Graph K}
    {root target : NodeId} {solved : Arg K} (hg : g.Proper)
    (hsolve : Solver.inversion.solve g (.node root) target = .ok (solved, g')) :
    ∃ steps, (∀ other, g.Path target root other ↔ other = steps) ∧
      (∀ id op, g.operation? id = some op → g'.operation? id = some op) ∧
      (∀ given : NodeId → K, ∃ val, g'.IsAssignment target val ∧ val target = given target ∧
        ∀ id, g'.operation? id = some .independent → val id = given id) ∧
      ∀ val, g'.IsAssignment target val → Inversion.InvertsAlong val steps 0 →
        (val root = 0 ↔ val target = solved.eval val) := by
  obtain ⟨_, steps, ⟨⟩, hroot, hsteps, hinvertible, hundo⟩ := Solver.exists_steps_of_ok hg hsolve
  have hpath := (hsteps steps).mpr rfl
  have htarget : g.contains target = true := hg.closed.contains_of_reaches hroot hpath.reaches
  obtain ⟨henlarges, _⟩ := Solver.enlarges_undoAll hg htarget hroot hsteps
  have hgives := Inversion.gives_undoAll ⟨hg.issued, htarget⟩ hpath.position_lt (.const Scalar.zero)
  rw [hundo] at henlarges
  refine ⟨steps, hsteps, henlarges.operation,
    henlarges.proper.exists_isAssignment henlarges.live, ?_⟩
  intro val hval hinverts
  have hsolved : solved.eval val = Inversion.requiredAlong val steps 0 := by
    have hvalue := hgives.2 val
    rw [hundo] at hvalue
    rw [hvalue hval, Arg.eval, Scalar.IsField.zero_eq]
  rw [hsolved]
  exact hpath.value_eq_iff hg hinvertible (henlarges.toKeeps.isAssignment hval) hinverts

/-- In `y - 7 + 6 / x = 0` the path to `x` leads through a chain, a copy and a divisor. At `x = 2`
and `y = 4` it can be inverted, the equation holds, and the solution has the value of `x`. -/
theorem solve_sample_isolates_target :
    ∃ solved g' val, Graph.sample.Proper ∧
      Solver.inversion.solve Graph.sample (.node 4) 0 = .ok (solved, g') ∧
      Graph.sample.Path 0 4 Graph.sampleSteps ∧ g'.IsAssignment 0 val ∧ val 0 = 2 ∧ val 1 = 4 ∧
      Inversion.InvertsAlong val Graph.sampleSteps 0 ∧ val 4 = 0 ∧ solved.eval val = 2 := by
  have hg := Graph.proper_sample
  have hok : (match Solver.inversion.solve Graph.sample (.node 4) 0 with
      | .ok _ => true
      | .error _ => false) = true := by decide +kernel
  obtain ⟨⟨solved, g'⟩, hsolve⟩ : ∃ answer,
      Solver.inversion.solve Graph.sample (.node 4) 0 = .ok answer := by
    cases hsolve : Solver.inversion.solve Graph.sample (.node 4) 0 with
    | ok answer => exact ⟨answer, rfl⟩
    | error e => simp [hsolve] at hok
  obtain ⟨steps, hsteps, hkept, hassign, hiff⟩ := solve_isolates_target hg hsolve
  obtain rfl := (hsteps _).mp Graph.path_sample
  obtain ⟨val, hval, hx, hgiven⟩ := hassign fun id => if id = 0 then 2 else 4
  replace hx : val 0 = 2 := hx
  have hy : val 1 = 4 := hgiven 1 (hkept 1 _ rfl)
  have hvalue : ∀ id op, Graph.sample.operation? id = some op → id ≠ 0 → op ≠ .independent →
      (op.map (Arg.eval val)).value? = some (val id) :=
    fun id op hop => hval id op (hkept id op hop)
  have hquotient : 6 / val 0 = val 2 := Option.some.inj (hvalue 2 _ rfl (by decide) (by simp))
  have hcopy : val 2 = val 3 := Option.some.inj (hvalue 3 _ rfl (by decide) (by simp))
  have hchain : 0 + val 1 - 7 + val 3 = val 4 :=
    Option.some.inj (hvalue 4 _ rfl (by decide) (by simp))
  have hzero : val 4 = 0 := by
    rw [← hchain, ← hcopy, ← hquotient, hx, hy]
    norm_num
  have hinverts : Inversion.InvertsAlong val Graph.sampleSteps 0 := by
    refine ⟨trivial, trivial, ⟨?_, ?_⟩, trivial⟩
    · intro term hterm
      obtain rfl := List.mem_singleton.mp hterm
      exact (by norm_num : (6 : ℚ) ≠ 0)
    · intro x hterm
      obtain rfl : val 0 = x := by simpa [Arg.eval] using hterm
      change val 0 ≠ 0 ∧ 0 - (0 + val 1 - 7) ≠ 0
      rw [hx, hy]
      norm_num
  refine ⟨solved, g', val, hg, hsolve, Graph.path_sample, hval, hx, hy, hinverts, hzero, ?_⟩
  rw [← (hiff val hval hinverts).mp hzero, hx]

end Straightline
