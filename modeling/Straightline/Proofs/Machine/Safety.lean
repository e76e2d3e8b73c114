import Straightline.Proofs.Machine.Evaluation

/-!
# Safe runs

An instruction that is executed without a fault found what it needs: its operands on the stack, its
operators in the table and a value in the cell that it loads. The stack has the height that the
assembler keeps account of, and a cell with a value is a cell of an input or was stored by the run
itself. So a run that succeeds is safe at each of its instructions, and its stack is as high as the
program says.
-/

namespace Straightline

variable {α : Type}

namespace Instruction

/-- The height of the stack after code that starts at a height. -/
def heightFrom (height : Nat) (code : List (Instruction α)) : Nat :=
  code.foldl (fun height i => height - i.pops + i.pushes) height

theorem heightFrom_concat (height : Nat) (code : List (Instruction α)) (i : Instruction α) :
    heightFrom height (code ++ [i]) = heightFrom height code - i.pops + i.pushes := by
  simp [heightFrom]

/-- The output that an instruction writes. -/
def output? : Instruction α → Option Nat
  | .output index => some index
  | _ => none

/-- The instructions of code that write to a cell or to an output. -/
def effects (code : List (Instruction α)) : List (Instruction α) :=
  code.filter fun i => i.pushes = 0

/-- The outputs that code writes can be read off its effects. -/
theorem filterMap_output?_effects (code : List (Instruction α)) :
    (effects code).filterMap output? = code.filterMap output? := by
  rw [effects, List.filterMap_filter]
  congr 1
  funext i
  cases i <;> rfl

end Instruction

/-- The outputs that the code of a program writes, in order. -/
def Program.written (p : Program α) : List Nat :=
  p.instructions.toList.filterMap Instruction.output?

namespace Assembler

variable {a : Assembler α} {slot : NodeId → Nat}

mutual

/-- What every instruction with a result keeps is kept by the code of an expression. -/
theorem expression_induction {P : Assembler α → Prop}
    (hemit : ∀ a i, Instruction.pushes i = 1 → P a → P (a.emit i))
    (htags : ∀ (a : Assembler α) (tags : List Tag), P a → P { a with tags := a.tags ++ tags }) :
    ∀ (e : Expression α) (a : Assembler α), P a → P (expression slot e a)
  | .stored _, a, h => hemit a _ rfl h
  | .const _, a, h => hemit a _ rfl h
  | .copy x, a, h => expression_induction hemit htags x a h
  | .unary _ x, a, h => hemit _ _ rfl (expression_induction hemit htags x a h)
  | .binary _ l r, a, h => by
    have hl := expression_induction hemit htags l a h
    exact hemit _ _ rfl (expression_induction hemit htags r _ hl)
  | .select _ l r t f, a, h => by
    have hl := expression_induction hemit htags l a h
    have hr := expression_induction hemit htags r _ hl
    have ht := expression_induction hemit htags t _ hr
    exact hemit _ _ rfl (expression_induction hemit htags f _ ht)
  | .chain _ ts, a, h => hemit _ _ rfl (htags _ _ (terms_induction hemit htags ts a h))

/-- What every instruction with a result keeps is kept by the code of the terms of a chain. -/
theorem terms_induction {P : Assembler α → Prop}
    (hemit : ∀ a i, Instruction.pushes i = 1 → P a → P (a.emit i))
    (htags : ∀ (a : Assembler α) (tags : List Tag), P a → P { a with tags := a.tags ++ tags }) :
    ∀ (ts : Terms α) (a : Assembler α), P a → P (terms slot ts a)
  | .nil, _, h => h
  | .cons _ x rest, a, h =>
    terms_induction hemit htags rest _ (expression_induction hemit htags x a h)

end

/-- The depth that the assembler keeps is the height of the stack after its code, and the largest
depth is the greatest height on the way there. -/
structure Accounts (a : Assembler α) : Prop where
  /-- The height after the code. -/
  depth : a.depth = Instruction.heightFrom 0 a.instructions.toList
  /-- No height on the way is greater. -/
  le : ∀ front, front <+: a.instructions.toList → Instruction.heightFrom 0 front ≤ a.maxDepth
  /-- The greatest height is reached. -/
  reached : ∃ front, front <+: a.instructions.toList ∧
    Instruction.heightFrom 0 front = a.maxDepth

theorem accounts_empty : ({} : Assembler α).Accounts where
  depth := rfl
  le front hfront := by
    obtain rfl : front = [] := by simpa using hfront
    exact Nat.le_refl _
  reached := ⟨[], List.prefix_rfl, rfl⟩

/-- An instruction is accounted for when it is appended. -/
theorem Accounts.emit (h : a.Accounts) (i : Instruction α) : (a.emit i).Accounts := by
  have hcode : (a.emit i).instructions.toList = a.instructions.toList ++ [i] := by
    simp [Assembler.emit]
  have hdepth : (a.emit i).depth = Instruction.heightFrom 0 (a.instructions.toList ++ [i]) := by
    rw [Instruction.heightFrom_concat, ← h.depth]
    rfl
  have hmax : (a.emit i).maxDepth = max a.maxDepth (a.emit i).depth := rfl
  refine ⟨hcode ▸ hdepth, fun front hfront => ?_, ?_⟩
  · rw [hcode, List.prefix_concat_iff] at hfront
    rcases hfront with rfl | hfront
    · rw [hmax, hdepth]
      exact Nat.le_max_right _ _
    · exact (h.le front hfront).trans (Nat.le_max_left _ _)
  · rcases Nat.le_total (a.emit i).depth a.maxDepth with hle | hle
    · obtain ⟨front, hfront, heq⟩ := h.reached
      refine ⟨front, hcode ▸ hfront.trans (List.prefix_append _ _), ?_⟩
      rw [hmax, Nat.max_eq_left hle, heq]
    · refine ⟨a.instructions.toList ++ [i], by rw [hcode], ?_⟩
      rw [hmax, Nat.max_eq_right hle, hdepth]

theorem Accounts.expression (h : a.Accounts) (e : Expression α) :
    (expression slot e a).Accounts :=
  expression_induction (fun _ i _ ha => ha.emit i) (fun _ _ ha => ⟨ha.depth, ha.le, ha.reached⟩)
    e a h

/-- Code is accounted for, item by item. -/
theorem Accounts.foldl {β : Type} {f : Assembler α → β → Assembler α}
    (hf : ∀ a s, a.Accounts → (f a s).Accounts) (h : a.Accounts) (list : List β) :
    (list.foldl f a).Accounts := by
  induction list generalizing a with
  | nil => exact h
  | cons s list ih => exact ih (hf a s h)

/-- The effects of an appended instruction come last. -/
theorem effects_emit (a : Assembler α) (i : Instruction α) :
    Instruction.effects (a.emit i).instructions.toList =
      Instruction.effects a.instructions.toList ++ Instruction.effects [i] := by
  simp [Assembler.emit, Instruction.effects]

/-- The code of an expression has no effect. -/
theorem effects_expression (e : Expression α) (a : Assembler α) :
    Instruction.effects (expression slot e a).instructions.toList =
      Instruction.effects a.instructions.toList := by
  refine expression_induction (P := fun a' => Instruction.effects a'.instructions.toList =
    Instruction.effects a.instructions.toList) (fun a' i hi ha => ?_) (fun _ _ ha => ha) e a rfl
  rw [effects_emit, ha]
  simp [Instruction.effects, hi]

/-- The effects of items of code, each with one effect, in order. -/
theorem effects_foldl {β : Type} {f : Assembler α → β → Assembler α} {effect : β → Instruction α}
    (hf : ∀ a s, Instruction.effects (f a s).instructions.toList =
      Instruction.effects a.instructions.toList ++ [effect s]) (list : List β) (a : Assembler α) :
    Instruction.effects (list.foldl f a).instructions.toList =
      Instruction.effects a.instructions.toList ++ list.map effect := by
  induction list generalizing a with
  | nil => simp
  | cons s list ih => rw [List.foldl_cons, ih, hf, List.map_cons, List.append_assoc,
      List.singleton_append]

end Assembler

namespace Graph

variable {g : Graph α} {nodes : List (NodeId × Expression α)} {exprs : List (Expression α)}

/-- The account of a linked program. -/
theorem accounts_link (g : Graph α) (nodes : List (NodeId × Expression α))
    (exprs : List (Expression α)) :
    (exprs.zipIdx.foldl (Assembler.result g.slot)
      (nodes.foldl (Assembler.assignment g.slot) {})).Accounts :=
  .foldl (fun _ _ ha => (ha.expression _).emit _)
    (.foldl (fun _ _ ha => (ha.expression _).emit _) Assembler.accounts_empty nodes) _

/-- A linked program stores its nodes and then writes its outputs. -/
theorem effects_link : Instruction.effects (g.link nodes exprs).instructions.toList =
    nodes.map (fun s => .store (g.slot s.1)) ++ exprs.zipIdx.map (fun r => .output r.2) := by
  have hstore : ∀ (a : Assembler α) (s : NodeId × Expression α),
      Instruction.effects (Assembler.assignment g.slot a s).instructions.toList =
        Instruction.effects a.instructions.toList ++ [.store (g.slot s.1)] := by
    intro a s
    rw [Assembler.assignment, Assembler.effects_emit, Assembler.effects_expression]
    rfl
  have hwrite : ∀ (a : Assembler α) (r : Expression α × Nat),
      Instruction.effects (Assembler.result g.slot a r).instructions.toList =
        Instruction.effects a.instructions.toList ++ [.output r.2] := by
    intro a r
    rw [Assembler.result, Assembler.effects_emit, Assembler.effects_expression]
    rfl
  exact (Assembler.effects_foldl hwrite _ _).trans
    (congrArg (· ++ _) (Assembler.effects_foldl hstore nodes {}))

/-- A linked program writes every output once. -/
theorem written_link : (g.link nodes exprs).written = List.range exprs.length := by
  have houtputs : ∀ list : List (Expression α × Nat),
      (list.map fun r => (.output r.2 : Instruction α)).filterMap Instruction.output? =
        list.map Prod.snd := by
    intro list
    rw [List.filterMap_map, ← List.filterMap_eq_map]
    rfl
  have hstores : (nodes.map fun s => (.store (g.slot s.1) : Instruction α)).filterMap
      Instruction.output? = [] := by
    rw [List.filterMap_map, List.filterMap_eq_nil_iff]
    exact fun _ _ => rfl
  rw [Program.written, ← Instruction.filterMap_output?_effects, effects_link,
    List.filterMap_append, hstores, houtputs, List.nil_append, List.zipIdx_map_snd,
    List.range_eq_range']

/-- A linked program stores into slots of its nodes only. -/
theorem exists_of_store_mem_link {cell : Nat}
    (h : .store cell ∈ (g.link nodes exprs).instructions.toList) :
    ∃ s ∈ nodes, g.slot s.1 = cell := by
  have heffect : .store cell ∈ Instruction.effects (g.link nodes exprs).instructions.toList :=
    List.mem_filter.mpr ⟨h, rfl⟩
  simpa [effects_link] using heffect

end Graph

namespace Program

variable {p : Program α} {b b' : Buffers α} {i : Instruction α} {code : List (Instruction α)}

/-- The cells after loading: those of the program if it has room for the inputs. -/
theorem size_cells_load {inputs : List α} (hroom : inputs.length < p.slotCount) (b : Buffers α) :
    (p.load b inputs).cells.size = p.slotCount := by
  simp only [load, Array.size_append, Array.size_replicate, List.size_toArray, List.length_map,
    List.length_cons, List.length_nil]
  omega

/-- After loading, only the cells of the inputs hold a value. -/
theorem le_of_cells_load {inputs : List α} {slot : Nat} {v : α}
    (h : (p.load b inputs).cells[slot]? = some (some v)) : 1 ≤ slot ∧ slot ≤ inputs.length := by
  simp only [load, Array.getElem?_append, Array.getElem?_replicate] at h
  split at h
  · split at h
    · next hone =>
      obtain rfl : slot = 0 := by simpa using hone
      simp at h
    · next hlt hge =>
      simp only [Array.size_append, List.size_toArray, List.length_map, List.length_cons,
        List.length_nil] at hlt hge
      omega
  · split at h <;> simp at h

variable [Scalar α]

/-- What a step without a fault found in the buffers, and what it left there. -/
structure Steps (p : Program α) (b : Buffers α) (i : Instruction α) (b' : Buffers α) : Prop where
  /-- The operands are on the stack. -/
  pops : i.pops ≤ b.stack.length
  /-- The operands are replaced by the result. -/
  height : b'.stack.length = b.stack.length - i.pops + i.pushes
  /-- The operators of a chain are in the table. -/
  tags : ∀ start len, i = .chain start len → start + len ≤ p.tags.size
  /-- A loaded cell holds a value. -/
  loads : ∀ slot, i = .loadSlot slot → ∃ v, b.cells[slot]? = some (some v)
  /-- There are as many cells as before. -/
  size : b'.cells.size = b.cells.size
  /-- A cell changes only where it is stored. -/
  cells : ∀ slot, i = .store slot ∨ b'.cells[slot]? = b.cells[slot]?

theorem steps_of_step (h : p.step b i = .ok b') : p.Steps b i b' := by
  obtain ⟨cells, stack, outputs⟩ := b
  cases i with
  | loadConst v =>
    obtain rfl := Except.ok.inj h
    exact ⟨Nat.zero_le _, rfl, nofun, nofun, rfl, fun _ => .inr rfl⟩
  | loadSlot slot =>
    simp only [step] at h
    split at h
    · next v hcell =>
      obtain rfl := Except.ok.inj h
      refine ⟨Nat.zero_le _, rfl, nofun, ?_, rfl, fun _ => .inr rfl⟩
      rintro _ ⟨⟩
      exact ⟨v, hcell⟩
    · cases h
  | unary op =>
    match stack, h with
    | x :: stack, h =>
      obtain rfl := Except.ok.inj h
      exact ⟨Nat.le_add_left 1 _, rfl, nofun, nofun, rfl, fun _ => .inr rfl⟩
  | binary op =>
    match stack, h with
    | r :: l :: stack, h =>
      obtain rfl := Except.ok.inj h
      exact ⟨Nat.le_add_left 2 _, rfl, nofun, nofun, rfl, fun _ => .inr rfl⟩
  | select c =>
    match stack, h with
    | f :: t :: r :: l :: stack, h =>
      obtain rfl := Except.ok.inj h
      exact ⟨Nat.le_add_left 4 _, rfl, nofun, nofun, rfl, fun _ => .inr rfl⟩
  | chain start len =>
    simp only [step] at h
    split at h
    · cases h
    split at h
    · cases h
    next hstack htags =>
      obtain rfl := Except.ok.inj h
      refine ⟨Nat.le_of_not_lt hstack, by simp [Instruction.pops, Instruction.pushes], ?_, nofun,
        rfl, fun _ => .inr rfl⟩
      rintro _ _ ⟨⟩
      exact Nat.le_of_not_lt htags
  | store slot =>
    match stack, h with
    | v :: stack, h =>
      simp only [step] at h
      split at h
      · obtain rfl := Except.ok.inj h
        refine ⟨Nat.le_add_left 1 _, rfl, nofun, nofun, Array.size_setIfInBounds, fun k => ?_⟩
        by_cases hk : slot = k
        · exact .inl (congrArg _ hk)
        · exact .inr (Array.getElem?_setIfInBounds_ne hk)
      · cases h
  | output index =>
    match stack, h with
    | v :: stack, h =>
      simp only [step] at h
      split at h
      · obtain rfl := Except.ok.inj h
        exact ⟨Nat.le_add_left 1 _, rfl, nofun, nofun, rfl, fun _ => .inr rfl⟩
      · cases h

/-- What code without a fault left in the buffers. -/
structure Executes (b : Buffers α) (code : List (Instruction α)) (b' : Buffers α) : Prop where
  /-- The stack has the height after the code. -/
  height : b'.stack.length = Instruction.heightFrom b.stack.length code
  /-- There are as many cells as before. -/
  size : b'.cells.size = b.cells.size
  /-- A cell changes only if the code stores into it. -/
  cells : ∀ slot, .store slot ∈ code ∨ b'.cells[slot]? = b.cells[slot]?

/-- Code succeeds if its first instruction does and then the rest. -/
theorem exec_cons_eq_ok {rest : List (Instruction α)} :
    p.exec (i :: rest) b = .ok b' ↔ ∃ mid, p.step b i = .ok mid ∧ p.exec rest mid = .ok b' := by
  simp only [exec, bind, Except.bind]
  cases p.step b i <;> simp

/-- Code in two parts succeeds if the parts do, one after the other. -/
theorem exec_append_eq_ok {front back : List (Instruction α)} :
    p.exec (front ++ back) b = .ok b' ↔
      ∃ mid, p.exec front b = .ok mid ∧ p.exec back mid = .ok b' := by
  rw [exec_append]
  cases p.exec front b <;> simp [Except.bind]

theorem executes_of_exec (h : p.exec code b = .ok b') : Executes b code b' := by
  induction code generalizing b with
  | nil =>
    obtain rfl := Except.ok.inj h
    exact ⟨rfl, rfl, fun _ => .inr rfl⟩
  | cons i code ih =>
    obtain ⟨mid, hstep, hrest⟩ := exec_cons_eq_ok.mp h
    have hfirst := steps_of_step hstep
    have hlast := ih hrest
    refine ⟨?_, hlast.size.trans hfirst.size, fun slot => ?_⟩
    · rw [hlast.height, hfirst.height]
      rfl
    · rcases hlast.cells slot with hmem | hkept
      · exact .inl (List.mem_cons_of_mem _ hmem)
      · rcases hfirst.cells slot with rfl | hsame
        · exact .inl List.mem_cons_self
        · exact .inr (hkept.trans hsame)

/-- What an instruction finds, after the code in front of it has run. -/
structure Admits (p : Program α) (front : List (Instruction α)) (b : Buffers α)
    (i : Instruction α) : Prop where
  /-- Nothing is popped from an empty stack. -/
  pops : i.pops ≤ b.stack.length
  /-- A chain finds its values on the stack and its operators in the table. -/
  chain : ∀ start len, i = .chain start len →
    len ≤ b.stack.length ∧ start + len ≤ p.tags.size
  /-- A loaded cell is one of the program, belongs to an input or was stored before, and holds a
  value. -/
  loads : ∀ slot, i = .loadSlot slot → 1 ≤ slot ∧ slot < p.slotCount ∧
    (slot ≤ p.inputCount ∨ .store slot ∈ front) ∧ ∃ v, b.cells[slot]? = some (some v)
  /-- A cell that is stored is one of the program. -/
  stores : ∀ slot, i = .store slot → 1 ≤ slot ∧ slot < p.slotCount

/-- A run that is safe throughout. -/
structure RunsSafely (p : Program α) (b : Buffers α) (inputs : List α) : Prop where
  /-- Every instruction is executed and finds what it needs. -/
  admits : ∀ front i back, p.instructions.toList = front ++ i :: back →
    ∃ before after, p.exec front (p.load b inputs) = .ok before ∧ p.Admits front before i ∧
      p.step before i = .ok after
  /-- The stack is never higher than the program says. -/
  within : ∀ front back, p.instructions.toList = front ++ back →
    ∃ mid, p.exec front (p.load b inputs) = .ok mid ∧ mid.stack.length ≤ p.stackSize
  /-- The stack gets as high as the program says. -/
  reached : ∃ front back mid, p.instructions.toList = front ++ back ∧
    p.exec front (p.load b inputs) = .ok mid ∧ mid.stack.length = p.stackSize
  /-- The run ends with an empty stack and every output written. -/
  ends : ∃ cells, ∃ values : List α, values.length = p.outputCount ∧ p.run b inputs =
    .ok { cells := cells, stack := [], outputs := (values.map some).toArray }

/-- An instruction within a run without a fault finds what it needs, if the program stores into its
own cells only. -/
theorem admits_of_exec {inputs : List α} (hinputs : inputs.length = p.inputCount)
    (hroom : p.inputCount < p.slotCount)
    (hstores : ∀ slot, .store slot ∈ p.instructions.toList → 1 ≤ slot ∧ slot < p.slotCount)
    {front back : List (Instruction α)} (hsplit : p.instructions.toList = front ++ i :: back)
    {before after : Buffers α} (hfront : p.exec front (p.load b inputs) = .ok before)
    (hstep : p.step before i = .ok after) : p.Admits front before i := by
  have hfound := steps_of_step hstep
  have hran := executes_of_exec hfront
  refine ⟨hfound.pops, ?_, ?_, ?_⟩
  · rintro start len rfl
    exact ⟨hfound.pops, hfound.tags start len rfl⟩
  · rintro slot rfl
    obtain ⟨v, hcell⟩ := hfound.loads slot rfl
    have hlt : slot < p.slotCount := by
      rw [← size_cells_load (hinputs ▸ hroom) b, ← hran.size]
      exact (Array.getElem?_eq_some_iff.mp hcell).1
    -- The cell keeps what the loading put there, unless the code in front stored into it.
    rcases hran.cells slot with hmem | hkept
    · have hpos := hstores slot (hsplit ▸ List.mem_append_left _ hmem)
      exact ⟨hpos.1, hlt, .inr hmem, v, hcell⟩
    · have hinput := le_of_cells_load (hkept ▸ hcell)
      exact ⟨hinput.1, hlt, .inl (hinputs ▸ hinput.2), v, hcell⟩
  · rintro slot rfl
    exact hstores slot (hsplit ▸ List.mem_append_right _ List.mem_cons_self)

end Program

namespace Graph

variable [Scalar α] {g : Graph α} {nodes : List (NodeId × Expression α)}
  {exprs : List (Expression α)}

/-- A linked program that yields values runs safely. -/
theorem Prepared.runsSafely_link (h : g.Prepared)
    (hnodes : List.Forall₂ (fun id s => s.1 = id) g.order nodes) {inputs values : List α}
    (hinputs : inputs.length = g.roster.length) (hvalues : values.length = exprs.length)
    (hyields : (g.link nodes exprs).Yields inputs values) {b : Buffers α}
    (hsize : b.outputs.size = exprs.length) : (g.link nodes exprs).RunsSafely b inputs := by
  let p := g.link nodes exprs
  have haccounts := g.accounts_link nodes exprs
  obtain ⟨cells, hrun⟩ := hyields b hsize
  have hstores : ∀ slot, .store slot ∈ p.instructions.toList → 1 ≤ slot ∧ slot < p.slotCount := by
    intro slot hmem
    obtain ⟨s, hs, rfl⟩ := exists_of_store_mem_link hmem
    obtain ⟨id, hid, rfl⟩ := exists_mem_of_forall₂ hnodes hs
    have hgt := h.slot_gt s.1 hid
    have hle := h.slot_le s.1 hid
    exact ⟨by omega, Nat.lt_succ_of_le hle⟩
  have hheight : ∀ {front : List (Instruction α)} {mid : Buffers α},
      p.exec front (p.load b inputs) = .ok mid →
        mid.stack.length = Instruction.heightFrom 0 front :=
    fun hfront => (Program.executes_of_exec hfront).height
  refine ⟨fun front i back hsplit => ?_, fun front back hsplit => ?_, ?_,
    cells, values, hvalues, hrun⟩
  · rw [Program.run, hsplit] at hrun
    obtain ⟨before, hfront, hback⟩ := Program.exec_append_eq_ok.mp hrun
    obtain ⟨after, hstep, _⟩ := Program.exec_cons_eq_ok.mp hback
    exact ⟨before, after, hfront, Program.admits_of_exec hinputs
      (Nat.lt_succ_of_le h.roster_le) hstores hsplit hfront hstep, hstep⟩
  · rw [Program.run, hsplit] at hrun
    obtain ⟨mid, hfront, _⟩ := Program.exec_append_eq_ok.mp hrun
    refine ⟨mid, hfront, ?_⟩
    rw [hheight hfront]
    exact haccounts.le front ⟨back, hsplit.symm⟩
  · obtain ⟨front, ⟨back, hsplit⟩, hmax⟩ := haccounts.reached
    rw [Program.run, show (g.link nodes exprs).instructions.toList = front ++ back from
      hsplit.symm] at hrun
    obtain ⟨mid, hfront, _⟩ := Program.exec_append_eq_ok.mp hrun
    exact ⟨front, back, mid, hsplit.symm, hfront, (hheight hfront).trans hmax⟩

end Graph

end Straightline
