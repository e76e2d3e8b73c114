import Straightline.Proofs.Generation.Correctness

/-!
# Reading written expressions

A chain is written without the neutral value that its evaluation starts from: the first term stands
for itself, or for its inverse. Flattening builds only chains whose first term is direct, so that
reading a written expression gives the value of the expression wherever adding to zero and
multiplying one change nothing. Reading fails where a stored value is not there yet.
-/

namespace Straightline

variable {α : Type}

/-- The first term of an operation, seen as a chain, is direct. -/
def Operation.Led {β : Type} (op : Operation β) : Prop :=
  ∀ family terms, op.terms? family = some terms → ∃ x rest, terms = (.direct, x) :: rest

/-- A chain with a direct first term. -/
theorem Operation.led_chain {β : Type} (family : Family) (x : β) (rest : List (Sense × β)) :
    (Operation.chain family ((.direct, x) :: rest)).Led := by
  intro own terms hterms
  rw [terms?] at hterms
  split at hterms
  · cases hterms
    exact ⟨x, rest, rfl⟩
  · cases hterms

/-- The terms of any operation but a chain begin with a direct one. -/
theorem Operation.led_of_not_isChain {β : Type} {op : Operation β}
    (h : op.opcode.isChain = false) : op.Led := by
  intro family terms hterms
  rcases Flattening.terms?_eq_some hterms with ⟨sense, l, r, _, rfl⟩ | rfl
  · exact ⟨l, _, rfl⟩
  · simp [opcode, Opcode.isChain] at h

theorem Operation.Led.map {β γ : Type} {op : Operation β} (h : op.Led) (f : β → γ) :
    (op.map f).Led := by
  intro family terms hterms
  rw [terms?_map] at hterms
  obtain ⟨ts, hts, rfl⟩ := Option.map_eq_some_iff.mp hterms
  obtain ⟨x, rest, rfl⟩ := h family ts hts
  exact ⟨f x, _, rfl⟩

/-- What flattening keeps of the operations of a graph: it is true of the chains that flattening
builds, and does not depend on the operands. -/
structure Operation.Lasting (P : Operation (Arg α) → Prop) : Prop where
  /-- The first terms are direct. -/
  led : ∀ op, P op → op.Led
  /-- Chains with a direct first term. -/
  chain : ∀ family x rest, P (.chain family ((.direct, x) :: rest))
  /-- Arithmetic that is not spliced. -/
  arith : ∀ tag l r, P (.binary (.arith tag) l r)
  /-- Copies. -/
  copy : ∀ x, P (.copy x)
  /-- The operands are replaced. -/
  map : ∀ op f, P op → P (op.map f)

theorem Operation.lasting_led : Operation.Lasting (α := α) Operation.Led where
  led _ h := h
  chain := led_chain
  arith _ _ _ := led_of_not_isChain rfl
  copy _ := led_of_not_isChain rfl
  map _ f h := h.map f

/-- The operations of all live nodes have a property. -/
def Graph.Each (P : Operation (Arg α) → Prop) (g : Graph α) : Prop :=
  ∀ id op, g.operation? id = some op → P op

namespace Flattening

variable {P : Operation (Arg α) → Prop} {g : Graph α} {f : Flattening α}

/-- The operations of the built nodes have a property. -/
def Each (P : Operation (Arg α) → Prop) (f : Flattening α) : Prop :=
  ∀ b n, f.nodes.get b = some n → P n.operation

theorem Each.assign (h : f.Each P) {op : Operation (Arg α)} (hop : P op) (id : NodeId)
    (name : Option String) (host : NodeId) : (f.assign id name host op).Each P := by
  intro b n hn
  rcases nodes_assign_eq_some hn with ⟨_, heq⟩ | ⟨_, hold⟩
  · exact heq ▸ hop
  · exact h b n hold

theorem Each.derive (h : f.Each P) {op : Operation (Arg α)} (hop : P op) (id : NodeId)
    (name : Option String) : (f.derive id name op).Each P :=
  Each.assign (f := { f with count := f.count + 1, next := f.next + 1 }) h hop id name f.next

theorem Each.makeChain (h : f.Each P) (hP : Operation.Lasting P) (b : NodeId) (family : Family)
    (x : Arg α) (rest : List (Sense × Arg α)) :
    (f.makeChain b family ((.direct, x) :: rest)).Each P := by
  intro k n hn
  rw [Flattening.makeChain, Table.get_modify] at hn
  split at hn
  · obtain ⟨m, _, rfl⟩ := Option.map_eq_some_iff.mp hn
    exact hP.chain family x rest
  · exact h k n hn

/-- What is spliced begins with a direct term. -/
theorem Each.spliceable? (h : f.Each P) (hP : Operation.Lasting P) {family : Family} {x : Arg α}
    {host : NodeId} {terms : List (Sense × Arg α)}
    (hsome : f.spliceable? g family x = some (host, terms)) :
    ∃ y rest, terms = (.direct, y) :: rest := by
  simp only [Flattening.spliceable?, Option.bind_eq_bind, Option.bind_eq_some_iff] at hsome
  obtain ⟨k, _, n, hn, ts, hts, hrest⟩ := hsome
  split at hrest
  · obtain ⟨_, rfl⟩ : k = host ∧ ts = terms := by simpa using hrest
    exact hP.led _ (h k n hn) family ts hts
  · simp at hrest

/-- Whatever is spliced, the terms of the left operand come first. -/
theorem Each.combine (h : f.Each P) (hP : Operation.Lasting P) (id : NodeId) (name : Option String)
    (tag : Tag) (l r : Arg α) : (f.combine g id name tag l r).Each P := by
  unfold Flattening.combine
  split
  · next left leftTerms right rightTerms hleft hright =>
    obtain ⟨x, rest, rfl⟩ := h.spliceable? hP hleft
    obtain ⟨y, rest', rfl⟩ := h.spliceable? hP hright
    rw [assign_withdraw]
    exact (h.makeChain hP right tag.family y rest').assign (hP.chain _ _ _) id name left
  · next left leftTerms hleft _ =>
    obtain ⟨x, rest, rfl⟩ := h.spliceable? hP hleft
    rw [assign_withdraw]
    exact h.assign (hP.chain _ _ _) id name left
  · exact h.assign (hP.chain _ _ _) id name _
  · exact h.derive (hP.arith tag _ _) id name

/-- One step of flattening. -/
theorem Each.build (h : f.Each P) (hP : Operation.Lasting P) (hg : g.Each P) (id : NodeId) :
    (f.build g id).Each P := by
  unfold Flattening.build
  split
  · exact h
  · next node hnode =>
    have hop := hg id node.operation (by rw [Graph.operation?, hnode, Option.map_some])
    split
    · exact h
    · next x heq =>
      split
      · exact h
      · exact h.derive (hP.copy _) id node.name
    · exact h.combine hP id node.name _ _ _
    · exact h.derive (hP.map _ f.image hop) id node.name

/-- A whole run. -/
theorem each_run (hP : Operation.Lasting P) (hg : g.Each P) (ids : List NodeId) (h : f.Each P) :
    (ids.foldl (Flattening.build g) f).Each P := by
  induction ids generalizing f with
  | nil => exact h
  | cons id ids ih => exact ih (h.build hP hg id)

end Flattening

namespace Graph

variable {P : Operation (Arg α) → Prop} {g : Graph α} {outputs : List (Arg α)}

/-- The first terms of all live nodes are direct. -/
def Led (g : Graph α) : Prop := ∀ id op, g.operation? id = some op → op.Led

/-- What is true of all recorded nodes is true after a pass, if flattening keeps it. -/
theorem each_shared_of_built
    (hrecorded : ∀ id node, g.recorded.get id = some node → P node.operation)
    (optimize reuse : Bool) (policy : Policy α) (outputs : List (Arg α))
    (hbuilt : (g.scheduled policy outputs).Each P → ∀ ids : List NodeId,
      (ids.foldl (Flattening.build (g.scheduled policy outputs))
        (Flattening.start (g.scheduled policy outputs))).Each P) :
    ((g.prepared optimize policy outputs).2.shared reuse).Each P := by
  have hscheduled : (g.scheduled policy outputs).Each P := by
    intro id op hop
    rw [operation?_scheduled, operation?_beginPass] at hop
    obtain ⟨node, hnode, rfl⟩ := Option.map_eq_some_iff.mp hop
    exact hrecorded id node hnode
  have hprepared : (g.prepared optimize policy outputs).2.Each P := by
    cases optimize with
    | false => exact hscheduled
    | true =>
      have hrun := hbuilt hscheduled (dependencyOrder (g.scheduled policy outputs).references
        (g.next + 1) (outputs.filterMap Arg.node?))
      intro id op hop
      obtain ⟨node, hnode, rfl⟩ := Option.map_eq_some_iff.mp hop
      rcases Option.or_eq_some_iff.mp hnode with hold | ⟨_, hnew⟩
      · exact hrecorded id node hold
      · exact hrun id node hnew
  cases reuse <;> exact hprepared

/-- A pass keeps what is true of all recorded nodes. -/
theorem each_shared (hP : Operation.Lasting P)
    (hrecorded : ∀ id node, g.recorded.get id = some node → P node.operation)
    (optimize reuse : Bool) (policy : Policy α) (outputs : List (Arg α)) :
    ((g.prepared optimize policy outputs).2.shared reuse).Each P :=
  each_shared_of_built hrecorded optimize reuse policy outputs fun hg ids =>
    Flattening.each_run hP hg ids fun b n hn => by simp [Flattening.start] at hn

/-- No recorded node is a chain. -/
theorem WellFormed.led_recorded (h : g.WellFormed) {id : NodeId} {node : Node α}
    (hnode : g.recorded.get id = some node) : node.operation.Led :=
  Operation.led_of_not_isChain (h.unchained id node hnode)

/-- After a pass the first terms of all live nodes are direct. -/
theorem WellFormed.led_shared (h : g.WellFormed) (optimize reuse : Bool) (policy : Policy α)
    (outputs : List (Arg α)) :
    ((g.prepared optimize policy outputs).2.shared reuse).Led :=
  each_shared Operation.lasting_led (fun _ _ => h.led_recorded) optimize reuse policy outputs

end Graph

mutual

/-- Every chain of an expression begins with a direct term. -/
def Expression.Led : Expression α → Prop
  | .stored _ => True
  | .const _ => True
  | .copy x => x.Led
  | .unary _ x => x.Led
  | .binary _ l r => l.Led ∧ r.Led
  | .select _ l r t f => l.Led ∧ r.Led ∧ t.Led ∧ f.Led
  | .chain _ ts => ts.senses.head? = some .direct ∧ ts.Led

/-- Every chain of a term begins with a direct term. -/
def Terms.Led : Terms α → Prop
  | .nil => True
  | .cons _ x rest => x.Led ∧ rest.Led

end

theorem Terms.led_ofList {ts : List (Sense × Expression α)} (h : ∀ t ∈ ts, t.2.Led) :
    (ofList ts).Led := by
  induction ts with
  | nil => trivial
  | cons t ts ih =>
    exact ⟨h t List.mem_cons_self, ih fun u hu => h u (List.mem_cons_of_mem _ hu)⟩

/-- A sequence succeeds if both parts do. -/
theorem exists_of_bind_ok {ε β γ : Type} {x : Except ε β} {f : β → Except ε γ} {c : γ}
    (h : (x >>= f) = .ok c) : ∃ b, x = .ok b ∧ f b = .ok c := by
  cases x with
  | error e => cases h
  | ok b => exact ⟨b, rfl, h⟩

/-- A function that was applied to every entry of a list. -/
theorem forall₂_of_mapM_ok {ε β γ : Type} {f : β → Except ε γ} {l : List β} {ys : List γ}
    (h : l.mapM f = .ok ys) : List.Forall₂ (fun x y => f x = .ok y) l ys := by
  induction l generalizing ys with
  | nil =>
    cases h
    exact .nil
  | cons x l ih =>
    rw [List.mapM_cons] at h
    obtain ⟨y, hy, h⟩ := exists_of_bind_ok h
    obtain ⟨rest, hrest, h⟩ := exists_of_bind_ok h
    cases h
    exact .cons hy (ih hrest)

namespace Expression

variable {operand : Arg α → Except Error (Expression α)} {op : Operation (Arg α)}
  {e : Expression α} {R : Arg α → Expression α → Prop}

/-- An expression of an operation has the expressions of its operands. -/
inductive Unfolds (R : Arg α → Expression α → Prop) : Operation (Arg α) → Expression α → Prop where
  /-- A copy. -/
  | copy {x : Arg α} {ex : Expression α} (hx : R x ex) : Unfolds R (.copy x) (.copy ex)
  /-- A unary operation. -/
  | unary {u : Unary} {x : Arg α} {ex : Expression α} (hx : R x ex) :
    Unfolds R (.unary u x) (.unary u ex)
  /-- A binary operation. -/
  | binary {b : Binary} {l r : Arg α} {el er : Expression α} (hl : R l el) (hr : R r er) :
    Unfolds R (.binary b l r) (.binary b el er)
  /-- A select. -/
  | select {c : Comparison} {l r t f : Arg α} {el er et ef : Expression α} (hl : R l el)
    (hr : R r er) (ht : R t et) (hf : R f ef) :
    Unfolds R (.select c l r t f) (.select c el er et ef)
  /-- A chain. -/
  | chain {family : Family} {ts : List (Sense × Arg α)} {us : List (Sense × Expression α)}
    (hall : List.Forall₂ (fun t u => t.1 = u.1 ∧ R t.2 u.2) ts us) :
    Unfolds R (.chain family ts) (.chain family (.ofList us))

theorem unfolds_of_ok (hoperand : ∀ x ex, operand x = .ok ex → R x ex)
    (h : ofOperation operand op = .ok e) : Unfolds R op e := by
  cases op with
  | independent => cases h
  | copy x =>
    obtain ⟨ex, hx, h⟩ := exists_of_bind_ok h
    cases h
    exact .copy (hoperand x ex hx)
  | unary op x =>
    obtain ⟨ex, hx, h⟩ := exists_of_bind_ok h
    cases h
    exact .unary (hoperand x ex hx)
  | binary op l r =>
    obtain ⟨el, hl, h⟩ := exists_of_bind_ok h
    obtain ⟨er, hr, h⟩ := exists_of_bind_ok h
    cases h
    exact .binary (hoperand l el hl) (hoperand r er hr)
  | select c l r t f =>
    obtain ⟨el, hl, h⟩ := exists_of_bind_ok h
    obtain ⟨er, hr, h⟩ := exists_of_bind_ok h
    obtain ⟨et, ht, h⟩ := exists_of_bind_ok h
    obtain ⟨ef, hf, h⟩ := exists_of_bind_ok h
    cases h
    exact .select (hoperand l el hl) (hoperand r er hr) (hoperand t et ht) (hoperand f ef hf)
  | chain family terms =>
    obtain ⟨us, hus, h⟩ := exists_of_bind_ok h
    cases h
    refine .chain ((forall₂_of_mapM_ok hus).imp fun t u ht => ?_)
    obtain ⟨ex, hx, ht⟩ := exists_of_bind_ok ht
    cases ht
    exact ⟨rfl, hoperand t.2 ex hx⟩

/-- The expression of an operation whose first term is direct. -/
theorem Unfolds.led (h : Unfolds (fun _ ex => ex.Led) op e) (hop : op.Led) : e.Led := by
  cases h with
  | copy hx => exact hx
  | unary hx => exact hx
  | binary hl hr => exact ⟨hl, hr⟩
  | select hl hr ht hf => exact ⟨hl, hr, ht, hf⟩
  | @chain family ts us hall =>
    constructor
    · obtain ⟨x, rest, rfl⟩ := hop family ts (by simp [Operation.terms?])
      obtain ⟨u, us, hu, _, rfl⟩ := List.forall₂_cons_left_iff.mp hall
      exact congrArg some hu.1.symm
    · refine Terms.led_ofList fun u hu => ?_
      obtain ⟨t, _, ht⟩ := exists_mem_of_forall₂ hall hu
      exact ht.2

end Expression

namespace Graph

variable {g : Graph α} {e : Expression α} {R : Arg α → Expression α → Prop}

/-- Expansion by recursion: stored nodes and constants stand for themselves, and a node without a
slot unfolds to the expressions of its operands. -/
theorem expand_induction (hconst : ∀ v, R (.const v) (.const v))
    (hstored : ∀ id, g.slot id ≠ 0 → R (.node id) (.stored id))
    (hnode : ∀ id op ex, g.operation? id = some op → g.slot id = 0 → Expression.Unfolds R op ex →
      R (.node id) ex) {depth : Nat} {x : Arg α} (he : g.expand depth x = .ok e) : R x e := by
  induction depth generalizing x e with
  | zero =>
    cases x with
    | const v =>
      cases he
      exact hconst v
    | node id => cases he
  | succ depth ih =>
    cases x with
    | const v =>
      cases he
      exact hconst v
    | node id =>
      rw [Graph.expand] at he
      split at he
      · next hslot =>
        cases he
        exact hstored id hslot
      · next hslot =>
        split at he
        · cases he
        · next op hop =>
          exact hnode id op e hop (not_not.mp hslot)
            (Expression.unfolds_of_ok (fun x ex => ih) he)

/-- A stored node unfolds to the expressions of its operands. -/
theorem exists_unfolds (hexpand : ∀ depth x ex, g.expand depth x = .ok ex → R x ex) {id : NodeId}
    (he : g.expandNode id = .ok e) :
    ∃ op, g.operation? id = some op ∧ Expression.Unfolds R op e := by
  rw [Graph.expandNode] at he
  split at he
  · cases he
  · next op hop => exact ⟨op, hop, Expression.unfolds_of_ok (fun x ex => hexpand _ x ex) he⟩

/-- The expression of an operand. -/
theorem Led.expand (h : g.Led) {depth : Nat} {x : Arg α} (he : g.expand depth x = .ok e) :
    e.Led :=
  expand_induction (R := fun _ ex => ex.Led) (fun _ => trivial) (fun _ _ => trivial)
    (fun id op _ hop _ hex => hex.led (h id op hop)) he

/-- The expression of a stored node. -/
theorem Led.expandNode (h : g.Led) {id : NodeId} (he : g.expandNode id = .ok e) : e.Led := by
  obtain ⟨op, hop, hunfolds⟩ := exists_unfolds (fun _ _ _ => h.expand) he
  exact hunfolds.led (h id op hop)

end Graph

variable [Scalar α]

/-- Starting a chain from its neutral value changes nothing. -/
structure NeutralLaws (α : Type) [Scalar α] : Prop where
  /-- Adding to zero. -/
  zero_add : ∀ v : α, Scalar.add Scalar.zero v = v
  /-- Multiplying one. -/
  one_mul : ∀ v : α, Scalar.mul Scalar.one v = v

theorem NeutralLaws.apply_neutral (laws : NeutralLaws α) (family : Family) (v : α) :
    (⟨family, .direct⟩ : Tag).apply family.neutral v = v := by
  cases family with
  | additive => exact laws.zero_add v
  | multiplicative => exact laws.one_mul v

/-- The first term of a chain as it is written, with no operator before it. -/
def Family.lead (family : Family) (sense : Sense) (v : α) : α :=
  match sense, family with
  | .direct, _ => v
  | .inverse, .additive => Scalar.neg v
  | .inverse, .multiplicative => Scalar.div Scalar.one v

/-- The value of a chain as it is written; a chain without terms is not written. -/
def Family.written? (family : Family) : List (Sense × α) → Option α
  | [] => none
  | (sense, v) :: rest => some (family.extend (family.lead sense v) rest)

mutual

/-- The value of an expression as it is written, from the stored values. There is none if a stored
value is not there. -/
def Expression.read (stored : NodeId → Option α) : Expression α → Option α
  | .stored id => stored id
  | .const v => some v
  | .copy x => x.read stored
  | .unary op x => do return op.apply (← x.read stored)
  | .binary op l r => do return op.apply (← l.read stored) (← r.read stored)
  | .select c l r t f => do
    return c.choose (← l.read stored) (← r.read stored) (← t.read stored) (← f.read stored)
  | .chain family ts => do family.written? (← ts.read stored)

/-- The values of the terms of a chain, each with its sense. -/
def Terms.read (stored : NodeId → Option α) : Terms α → Option (List (Sense × α))
  | .nil => some []
  | .cons sense x rest => do return (sense, ← x.read stored) :: (← rest.read stored)

end

/-- The value of a chain with a direct first term, as it is written. -/
theorem NeutralLaws.written?_terms (laws : NeutralLaws α) (family : Family) (val : NodeId → α)
    {ts : Terms α} (hled : ts.senses.head? = some .direct) :
    family.written? (ts.senses.zip (ts.eval val)) =
      some ((Expression.chain family ts).eval val) := by
  cases ts with
  | nil => simp [Terms.senses] at hled
  | cons sense x rest =>
    obtain rfl : sense = .direct := by simpa [Terms.senses] using hled
    have hstart : Program.chainValue
        (((Terms.cons .direct x rest).senses).map fun sense => ⟨family, sense⟩)
          ((Terms.cons .direct x rest).eval val) =
        foldTags ((⟨family, .direct⟩ : Tag).apply family.neutral (x.eval val))
          ((rest.senses.map fun sense => ⟨family, sense⟩).zip (rest.eval val)) := rfl
    rw [Expression.eval, hstart, laws.apply_neutral, List.zip_map_left]
    rfl

mutual

/-- Reading gives the value of an expression if the stored values that it loads are there. -/
theorem Expression.read_eq_eval (laws : NeutralLaws α) {stored : NodeId → Option α}
    {val : NodeId → α} : ∀ e : Expression α, e.Led →
      e.Loads (fun k => stored k = some (val k)) → e.read stored = some (e.eval val)
  | .stored id, _, hloads => hloads
  | .const v, _, _ => rfl
  | .copy x, hled, hloads => x.read_eq_eval laws hled hloads
  | .unary op x, hled, hloads => by
    rw [Expression.read, x.read_eq_eval laws hled hloads]
    rfl
  | .binary op l r, hled, hloads => by
    rw [Expression.read, l.read_eq_eval laws hled.1 hloads.1, r.read_eq_eval laws hled.2 hloads.2]
    rfl
  | .select c l r t f, hled, hloads => by
    rw [Expression.read, l.read_eq_eval laws hled.1 hloads.1,
      r.read_eq_eval laws hled.2.1 hloads.2.1, t.read_eq_eval laws hled.2.2.1 hloads.2.2.1,
      f.read_eq_eval laws hled.2.2.2 hloads.2.2.2]
    rfl
  | .chain family ts, hled, hloads => by
    rw [Expression.read, ts.read_eq_eval laws hled.2 hloads]
    exact laws.written?_terms family val hled.1

/-- Reading gives the values of the terms. -/
theorem Terms.read_eq_eval (laws : NeutralLaws α) {stored : NodeId → Option α}
    {val : NodeId → α} : ∀ ts : Terms α, ts.Led →
      ts.Loads (fun k => stored k = some (val k)) →
      ts.read stored = some (ts.senses.zip (ts.eval val))
  | .nil, _, _ => rfl
  | .cons sense x rest, hled, hloads => by
    rw [Terms.read, x.read_eq_eval laws hled.1 hloads.1, rest.read_eq_eval laws hled.2 hloads.2]
    rfl

end

end Straightline
