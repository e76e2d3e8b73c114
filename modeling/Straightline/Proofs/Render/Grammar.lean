import Straightline.Proofs.Render.Tokens

/-!
# Expressions of C

The grammar of C expressions: parentheses, calls and subscripts are primary, then come negation and
four levels of binary operators, which associate to the left, and the conditional operator binds
least. A list of tokens is parsed at a level together with what follows it, which must not go on
with an operator that binds at that level or tighter.
-/

namespace Straightline

namespace C

/-- A binary operator. -/
inductive Operator where
  /-- Arithmetic. -/
  | arith (tag : Tag)
  /-- A comparison. -/
  | compare (c : Comparison)
  deriving DecidableEq, Repr

namespace Operator

/-- The punctuator of an operator. -/
def symbol : Operator → String
  | arith tag => tag.symbol
  | compare c => c.symbol

/-- How loosely an operator binds: products, then sums, then inequalities, then equalities. -/
def looseness : Operator → Nat
  | arith ⟨.multiplicative, _⟩ => 0
  | arith ⟨.additive, _⟩ => 1
  | compare .eq => 3
  | compare .ne => 3
  | compare _ => 2

/-- Every operator. -/
def all : List Operator := Tag.all.map arith ++ Comparison.all.map compare

/-- The operator that a token stands for. -/
def ofToken? : Token → Option Operator
  | .symbol s => all.find? fun op => op.symbol == s
  | _ => none

theorem ofToken?_symbol (op : Operator) : ofToken? (.symbol op.symbol) = some op := by
  rcases op with ⟨⟨_ | _, _ | _⟩⟩ | ⟨_ | _⟩ <;> rfl

end Operator

mutual

/-- The syntax tree of an expression. Parentheses leave no trace. -/
inductive Tree where
  /-- A number. -/
  | number (s : String)
  /-- A variable, or a constant that has a name. -/
  | name (s : String)
  /-- An element of an array. -/
  | element (array : String) (index : Tree)
  /-- A call of a function. -/
  | call (f : String) (args : Trees)
  /-- A negation. -/
  | neg (x : Tree)
  /-- A binary operation. -/
  | binary (op : Operator) (l r : Tree)
  /-- A choice by a condition. -/
  | choice (c t f : Tree)

/-- The arguments of a call. -/
inductive Trees where
  /-- No argument. -/
  | nil
  /-- An argument before the others. -/
  | cons (x : Tree) (rest : Trees)

end

/-- A parser returns a tree and the tokens behind it. -/
abbrev Parser (β : Type) := List Token → Option (β × List Token)

/-- Skip a punctuator. -/
def expect (s : String) : List Token → Option (List Token)
  | [] => none
  | t :: rest => if t = .symbol s then some rest else none

/-- Arguments between commas, and the closing parenthesis. -/
def arguments (expression : Parser Tree) : Nat → Parser Trees
  | 0, _ => none
  | fuel + 1, ts => do
    let (x, rest) ← expression ts
    match rest with
    | .symbol "," :: rest => do
      let (xs, rest) ← arguments expression fuel rest
      return (.cons x xs, rest)
    | rest => do return (.cons x .nil, ← expect ")" rest)

/-- A call or an element if brackets follow a word, and a variable otherwise. -/
def named (expression : Parser Tree) (s : String) : Parser Tree
  | .symbol "(" :: rest => do
    let (args, rest) ← arguments expression rest.length rest
    return (.call s args, rest)
  | .symbol "[" :: rest => do
    let (index, rest) ← expression rest
    return (.element s index, ← expect "]" rest)
  | rest => some (.name s, rest)

/-- Numbers, what has a name, and parentheses. -/
def primary (expression : Parser Tree) : Parser Tree
  | .number s :: rest => if isNumber s then some (.number s, rest) else none
  | .word s :: rest => if s ∈ keywords then none else named expression s rest
  | .symbol "(" :: rest => do
    let (x, rest) ← expression rest
    return (x, ← expect ")" rest)
  | _ => none

/-- Negations of what is primary. -/
def unary (expression : Parser Tree) : Parser Tree
  | .symbol "-" :: rest => do
    let (x, rest) ← unary expression rest
    return (.neg x, rest)
  | ts => primary expression ts

/-- Apply the operators of one looseness to the tree before them, from left to right. -/
def operations (looseness : Nat) (operand : Parser Tree) : Nat → Tree → Parser Tree
  | 0, l, ts => some (l, ts)
  | _ + 1, l, [] => some (l, [])
  | fuel + 1, l, t :: ts =>
    match (Operator.ofToken? t).filter (·.looseness = looseness) with
    | some op => do
      let (r, rest) ← operand ts
      operations looseness operand fuel (.binary op l r) rest
    | none => some (l, t :: ts)

/-- Choose by the tree before a question mark. -/
def alternatives (expression : Parser Tree) (c : Tree) : Parser Tree
  | .symbol "?" :: rest => do
    let (t, rest) ← expression rest
    let rest ← expect ":" rest
    let (f, rest) ← expression rest
    return (.choice c t f, rest)
  | rest => some (c, rest)

/-- The levels of the grammar: negations, four levels of binary operators, and choices. -/
def level (expression : Parser Tree) : Nat → Parser Tree
  | 0, ts => unary expression ts
  | n + 1, ts => do
    let (l, rest) ← level expression n ts
    if n < 4 then operations n (level expression n) rest.length l rest
    else alternatives expression l rest

/-- Expressions of bounded depth. -/
def expression : Nat → Parser Tree
  | 0 => fun _ => none
  | fuel + 1 => level (expression fuel) 5

/-- The expression that a text stands for. -/
def parse? (s : String) : Option Tree := do
  let ts ← tokens? s
  let (x, rest) ← expression (ts.length + 1) ts
  if rest.isEmpty then some x else none

/-- How loosely a token binds what stands before it. -/
def Token.looseness? (t : Token) : Option Nat :=
  if t = .symbol "?" then some 4 else (Operator.ofToken? t).map Operator.looseness

/-- Tokens that do not go on with an expression of a level. -/
def Stops (n : Nat) (rest : List Token) : Prop :=
  ∀ t, rest.head? = some t →
    t ≠ .symbol "(" ∧ t ≠ .symbol "[" ∧ ∀ m, t.looseness? = some m → n ≤ m

theorem Stops.mono {n m : Nat} {rest : List Token} (h : Stops m rest) (hle : n ≤ m) :
    Stops n rest :=
  fun t ht => ⟨(h t ht).1, (h t ht).2.1, fun k hk => hle.trans ((h t ht).2.2 k hk)⟩

/-- Punctuators that close something, separate arguments or alternatives. -/
theorem stops_closing {s : String} (h : s ∈ [")", "]", ",", ":"]) (n : Nat) (rest : List Token) :
    Stops n (.symbol s :: rest) := by
  rintro t ⟨⟩
  simp only [List.mem_cons, List.not_mem_nil, or_false] at h
  rcases h with rfl | rfl | rfl | rfl <;>
    exact ⟨by decide, by decide, by rintro m ⟨⟩⟩

/-- An operator does not go on with an expression of its own looseness. -/
theorem stops_operator (op : Operator) (rest : List Token) :
    Stops op.looseness (.symbol op.symbol :: rest) := by
  rintro t ⟨⟩
  rcases op with ⟨⟨_ | _, _ | _⟩⟩ | ⟨_ | _⟩ <;>
    exact ⟨by decide, by decide, by rintro m ⟨⟩; exact Nat.le_refl _⟩

/-- Tokens are parsed as a tree at a level of the grammar. -/
def Parses (n : Nat) (ts : List Token) (x : Tree) : Prop :=
  ∀ fuel rest, ts.length ≤ fuel + 1 → Stops n rest →
    level (expression fuel) n (ts ++ rest) = some (x, rest)

section Parsing

variable {n m : Nat} {s : String} {ts us : List Token} {x y : Tree}

/-- No operator of a looseness comes first. -/
theorem operations_of_stops (operand : Parser Tree) (fuel : Nat) {rest : List Token}
    (h : Stops (n + 1) rest) : operations n operand fuel x rest = some (x, rest) := by
  cases fuel with
  | zero => rfl
  | succ fuel =>
    cases rest with
    | nil => rfl
    | cons t rest =>
      have hnone : (Operator.ofToken? t).filter (·.looseness = n) = none := by
        rw [Option.filter_eq_none_iff]
        intro op hop heq
        have hlevel : t.looseness? = some n := by
          have hne : t ≠ .symbol "?" := by
            rintro rfl
            cases hop
          rw [Token.looseness?, if_neg hne, hop, Option.map_some, of_decide_eq_true heq]
        exact Nat.not_succ_le_self n ((h t rfl).2.2 n hlevel)
      rw [operations, hnone]

/-- No question mark comes first. -/
theorem alternatives_of_stops (expression : Parser Tree) {rest : List Token} (h : Stops 5 rest) :
    alternatives expression x rest = some (x, rest) := by
  rw [alternatives.eq_def]
  split
  · exact absurd ((h _ rfl).2.2 4 rfl) (by decide)
  · rfl

/-- What is parsed at a level is parsed at the next one. -/
theorem Parses.succ (h : Parses n ts x) (hn : n < 5) : Parses (n + 1) ts x := by
  intro fuel rest hfuel hstops
  rw [level, h fuel rest hfuel (hstops.mono (Nat.le_succ n)), Option.bind_eq_bind, Option.bind_some]
  dsimp only
  split
  · exact operations_of_stops _ _ hstops
  · obtain rfl : n = 4 := by omega
    exact alternatives_of_stops _ hstops

theorem Parses.mono (h : Parses n ts x) (hle : n ≤ m) (hm : m ≤ 5) : Parses m ts x := by
  induction hle with
  | refl => exact h
  | step hle ih => exact (ih (by omega)).succ (by omega)

/-- A number. -/
theorem parses_number (h : isNumber s = true) : Parses 0 [.number s] (.number s) := by
  intro fuel rest _ _
  simp [level, unary, primary, h]

/-- What begins with an identifier. -/
theorem level_zero_word (h : isIdentifier s = true) (expression : Parser Tree)
    (rest : List Token) : level expression 0 (.word s :: rest) = named expression s rest := by
  have hkeyword : s ∉ keywords := by
    rw [isIdentifier] at h
    split at h
    · cases h
    · simp only [Bool.and_eq_true, Bool.not_eq_true', List.contains_eq_mem, decide_eq_false_iff_not]
        at h
      exact h.2
  simp [level, unary, primary, hkeyword]

/-- A variable. -/
theorem parses_name (h : isIdentifier s = true) : Parses 0 [.word s] (.name s) := by
  intro fuel rest _ hstops
  rw [List.singleton_append, level_zero_word h, named.eq_def]
  split
  · exact absurd rfl (hstops _ rfl).1
  · exact absurd rfl (hstops _ rfl).2.1
  · rfl

/-- An expression inside brackets. -/
theorem Parses.inside (h : Parses 5 ts x) {fuel : Nat} (hfuel : ts.length ≤ fuel)
    (hpos : 0 < fuel) {rest : List Token} (hstops : Stops 5 rest) :
    expression fuel (ts ++ rest) = some (x, rest) := by
  obtain ⟨fuel, rfl⟩ : ∃ k, fuel = k + 1 := ⟨fuel - 1, by omega⟩
  exact h fuel rest hfuel hstops

/-- An element of an array. -/
theorem Parses.element (hts : Parses 5 ts x) (h : isIdentifier s = true) :
    Parses 0 ([.word s, .symbol "["] ++ ts ++ [.symbol "]"]) (.element s x) := by
  intro fuel rest hfuel _
  simp only [List.length_cons, List.length_append, List.length_nil] at hfuel
  have hindex := hts.inside (by omega) (by omega : 0 < fuel)
    (stops_closing (s := "]") (by decide) 5 rest)
  simp only [List.append_assoc, List.cons_append, List.nil_append]
  rw [level_zero_word h, named, hindex]
  rfl

/-- An expression in parentheses. -/
theorem Parses.paren (hts : Parses 5 ts x) :
    Parses 0 ([.symbol "("] ++ ts ++ [.symbol ")"]) x := by
  intro fuel rest hfuel _
  simp only [List.length_cons, List.length_append, List.length_nil] at hfuel
  have hinside := hts.inside (by omega) (by omega : 0 < fuel)
    (stops_closing (s := ")") (by decide) 5 rest)
  simp only [List.append_assoc, List.cons_append, List.nil_append]
  simp [level, unary, primary, hinside, expect]

/-- The last argument of a call. -/
theorem Parses.arguments (hts : Parses 5 ts x) {fuel : Nat} (hfuel : ts.length ≤ fuel)
    (hpos : 0 < fuel) (k : Nat) (rest : List Token) :
    arguments (expression fuel) (k + 1) (ts ++ .symbol ")" :: rest) =
      some (.cons x .nil, rest) := by
  rw [C.arguments, hts.inside hfuel hpos (stops_closing (by decide) 5 rest)]
  rfl

/-- A call with one argument. -/
theorem Parses.call (hts : Parses 5 ts x) (h : isIdentifier s = true) :
    Parses 0 ([.word s, .symbol "("] ++ ts ++ [.symbol ")"]) (.call s (.cons x .nil)) := by
  intro fuel rest hfuel _
  simp only [List.length_cons, List.length_append, List.length_nil] at hfuel
  simp only [List.append_assoc, List.cons_append, List.nil_append]
  rw [level_zero_word h, named, List.length_append, List.length_cons, ← Nat.add_assoc,
    hts.arguments (by omega) (by omega)]
  rfl

/-- A call with two arguments. -/
theorem Parses.call₂ (hts : Parses 5 ts x) (hus : Parses 5 us y) (h : isIdentifier s = true) :
    Parses 0 ([.word s, .symbol "("] ++ ts ++ [.symbol ","] ++ us ++ [.symbol ")"])
      (.call s (.cons x (.cons y .nil))) := by
  intro fuel rest hfuel _
  simp only [List.length_cons, List.length_append, List.length_nil] at hfuel
  have hfirst := hts.inside (by omega) (by omega : 0 < fuel)
    (stops_closing (s := ",") (by decide) 5 (us ++ .symbol ")" :: rest))
  have hsecond := hus.arguments (by omega) (by omega : 0 < fuel)
    (ts.length + us.length + rest.length) rest
  simp only [List.append_assoc, List.cons_append, List.nil_append]
  have hlength : (ts ++ .symbol "," :: (us ++ .symbol ")" :: rest)).length =
      ts.length + us.length + rest.length + 1 + 1 := by
    simp only [List.length_append, List.length_cons]
    omega
  rw [level_zero_word h, named, hlength, C.arguments, hfirst]
  simp [hsecond]

/-- A negation. -/
theorem Parses.neg (hts : Parses 0 ts x) : Parses 0 ([.symbol "-"] ++ ts) (.neg x) := by
  intro fuel rest hfuel hstops
  have hinside := hts fuel rest (Nat.le_of_succ_le hfuel) hstops
  rw [level] at hinside
  rw [level, List.append_assoc, List.singleton_append, unary, hinside]
  rfl

/-- A choice. -/
theorem Parses.choice {cs : List Token} {c : Tree} (hcs : Parses 4 cs c) (hts : Parses 5 ts x)
    (hus : Parses 5 us y) :
    Parses 5 (cs ++ [.symbol "?"] ++ ts ++ [.symbol ":"] ++ us) (.choice c x y) := by
  intro fuel rest hfuel hstops
  simp only [List.length_cons, List.length_append, List.length_nil] at hfuel
  have hcondition := hcs fuel (.symbol "?" :: (ts ++ .symbol ":" :: (us ++ rest))) (by omega)
    (by
      rintro t ⟨⟩
      exact ⟨by decide, by decide, by rintro m ⟨⟩; exact Nat.le_refl 4⟩)
  have hfirst := hts.inside (by omega) (by omega : 0 < fuel)
    (stops_closing (s := ":") (by decide) 5 (us ++ rest))
  have hsecond := hus.inside (by omega) (by omega : 0 < fuel) hstops
  simp only [List.append_assoc, List.cons_append, List.nil_append]
  rw [level, hcondition]
  simp only [Option.bind_eq_bind, Option.bind_some, if_neg (Nat.lt_irrefl 4), alternatives, hfirst,
    expect, if_pos, hsecond, Option.pure_def]

/-- The tokens of operators with their right operands. -/
def termTokens (terms : List (Operator × List Token × Tree)) : List Token :=
  terms.flatMap fun t => .symbol t.1.symbol :: t.2.1

theorem stops_termTokens {terms : List (Operator × List Token × Tree)}
    (hterms : ∀ t ∈ terms, t.1.looseness = n) {rest : List Token} (hstops : Stops (n + 1) rest) :
    Stops n (termTokens terms ++ rest) := by
  cases terms with
  | nil => exact hstops.mono (Nat.le_succ n)
  | cons t terms =>
    rw [← hterms t List.mem_cons_self]
    exact stops_operator t.1 _

/-- What operators of one looseness and their right operands do to the tree before them. -/
theorem operations_eq {terms : List (Operator × List Token × Tree)}
    (hterms : ∀ t ∈ terms, t.1.looseness = n ∧ Parses n t.2.1 t.2.2) {fuel k : Nat}
    (hfuel : (termTokens terms).length ≤ fuel + 1) (hk : terms.length ≤ k) {rest : List Token}
    (hstops : Stops (n + 1) rest) :
    operations n (level (expression fuel) n) k x (termTokens terms ++ rest) =
      some (terms.foldl (fun l t => .binary t.1 l t.2.2) x, rest) := by
  induction terms generalizing x k with
  | nil => exact operations_of_stops _ _ hstops
  | cons t terms ih =>
    rw [termTokens, List.flatMap_cons, ← termTokens, List.length_append, List.length_cons] at hfuel
    rw [List.length_cons] at hk
    obtain ⟨k, rfl⟩ : ∃ j, k = j + 1 := ⟨k - 1, by omega⟩
    obtain ⟨hloose, hparses⟩ := hterms t List.mem_cons_self
    have hterms' := fun u hu => hterms u (List.mem_cons_of_mem _ hu)
    have hoperand := hparses fuel (termTokens terms ++ rest) (by omega)
      (stops_termTokens (fun u hu => (hterms' u hu).1) hstops)
    rw [termTokens, List.flatMap_cons, ← termTokens, List.append_assoc, List.cons_append,
      C.operations, Operator.ofToken?_symbol, Option.filter_some, if_pos (by simp [hloose])]
    simp only [hoperand, Option.bind_eq_bind, Option.bind_some]
    exact ih hterms' (by omega) (by omega)

theorem length_le_length_termTokens (terms : List (Operator × List Token × Tree)) :
    terms.length ≤ (termTokens terms).length := by
  induction terms with
  | nil => exact Nat.le_refl 0
  | cons t terms ih =>
    rw [termTokens, List.flatMap_cons, ← termTokens, List.length_append, List.length_cons,
      List.length_cons]
    omega

/-- An operand before operators of one looseness with their right operands. -/
theorem Parses.operations (hts : Parses n ts x) (hn : n < 4)
    {terms : List (Operator × List Token × Tree)}
    (hterms : ∀ t ∈ terms, t.1.looseness = n ∧ Parses n t.2.1 t.2.2) :
    Parses (n + 1) (ts ++ termTokens terms)
      (terms.foldl (fun l t => .binary t.1 l t.2.2) x) := by
  intro fuel rest hfuel hstops
  rw [List.length_append] at hfuel
  have hfirst := hts fuel (termTokens terms ++ rest) (by omega)
    (stops_termTokens (fun t ht => (hterms t ht).1) hstops)
  have hcount := length_le_length_termTokens terms
  rw [List.append_assoc, level, hfirst, Option.bind_eq_bind, Option.bind_some]
  dsimp only
  rw [if_pos hn]
  exact operations_eq hterms (by omega) (by rw [List.length_append]; omega) hstops

-- Equally loose operators are read from the left, and tighter ones first.
example : parse? "a - b - c * -d" =
    some (.binary (.arith ⟨.additive, .inverse⟩)
      (.binary (.arith ⟨.additive, .inverse⟩) (.name "a") (.name "b"))
      (.binary (.arith ⟨.multiplicative, .direct⟩) (.name "c") (.neg (.name "d")))) := by
  cbv

end Parsing

end C

end Straightline
