import Straightline.Proofs.Render.Denotation

/-!
# Written expressions are parsed back

The text of an expression is put together from the texts of its operands. Each way to do this reads
as one rule of the grammar, provided that the operands are read at levels that bind tightly enough.
So the text of an expression is parsed as its tree if two things never happen: the negation of a
constant, which might begin with a minus sign of its own, and the sign of a select.
-/

namespace Straightline

namespace C

/-- A text is read as a tree at a level of the grammar, whatever closes or follows it. -/
def Reads (n : Nat) (text : String) (x : Tree) : Prop :=
  ∃ ts, Scans Fence text ts ∧ Parses n ts x

/-- A text of operators and right operands is read as what they do to the tree before them. -/
def ReadsTerms (n : Nat) (text : String) (f : Tree → Tree) : Prop :=
  ∃ terms, Scans Fence text (termTokens terms) ∧ (∀ c, text.toList.head? = some c → c = ' ') ∧
    (∀ t ∈ terms, t.1.looseness = n ∧ Parses n t.2.1 t.2.2) ∧
    ∀ x, f x = terms.foldl (fun l t => .binary t.1 l t.2.2) x

/-- A text that does not prolong a minus sign before it. -/
def Detached (text : String) : Prop := ∀ c, text.toList.head? = some c → c ∉ ['-', '=', '>']

section Rules

variable {n m : Nat} {a b s : String} {x y : Tree}

theorem Reads.parse?_eq (h : Reads 5 a x) : parse? a = some x := by
  obtain ⟨ts, hscans, hparses⟩ := h
  have hall := hparses ts.length [] (Nat.le_succ _) (by rintro t ⟨⟩)
  rw [List.append_nil] at hall
  rw [parse?, hscans.tokens?_eq, Option.bind_eq_bind, Option.bind_some, expression, hall]
  rfl

theorem Reads.mono (h : Reads n a x) (hle : n ≤ m) (hm : m ≤ 5) : Reads m a x := by
  obtain ⟨ts, hscans, hparses⟩ := h
  exact ⟨ts, hscans, hparses.mono hle hm⟩

theorem not_isWordChar_of_fence {c : Char} (h : Fence c) : isWordChar c = false := by
  rcases h with rfl | rfl | rfl | rfl <;> rfl

theorem reads_number (h : isNumber s = true) : Reads 0 s (.number s) :=
  ⟨_, scans_number h, parses_number h⟩

theorem reads_name (h : isIdentifier s = true) : Reads 0 s (.name s) :=
  ⟨_, (scans_word h).mono fun _ => not_isWordChar_of_fence, parses_name h⟩

/-- A closing bracket ends an expression, and anything may follow it. -/
theorem Scans.close {ts : List Token} (h : Scans Fence a ts) {bracket : String}
    (hb : bracket = ")" ∨ bracket = "]") :
    Scans Fence (a ++ bracket) (ts ++ [.symbol bracket]) := by
  rcases hb with rfl | rfl
  · exact (h.append_of_head (scans_bracket (by decide)) rfl (.inr (.inl rfl))).mono
      fun _ _ => trivial
  · exact (h.append_of_head (scans_bracket (by decide)) rfl (.inr (.inr (.inr rfl)))).mono
      fun _ _ => trivial

theorem Reads.paren (h : Reads 5 a x) : Reads 0 ("(" ++ a ++ ")") x := by
  obtain ⟨ts, hscans, hparses⟩ := h
  have hopen := (scans_bracket (s := "(") (by decide)).append hscans
  exact ⟨_, hopen.close (.inl rfl), hparses.paren⟩

/-- A minus sign before a text that does not prolong it. -/
theorem Reads.neg (h : Reads 0 a x) (hdetached : Detached a) : Reads 0 ("-" ++ a) (.neg x) := by
  obtain ⟨ts, hscans, hparses⟩ := h
  refine ⟨_, scans_minus.append_of_forall hscans hdetached ?_, hparses.neg⟩
  rintro c (rfl | rfl | rfl | rfl) <;> decide

theorem detached_paren (s : String) : Detached ("(" ++ s) := by
  rintro c hc
  obtain rfl : '(' = c := by simpa using hc
  decide

theorem detached_identifier (h : isIdentifier s = true) (rest : String) :
    Detached (s ++ rest) := by
  rw [isIdentifier] at h
  split at h
  · cases h
  · next d cs hs =>
    simp only [Bool.and_eq_true] at h
    intro c hc hmem
    rw [String.toList_append, hs] at hc
    cases hc
    simp only [List.mem_cons, List.not_mem_nil, or_false] at hmem
    rcases hmem with rfl | rfl | rfl <;> cases h.1.1

theorem detached_number (h : isNumber s = true) : Detached s := by
  obtain ⟨d, cs, hs, hd, _⟩ := exists_of_isNumber h
  intro c hc hmem
  rw [hs] at hc
  cases hc
  simp only [List.mem_cons, List.not_mem_nil, or_false] at hmem
  rcases hmem with rfl | rfl | rfl <;> cases hd

/-- A word before brackets. -/
theorem scans_word_append (h : isIdentifier s = true) {bracket : String}
    (hb : bracket = "(" ∨ bracket = "[") :
    Scans Anything (s ++ bracket) [.word s, .symbol bracket] := by
  rcases hb with rfl | rfl
  · exact (scans_word h).append_of_head (scans_bracket (by decide)) rfl rfl
  · exact (scans_word h).append_of_head (scans_bracket (by decide)) rfl rfl

theorem Reads.element (h : Reads 5 a x) (hs : isIdentifier s = true) :
    Reads 0 (s ++ "[" ++ a ++ "]") (.element s x) := by
  obtain ⟨ts, hscans, hparses⟩ := h
  have hopen := (scans_word_append hs (.inr rfl)).append hscans
  exact ⟨_, hopen.close (.inr rfl), hparses.element hs⟩

theorem Reads.call (h : Reads 5 a x) (hs : isIdentifier s = true) :
    Reads 0 (s ++ "(" ++ a ++ ")") (.call s (.cons x .nil)) := by
  obtain ⟨ts, hscans, hparses⟩ := h
  have hopen := (scans_word_append hs (.inl rfl)).append hscans
  exact ⟨_, hopen.close (.inl rfl), hparses.call hs⟩

theorem Reads.call₂ (h : Reads 5 a x) (h' : Reads 5 b y) (hs : isIdentifier s = true) :
    Reads 0 (s ++ "(" ++ a ++ ", " ++ b ++ ")") (.call s (.cons x (.cons y .nil))) := by
  obtain ⟨ts, hscans, hparses⟩ := h
  obtain ⟨us, hscans', hparses'⟩ := h'
  have hcomma : Scans Anything ", " [.symbol ","] :=
    (scans_bracket (s := ",") (by decide)).append scans_blank
  have hopen := (scans_word_append hs (.inl rfl)).append hscans
  have hmiddle := (hopen.append_of_head hcomma rfl (.inr (.inr (.inl rfl)))).append hscans'
  exact ⟨_, hmiddle.close (.inl rfl), hparses.call₂ hparses' hs⟩

theorem readsTerms_nil (n : Nat) : ReadsTerms n "" id :=
  ⟨[], fun _ _ => .done, by rintro c ⟨⟩, by rintro t ⟨⟩, fun _ => rfl⟩

/-- An operator between blanks, its right operand, and more of them. -/
theorem Reads.cons (op : Operator) {f : Tree → Tree} (h : Reads n a x) (hop : op.looseness = n)
    (hrest : ReadsTerms n b f) :
    ReadsTerms n (" " ++ op.symbol ++ " " ++ a ++ b) fun l => f (.binary op l x) := by
  obtain ⟨ts, hscans, hparses⟩ := h
  obtain ⟨terms, hterms, hhead, hall, hf⟩ := hrest
  have hspaced : Scans Anything (" " ++ op.symbol ++ " ") [.symbol op.symbol] := by
    apply scans_spaced
    rcases op with ⟨⟨_ | _, _ | _⟩⟩ | ⟨_ | _⟩ <;> decide
  refine ⟨(op, ts, x) :: terms, ?_, ?_, ?_, fun l => hf _⟩
  · exact (hspaced.append hscans).append_of_forall hterms (fun c hc => .inl (hhead c hc))
      fun _ hc => hc
  · intro c hc
    simpa using hc.symm
  · rintro t (_ | ⟨_, ht⟩)
    · exact ⟨hop, hparses⟩
    · exact hall t ht

/-- Operators from left to right. -/
theorem Reads.terms {f : Tree → Tree} (h : Reads n a x) (hn : n < 4) (hterms : ReadsTerms n b f) :
    Reads (n + 1) (a ++ b) (f x) := by
  obtain ⟨ts, hscans, hparses⟩ := h
  obtain ⟨terms, hterms, hhead, hall, hf⟩ := hterms
  rw [hf]
  exact ⟨_, hscans.append_of_forall hterms (fun c hc => .inl (hhead c hc)) fun _ hc => hc,
    hparses.operations hn hall⟩

/-- A binary operation on operands that bind tighter. -/
theorem Reads.binary (op : Operator) (h : Reads op.looseness a x) (h' : Reads op.looseness b y) :
    Reads (op.looseness + 1) (a ++ " " ++ op.symbol ++ " " ++ b) (.binary op x y) := by
  have hn : op.looseness < 4 := by
    rcases op with ⟨⟨_ | _, _ | _⟩⟩ | ⟨_ | _⟩ <;> decide
  have hterms := h'.cons op rfl (readsTerms_nil op.looseness)
  simpa only [String.append_assoc, String.append_empty, id] using h.terms hn hterms

theorem Reads.choice {c : String} {z : Tree} (hc : Reads 4 c z) (h : Reads 5 a x)
    (h' : Reads 5 b y) : Reads 5 (c ++ " ? " ++ a ++ " : " ++ b) (.choice z x y) := by
  obtain ⟨cs, hscans₀, hparses₀⟩ := hc
  obtain ⟨ts, hscans, hparses⟩ := h
  obtain ⟨us, hscans', hparses'⟩ := h'
  have hquestion := hscans₀.append_of_head (scans_spaced (s := "?") (by decide)) rfl (.inl rfl)
  have hcolon := (hquestion.append hscans).append_of_head (scans_spaced (s := ":") (by decide)) rfl
    (.inl rfl)
  exact ⟨_, hcolon.append hscans', hparses₀.choice hparses hparses'⟩

end Rules

/-- Numbers are written as decimal numbers, behind a minus sign if they are negative. -/
class Written (α : Type) [Numeral α] : Prop where
  /-- The text of a finite number. -/
  exists_number : ∀ v : α, Numeral.isNaN v = false → Numeral.isInfinite v = false →
    ∃ s, isNumber s = true ∧ Numeral.text v = if Numeral.isNegative v then "-" ++ s else s

/-- A variable: an identifier, or an element of an array. -/
inductive IsPlace : String → Tree → Prop where
  /-- An identifier. -/
  | name {s : String} : isIdentifier s = true → IsPlace s (.name s)
  /-- An identifier with a subscript. -/
  | element {array index : String} {t : Tree} : isIdentifier array = true → Reads 5 index t →
      IsPlace (array ++ "[" ++ index ++ "]") (.element array t)

theorem IsPlace.reads {s : String} {t : Tree} (h : IsPlace s t) : Reads 0 s t := by
  cases h with
  | name hs => exact reads_name hs
  | element harray hindex => exact hindex.element harray

theorem IsPlace.detached {s : String} {t : Tree} (h : IsPlace s t) : Detached s := by
  cases h with
  | name hs => simpa using detached_identifier hs ""
  | element harray _ =>
    simp only [String.append_assoc]
    exact detached_identifier harray _

end C

namespace Expression

variable {α : Type}

/-- A constant, or a copy of one. -/
def isLiteral : Expression α → Bool
  | .const _ => true
  | .copy x => x.isLiteral
  | _ => false

/-- A select, or a copy of one. -/
def isChoice : Expression α → Bool
  | .select .. => true
  | .copy x => x.isChoice
  | _ => false

end Expression

mutual

/-- No constant is negated, and no sign is taken of a select. -/
def Expression.Legible {α : Type} : Expression α → Prop
  | .stored _ => True
  | .const _ => True
  | .copy x => x.Legible
  | .unary .neg x => x.isLiteral = false ∧ x.Legible
  | .unary .sign x => x.isChoice = false ∧ x.Legible
  | .unary (.call _) x => x.Legible
  | .binary _ l r => l.Legible ∧ r.Legible
  | .select _ l r t f => l.Legible ∧ r.Legible ∧ t.Legible ∧ f.Legible
  | .chain _ ts => ts.Legible

/-- The terms of a chain. -/
def Terms.Legible {α : Type} : Terms α → Prop
  | .nil => True
  | .cons _ x rest => x.Legible ∧ rest.Legible

end

namespace C

/-- The level at which the text of an expression is read: operands are primary or negative, only
selects need the lowest level. -/
def levelAt {α : Type} (position : Position) (e : Expression α) : Nat :=
  if position = .operand then 0 else if e.isChoice then 5 else 2

theorem levelAt_le {α : Type} (position : Position) (e : Expression α) :
    levelAt position e ≤ 5 := by
  rw [levelAt]
  split
  · decide
  · split <;> decide

section Text

variable {α : Type} [Numeral α] {name : NodeId → String} {place : NodeId → Tree}

theorem signedTree_of_isNumber {s : String} (h : isNumber s = true) : signedTree s = .number s := by
  rw [signedTree]
  split
  · next cs hs => exact absurd (detached_number h '-' (by rw [hs]; rfl)) (by decide)
  · rfl

theorem signedTree_minus (s : String) : signedTree ("-" ++ s) = .neg (.number s) := by
  simp [signedTree]

/-- A finite constant is read as its number; negative numbers may be enclosed. -/
theorem reads_finite {v : α} {s : String} (hs : isNumber s = true)
    (htext : Numeral.text v = if Numeral.isNegative v then "-" ++ s else s) :
    Reads 0
      (if (Numeral.isNegative v && !Scalar.isZero v) = true then "(" ++ Numeral.text v ++ ")"
        else Numeral.text v)
      (signedTree (Numeral.text v)) := by
  have hminus := (reads_number hs).neg (detached_number hs)
  rw [htext]
  cases Numeral.isNegative v with
  | false =>
    simp only [Bool.false_and, Bool.false_eq_true, if_false, signedTree_of_isNumber hs]
    exact reads_number hs
  | true =>
    simp only [if_true, signedTree_minus]
    split
    · exact (hminus.mono (Nat.zero_le 5) (Nat.le_refl 5)).paren
    · exact hminus

theorem reads_literal [Written α] (v : α) : Reads 0 (literal v) (literalTree v) := by
  have hinfinity : Reads 0 "INFINITY" (.name "INFINITY") := reads_name (by decide)
  have hminus := hinfinity.neg (detached_identifier (s := "INFINITY") (by decide) "")
  rw [literal, literalTree]
  cases hnan : Numeral.isNaN v with
  | true => exact reads_name (s := "NAN") (by decide)
  | false =>
    cases hinfinite : Numeral.isInfinite v with
    | true =>
      simp only [Bool.false_eq_true, if_false, if_true]
      split
      · exact (hminus.mono (Nat.zero_le 5) (Nat.le_refl 5)).paren
      · exact hinfinity
    | false =>
      obtain ⟨s, hs, htext⟩ := Written.exists_number v hnan hinfinite
      exact reads_finite hs htext

theorem isIdentifier_functionName (f : Elementary) : isIdentifier (functionName f) = true := by
  cases f <;> decide

/-- An operand that is no constant. -/
theorem detached_operand : ∀ e : Expression α, e.isLiteral = false →
    e.Loads (fun id => IsPlace (name id) (place id)) → Detached (expressionText name .operand e)
  | .stored _, _, hloads => IsPlace.detached hloads
  | .const _, hliteral, _ => by cases hliteral
  | .copy x, hliteral, hloads => detached_operand x hliteral hloads
  | .unary .neg x, _, _ => by
    simp only [expressionText, Position.enclose, if_true, String.append_assoc]
    exact detached_paren _
  | .unary .sign x, _, _ => by
    simp only [expressionText, signText, String.append_assoc]
    exact detached_paren _
  | .unary (.call f) x, _, _ => by
    simp only [expressionText, String.append_assoc]
    exact detached_identifier (isIdentifier_functionName f) _
  | .binary (.arith tag) l r, _, _ => by
    simp only [expressionText, Position.enclose, if_true, String.append_assoc]
    exact detached_paren _
  | .binary .pow l r, _, _ => by
    rw [expressionText, show "pow(" = "pow" ++ "(" from rfl]
    simp only [String.append_assoc]
    exact detached_identifier (by decide) _
  | .select d l r t f, _, _ => by
    simp only [expressionText, Position.enclose, if_true, String.append_assoc]
    exact detached_paren _
  | .chain family ts, _, _ => by
    simp only [expressionText, Position.enclose, if_true, String.append_assoc]
    exact detached_paren _

/-- An operation that is enclosed where it is an operand. -/
theorem Reads.enclose {n m : Nat} {text : String} {x : Tree} (h : Reads n text x) (hle : n ≤ m)
    (hm : m ≤ 5) (position : Position) :
    Reads (if position = .operand then 0 else m) (position.enclose text) x := by
  rw [Position.enclose]
  split
  · exact (h.mono (hle.trans hm) (Nat.le_refl 5)).paren
  · exact h.mono hle hm

/-- The sign of a value that binds tighter than a comparison. -/
theorem Reads.sign {text : String} {x : Tree} (h : Reads 2 text x) :
    Reads 0 (signText text) (signTree x) := by
  have hzero : Reads 0 "0" (.number "0") := reads_number (by decide)
  have hone : Reads 0 "1" (.number "1") := reads_number (by decide)
  have hminus := (reads_number (s := "1") (by decide)).neg (detached_number (by decide))
  have hbelow := (((h.mono (m := 3) (by decide) (by decide)).binary (.compare .eq)
    (hzero.mono (by decide) (by decide))).choice (hzero.mono (by decide) (by decide))
    (hminus.mono (by decide) (by decide))).paren
  have habove := (((h.binary (.compare .gt) (hzero.mono (by decide) (by decide))).mono
    (m := 4) (by decide) (by decide)).choice (hone.mono (by decide) (by decide))
    (hbelow.mono (by decide) (by decide))).paren
  have htext : signText text =
      "(" ++ (text ++ " " ++ ">" ++ " " ++ "0" ++ " ? " ++ "1" ++ " : " ++
        ("(" ++ (text ++ " " ++ "==" ++ " " ++ "0" ++ " ? " ++ "0" ++ " : " ++ ("-" ++ "1")) ++
          ")")) ++ ")" := by
    apply String.toList_injective
    simp [signText]
  rw [htext]
  exact habove

/-- The looseness of the operators of a family. -/
def familyLooseness (family : Family) : Nat := (Operator.arith ⟨family, .direct⟩).looseness

theorem looseness_arith (tag : Tag) :
    (Operator.arith tag).looseness = familyLooseness tag.family := by
  rcases tag with ⟨_ | _, _ | _⟩ <;> rfl

theorem familyLooseness_lt (family : Family) : familyLooseness family < 2 := by
  cases family <;> decide

mutual

/-- The text of a legible expression is read as its tree. -/
theorem reads_expressionText [Written α] : ∀ (e : Expression α) (position : Position), e.Led →
    e.Legible → e.Loads (fun id => IsPlace (name id) (place id)) →
    Reads (levelAt position e) (expressionText name position e) (treeOf place e)
  | .stored id, position, _, _, hloads =>
    (IsPlace.reads hloads).mono (Nat.zero_le _) (levelAt_le position _)
  | .const v, position, _, _, _ => (reads_literal v).mono (Nat.zero_le _) (levelAt_le position _)
  | .copy x, position, hled, hlegible, hloads => by
    have hx := reads_expressionText x position.ofCopy hled hlegible hloads
    cases position with
    | statement => exact hx.mono (Nat.zero_le _) (levelAt_le .statement _)
    | operand => exact hx
    | argument => exact hx
  | .unary .neg x, position, hled, hlegible, hloads => by
    have hx : Reads 0 _ _ := reads_expressionText x .operand hled hlegible.2 hloads
    have hdetached := detached_operand x hlegible.1 hloads
    rw [expressionText, treeOf]
    exact (hx.neg hdetached).enclose (m := 2) (by decide) (by decide) position
  | .unary .sign x, position, hled, hlegible, hloads => by
    have hx := reads_expressionText x .argument hled hlegible.2 hloads
    have hlevel : levelAt .argument x = 2 := by simp [levelAt, hlegible.1]
    rw [hlevel] at hx
    rw [expressionText, treeOf]
    exact hx.sign.mono (Nat.zero_le _) (levelAt_le position _)
  | .unary (.call f) x, position, hled, hlegible, hloads => by
    have hx := (reads_expressionText x .argument hled hlegible hloads).mono (m := 5)
      (levelAt_le _ x) (by decide)
    rw [expressionText, treeOf]
    exact (hx.call (isIdentifier_functionName f)).mono (Nat.zero_le _) (levelAt_le position _)
  | .binary (.arith tag) l r, position, hled, hlegible, hloads => by
    have hl : Reads 0 _ _ := reads_expressionText l .operand hled.1 hlegible.1 hloads.1
    have hr : Reads 0 _ _ := reads_expressionText r .operand hled.2 hlegible.2 hloads.2
    have hlt := familyLooseness_lt tag.family
    rw [← looseness_arith] at hlt
    rw [expressionText, treeOf]
    exact ((hl.mono (Nat.zero_le _) (by omega)).binary (.arith tag)
      (hr.mono (Nat.zero_le _) (by omega))).enclose (m := 2) hlt (by decide) position
  | .binary .pow l r, position, hled, hlegible, hloads => by
    have hl := (reads_expressionText l .argument hled.1 hlegible.1 hloads.1).mono (m := 5)
      (levelAt_le _ l) (by decide)
    have hr := (reads_expressionText r .argument hled.2 hlegible.2 hloads.2).mono (m := 5)
      (levelAt_le _ r) (by decide)
    rw [expressionText, treeOf]
    exact (hl.call₂ hr (s := "pow") (by decide)).mono (Nat.zero_le _) (levelAt_le position _)
  | .select c l r t f, position, hled, hlegible, hloads => by
    have hl : Reads 0 _ _ := reads_expressionText l .operand hled.1 hlegible.1 hloads.1
    have hr : Reads 0 _ _ := reads_expressionText r .operand hled.2.1 hlegible.2.1 hloads.2.1
    have ht : Reads 0 _ _ := reads_expressionText t .operand hled.2.2.1 hlegible.2.2.1 hloads.2.2.1
    have hf : Reads 0 _ _ := reads_expressionText f .operand hled.2.2.2 hlegible.2.2.2 hloads.2.2.2
    have hlt : (Operator.compare c).looseness < 4 := by cases c <;> decide
    have hcondition := ((hl.mono (Nat.zero_le _) (by omega)).binary (.compare c)
      (hr.mono (Nat.zero_le _) (by omega))).mono (m := 4) hlt (by decide)
    rw [expressionText, treeOf]
    exact (hcondition.choice (ht.mono (by decide) (by decide))
      (hf.mono (by decide) (by decide))).enclose (m := 5) (by decide) (by decide) position
  | .chain _ .nil, _, hled, _, _ => by cases hled.1
  | .chain _ (.cons .inverse _ _), _, hled, _, _ => by cases hled.1
  | .chain family (.cons .direct x rest), position, hled, hlegible, hloads => by
    have hx : Reads 0 _ _ := reads_expressionText x .operand hled.2.1 hlegible.1 hloads.1
    have hrest := reads_termsText rest family hled.2.2 hlegible.2 hloads.2
    have hlt := familyLooseness_lt family
    have hfirst : termText family true .direct (expressionText name .operand x) =
        expressionText name .operand x := by cases family <;> rfl
    rw [expressionText, treeOf, termsText, hfirst]
    exact ((hx.mono (Nat.zero_le _) (by omega)).terms (by omega) hrest).enclose (m := 2) hlt
      (by decide) position

/-- The text of the terms behind the first one is read as what they do to it. -/
theorem reads_termsText [Written α] : ∀ (ts : Terms α) (family : Family), ts.Led → ts.Legible →
    ts.Loads (fun id => IsPlace (name id) (place id)) →
    ReadsTerms (familyLooseness family) (termsText name family false ts)
      fun l => termsTree place family l ts
  | .nil, family, _, _, _ => readsTerms_nil _
  | .cons sense x rest, family, hled, hlegible, hloads => by
    have hx : Reads 0 _ _ := reads_expressionText x .operand hled.1 hlegible.1 hloads.1
    have hrest := reads_termsText rest family hled.2 hlegible.2 hloads.2
    have hlt := familyLooseness_lt family
    have hterm : termText family false sense (expressionText name .operand x) =
        " " ++ (Operator.arith ⟨family, sense⟩).symbol ++ " " ++
          expressionText name .operand x := by
      cases family <;> rfl
    rw [termsText, hterm]
    exact (hx.mono (m := familyLooseness family) (Nat.zero_le _) (by omega)).cons
      (.arith ⟨family, sense⟩) (looseness_arith ⟨family, sense⟩) hrest

end

end Text

end C

end Straightline
