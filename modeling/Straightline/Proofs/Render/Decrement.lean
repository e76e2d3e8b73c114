import Straightline.Proofs.Render.Literals
import Straightline.Proofs.Render.Statements

/-!
# Decrements in written expressions

Two adjacent minus signs are one token of C. A minus sign is written before a blank, before the
digits of a number or an exponent, or before the operand of a negation, which begins with a minus
sign only if it is a negative number that is not enclosed. The only such number is negative zero. So
a written expression has adjacent minus signs exactly where it negates a negative zero.
-/

namespace Straightline

namespace C

/-- Two minus signs are adjacent in a text. -/
def Decrements (text : String) : Prop := ['-', '-'] <:+: text.toList

/-- A text begins with a minus sign. -/
def LeadsMinus (text : String) : Prop := text.toList.head? = some '-'

/-- A text ends with a minus sign. -/
def EndsMinus (text : String) : Prop := text.toList.getLast? = some '-'

instance : DecidablePred Decrements := fun _ => List.decidableInfix _ _

instance : DecidablePred LeadsMinus :=
  fun text => inferInstanceAs (Decidable (text.toList.head? = some '-'))

instance : DecidablePred EndsMinus :=
  fun text => inferInstanceAs (Decidable (text.toList.getLast? = some '-'))

/-- Adjacent minus signs lie in one of two parts, or where they meet. -/
theorem decrements_append (a b : String) :
    Decrements (a ++ b) ↔ Decrements a ∨ Decrements b ∨ EndsMinus a ∧ LeadsMinus b := by
  rw [Decrements, String.toList_append, List.infix_append_iff]
  constructor
  · rintro (ha | hb | ⟨l, r, heq, ha, hb⟩)
    · exact .inl ha
    · exact .inr (.inl hb)
    · rcases l with _ | ⟨c, _ | ⟨d, l⟩⟩
      · obtain rfl : ['-', '-'] = r := heq
        exact .inr (.inl hb.isInfix)
      · obtain ⟨rfl, rfl⟩ : '-' = c ∧ ['-'] = r := by simpa using heq
        exact .inr (.inr ⟨List.singleton_suffix_iff_getLast?_eq_some.mp ha,
          List.singleton_prefix_iff_head?_eq_some.mp hb⟩)
      · obtain ⟨rfl, rfl, rfl, rfl⟩ : '-' = c ∧ '-' = d ∧ l = [] ∧ r = [] := by simpa using heq
        exact .inl ha.isInfix
  · rintro (ha | hb | ⟨ha, hb⟩)
    · exact .inl ha
    · exact .inr (.inl hb)
    · exact .inr (.inr ⟨['-'], ['-'], rfl, List.singleton_suffix_iff_getLast?_eq_some.mpr ha,
        List.singleton_prefix_iff_head?_eq_some.mpr hb⟩)

theorem leadsMinus_append {a : String} (ha : a ≠ "") (b : String) :
    LeadsMinus (a ++ b) ↔ LeadsMinus a := by
  have hne : a.toList ≠ [] := by simpa using ha
  rw [LeadsMinus, LeadsMinus, String.toList_append, List.head?_append_of_ne_nil _ hne]

theorem endsMinus_append (a : String) {b : String} (hb : b ≠ "") :
    EndsMinus (a ++ b) ↔ EndsMinus b := by
  have hne : b.toList ≠ [] := by simpa using hb
  rw [EndsMinus, EndsMinus, String.toList_append, List.getLast?_append_of_ne_nil _ hne]

/-- Without minus signs a text has no adjacent ones and does not begin with one. -/
theorem not_decrements_of_not_mem {s : String} (h : '-' ∉ s.toList) :
    ¬ Decrements s ∧ ¬ LeadsMinus s :=
  ⟨fun hdouble => h (hdouble.subset List.mem_cons_self), fun hhead => h (List.mem_of_head? hhead)⟩

/-- A text between others that keeps their minus signs apart. -/
def Joint (s : String) : Prop := s ≠ "" ∧ ¬ Decrements s ∧ ¬ LeadsMinus s ∧ ¬ EndsMinus s

instance : DecidablePred Joint := fun s =>
  inferInstanceAs (Decidable (s ≠ "" ∧ ¬ Decrements s ∧ ¬ LeadsMinus s ∧ ¬ EndsMinus s))

namespace Joint

variable {s : String}

theorem decrements_between (h : Joint s) (a b : String) :
    Decrements (a ++ s ++ b) ↔ Decrements a ∨ Decrements b := by
  obtain ⟨hne, hinside, hleads, hends⟩ := h
  rw [decrements_append, decrements_append, endsMinus_append a hne]
  simp only [hinside, hleads, hends, and_false, false_and, or_false]

theorem decrements_before (h : Joint s) (b : String) : Decrements (s ++ b) ↔ Decrements b := by
  have hempty : ¬ Decrements "" := by decide
  simpa only [String.empty_append, hempty, false_or] using h.decrements_between "" b

theorem decrements_behind (h : Joint s) (a : String) : Decrements (a ++ s) ↔ Decrements a := by
  have hempty : ¬ Decrements "" := by decide
  simpa only [String.append_empty, hempty, or_false] using h.decrements_between a ""

theorem decrements_inside {t : String} (h : Joint s) (h' : Joint t) (x : String) :
    Decrements (s ++ x ++ t) ↔ Decrements x := by
  rw [h'.decrements_behind, h.decrements_before]

end Joint

/-- A negation has adjacent minus signs where its operand has, or if the operand begins with one. -/
theorem decrements_minus (x : String) : Decrements ("-" ++ x) ↔ Decrements x ∨ LeadsMinus x := by
  have hone : ¬ Decrements "-" := by decide
  have hends : EndsMinus "-" := by decide
  simp only [decrements_append, hone, hends, false_or, true_and]

section Tokens

variable {cs rest : List Char} {ts : List Token} {s : String}

theorem suffix_splitNumber (last : Char) (cs : List Char) : (splitNumber last cs).2 <:+ cs := by
  induction cs generalizing last with
  | nil => exact List.suffix_refl _
  | cons c cs ih =>
    rw [splitNumber]
    split
    · exact (ih c).trans (List.suffix_cons c cs)
    · exact List.suffix_refl _

/-- Reading a token leaves the end of the text. -/
theorem suffix_of_next {token : Option Token} (h : next cs = some (token, rest)) : rest <:+ cs := by
  cases cs with
  | nil => cases h
  | cons c cs =>
    rw [next] at h
    split at h
    · cases h
      exact List.suffix_cons c _
    · split at h
      · cases h
        exact (List.dropWhile_suffix _).trans (List.suffix_cons c cs)
      · split at h
        · cases h
          exact (suffix_splitNumber c cs).trans (List.suffix_cons c cs)
        · obtain ⟨t, _, heq⟩ := Option.map_eq_some_iff.mp h
          cases heq
          exact List.drop_suffix _ _

/-- A punctuator that is read begins the text. -/
theorem prefix_of_next (h : next cs = some (some (.symbol s), rest)) : s.toList <+: cs := by
  cases cs with
  | nil => cases h
  | cons c cs =>
    rw [next] at h
    split at h
    · cases h
    · split at h
      · cases h
      · split at h
        · cases h
        · obtain ⟨t, hfind, heq⟩ := Option.map_eq_some_iff.mp h
          cases heq
          have hbegins := List.find?_some hfind
          exact List.isPrefixOf_iff_prefix.mp hbegins

/-- A punctuator that is read somewhere stands in the text. -/
theorem infix_of_lexes (h : Lexes cs ts rest) (hs : .symbol s ∈ ts) : s.toList <:+: cs := by
  induction h with
  | done => cases hs
  | @step _ _ _ token _ hnext _ ih =>
    rcases List.mem_append.mp hs with hs | hs
    · obtain rfl : token = some (.symbol s) := Option.mem_toList.mp hs
      exact (prefix_of_next hnext).isInfix
    · exact (ih hs).trans (suffix_of_next hnext).isInfix

/-- A decrement is read only where two minus signs are adjacent. -/
theorem decrements_of_lexes {text : String} (h : Lexes text.toList ts rest)
    (hmem : .symbol "--" ∈ ts) : Decrements text :=
  infix_of_lexes h hmem

end Tokens

section Literals

/-- A minus sign in a number follows the mark of the exponent. -/
theorem not_infix_of_splitNumber {last : Char} {cs : List Char}
    (h : (splitNumber last cs).2 = []) : ¬ ['-', '-'] <:+: last :: cs := by
  induction cs generalizing last with
  | nil => simp [List.infix_cons_iff]
  | cons c cs ih =>
    rw [splitNumber] at h
    split at h
    · next hcontinues =>
      intro hdouble
      rcases List.infix_cons_iff.mp hdouble with hpair | hdouble
      · obtain ⟨rfl, rfl⟩ : '-' = last ∧ '-' = c := by simpa using hpair
        exact absurd hcontinues (by decide)
      · exact ih h hdouble
    · cases h

theorem not_decrements_number {s : String} (h : isNumber s = true) :
    ¬ Decrements s ∧ ¬ LeadsMinus s := by
  obtain ⟨c, cs, hs, _, hsplit⟩ := exists_of_isNumber h
  refine ⟨?_, fun hleads => absurd (detached_number h '-' hleads) (by decide)⟩
  rw [Decrements, hs]
  exact not_infix_of_splitNumber hsplit

variable {α : Type} [Numeral α]

/-- The zero with a sign bit. -/
def isNegativeZero (v : α) : Bool :=
  !Numeral.isNaN v && !Numeral.isInfinite v && (Numeral.isNegative v && Scalar.isZero v)

/-- A constant has no adjacent minus signs, and only negative zero begins with a minus sign. -/
theorem decrements_literal [Written α] (v : α) :
    ¬ Decrements (literal v) ∧ (LeadsMinus (literal v) ↔ isNegativeZero v = true) := by
  rw [literal, isNegativeZero]
  cases hnan : Numeral.isNaN v with
  | true => exact ⟨by rw [if_pos rfl]; decide, iff_of_false (by rw [if_pos rfl]; decide) (by simp)⟩
  | false =>
    rw [if_neg Bool.false_ne_true]
    cases hinfinite : Numeral.isInfinite v with
    | true =>
      rw [if_pos rfl]
      split <;> exact ⟨by decide, iff_of_false (by decide) (by simp)⟩
    | false =>
      obtain ⟨s, hs, htext⟩ := Written.exists_number v hnan hinfinite
      obtain ⟨hinside, hleads⟩ := not_decrements_number hs
      rw [if_neg Bool.false_ne_true, htext]
      cases Numeral.isNegative v with
      | false => simpa using ⟨hinside, hleads⟩
      | true =>
        have hminus : ¬ Decrements ("-" ++ s) := by simp [decrements_minus, hinside, hleads]
        cases Scalar.isZero v with
        | false =>
          have hparens := Joint.decrements_inside (s := "(") (t := ")") (by decide) (by decide)
          simpa [hparens, leadsMinus_append] using ⟨hminus, by decide⟩
        | true =>
          simpa [leadsMinus_append] using ⟨hminus, by decide⟩

end Literals

end C

variable {α : Type} [Numeral α]

/-- A negative zero, or a copy of one. -/
def Expression.isNegativeZero : Expression α → Bool
  | .const v => C.isNegativeZero v
  | .copy x => x.isNegativeZero
  | _ => false

mutual

/-- Whether a negative zero is negated. -/
def Expression.negatesZero : Expression α → Bool
  | .stored _ => false
  | .const _ => false
  | .copy x => x.negatesZero
  | .unary op x => op = .neg && x.isNegativeZero || x.negatesZero
  | .binary _ l r => l.negatesZero || r.negatesZero
  | .select _ l r t f => l.negatesZero || r.negatesZero || (t.negatesZero || f.negatesZero)
  | .chain _ ts => ts.negateZero

/-- Whether a negative zero is negated in a term. -/
def Terms.negateZero : Terms α → Bool
  | .nil => false
  | .cons _ x rest => x.negatesZero || rest.negateZero

end

namespace C

section Text

variable {name : NodeId → String}

theorem not_leadsMinus_enclose (text : String) :
    ¬ LeadsMinus (Position.operand.enclose text) := by
  rw [Position.enclose, if_pos rfl, String.append_assoc, leadsMinus_append (by decide)]
  decide

theorem decrements_enclose (position : Position) (text : String) :
    Decrements (position.enclose text) ↔ Decrements text := by
  rw [Position.enclose]
  split
  · exact Joint.decrements_inside (by decide) (by decide) text
  · rfl

theorem joint_functionName (f : Elementary) : Joint (functionName f ++ "(") := by
  cases f <;> decide

theorem Joint.not_leadsMinus {s : String} (h : Joint s) (text : String) :
    ¬ LeadsMinus (s ++ text) := by
  rw [leadsMinus_append h.1]
  exact h.2.2.1

/-- An operand begins with a minus sign exactly if it is a negative zero: operations are enclosed or
begin with the name of a function. -/
theorem leadsMinus_operand [Written α] : ∀ e : Expression α,
    e.Loads (fun id => '-' ∉ (name id).toList) →
    (LeadsMinus (expressionText name .operand e) ↔ e.isNegativeZero = true)
  | .stored _, hloads => iff_of_false (not_decrements_of_not_mem hloads).2 Bool.false_ne_true
  | .const v, _ => (decrements_literal v).2
  | .copy x, hloads => leadsMinus_operand x hloads
  | .unary .neg _, _ => iff_of_false (not_leadsMinus_enclose _) Bool.false_ne_true
  | .unary .sign x, _ => by
    have hopen : Joint "(" := by decide
    refine iff_of_false ?_ Bool.false_ne_true
    simpa only [expressionText, signText, String.append_assoc] using hopen.not_leadsMinus _
  | .unary (.call f) x, _ => by
    refine iff_of_false ?_ Bool.false_ne_true
    rw [expressionText, String.append_assoc]
    exact (joint_functionName f).not_leadsMinus _
  | .binary (.arith _) _ _, _ => iff_of_false (not_leadsMinus_enclose _) Bool.false_ne_true
  | .binary .pow l r, _ => by
    have hpow : Joint "pow(" := by decide
    refine iff_of_false ?_ Bool.false_ne_true
    simpa only [expressionText, String.append_assoc] using hpow.not_leadsMinus _
  | .select .., _ => iff_of_false (not_leadsMinus_enclose _) Bool.false_ne_true
  | .chain _ _, _ => iff_of_false (not_leadsMinus_enclose _) Bool.false_ne_true

theorem decrements_signText (x : String) : Decrements (signText x) ↔ Decrements x := by
  have hopen : Joint "(" := by decide
  have habove : Joint " > 0 ? 1 : (" := by decide
  have hzero : Joint " == 0 ? 0 : -1))" := by decide
  rw [signText, hzero.decrements_behind, habove.decrements_between, hopen.decrements_before,
    or_self]

theorem joint_operator (op : Operator) : Joint (" " ++ op.symbol ++ " ") := by
  rcases op with ⟨⟨_ | _, _ | _⟩⟩ | ⟨_ | _⟩ <;> decide

theorem decrements_binary (op : Operator) (a b : String) :
    Decrements (a ++ " " ++ op.symbol ++ " " ++ b) ↔ Decrements a ∨ Decrements b := by
  have h := (joint_operator op).decrements_between a b
  simpa only [String.append_assoc] using h

theorem termText_false (family : Family) (sense : Sense) (x : String) :
    termText family false sense x = " " ++ (Operator.arith ⟨family, sense⟩).symbol ++ " " ++ x := by
  cases family <;> rfl

/-- A term behind the first one begins with a blank. -/
theorem not_leadsMinus_termsText (family : Family) (ts : Terms α) :
    ¬ LeadsMinus (termsText name family false ts) := by
  cases ts with
  | nil =>
    rw [termsText]
    decide
  | cons sense x rest =>
    rw [termsText, termText_false, String.append_assoc]
    exact (joint_operator _).not_leadsMinus _

mutual

/-- The text of an expression has adjacent minus signs exactly if a negative zero is negated. -/
theorem decrements_expressionText [Written α] : ∀ (e : Expression α) (position : Position), e.Led →
    e.Loads (fun id => '-' ∉ (name id).toList) →
    (Decrements (expressionText name position e) ↔ e.negatesZero = true)
  | .stored _, _, _, hloads =>
    iff_of_false (not_decrements_of_not_mem hloads).1 Bool.false_ne_true
  | .const v, _, _, _ => iff_of_false (decrements_literal v).1 Bool.false_ne_true
  | .copy x, position, hled, hloads => decrements_expressionText x position.ofCopy hled hloads
  | .unary .neg x, position, hled, hloads => by
    -- Nowhere else is a minus sign written directly before an operand.
    rw [expressionText, decrements_enclose, decrements_minus,
      decrements_expressionText x .operand hled hloads, leadsMinus_operand x hloads,
      Expression.negatesZero]
    simp [or_comm]
  | .unary .sign x, _, hled, hloads => by
    rw [expressionText, decrements_signText, decrements_expressionText x .argument hled hloads,
      Expression.negatesZero]
    simp
  | .unary (.call f) x, _, hled, hloads => by
    rw [expressionText, (joint_functionName f).decrements_inside (by decide),
      decrements_expressionText x .argument hled hloads, Expression.negatesZero]
    simp
  | .binary (.arith tag) l r, position, hled, hloads => by
    have hbinary := decrements_binary (.arith tag) (expressionText name .operand l)
      (expressionText name .operand r)
    rw [expressionText, decrements_enclose]
    rw [decrements_expressionText l .operand hled.1 hloads.1,
      decrements_expressionText r .operand hled.2 hloads.2] at hbinary
    rw [Expression.negatesZero, Bool.or_eq_true]
    exact hbinary
  | .binary .pow l r, _, hled, hloads => by
    have hpow : Joint "pow(" := by decide
    have hcomma : Joint ", " := by decide
    have hclose : Joint ")" := by decide
    rw [expressionText, hclose.decrements_behind, hcomma.decrements_between,
      hpow.decrements_before, decrements_expressionText l .argument hled.1 hloads.1,
      decrements_expressionText r .argument hled.2 hloads.2, Expression.negatesZero,
      Bool.or_eq_true]
  | .select c l r t f, position, hled, hloads => by
    have hquestion : Joint " ? " := by decide
    have hcolon : Joint " : " := by decide
    have hcondition := decrements_binary (.compare c) (expressionText name .operand l)
      (expressionText name .operand r)
    rw [decrements_expressionText l .operand hled.1 hloads.1,
      decrements_expressionText r .operand hled.2.1 hloads.2.1] at hcondition
    rw [expressionText, decrements_enclose, hcolon.decrements_between,
      hquestion.decrements_between, decrements_expressionText t .operand hled.2.2.1 hloads.2.2.1,
      decrements_expressionText f .operand hled.2.2.2 hloads.2.2.2, Expression.negatesZero,
      Bool.or_eq_true, Bool.or_eq_true, Bool.or_eq_true, or_assoc]
    exact or_congr_left hcondition
  | .chain _ .nil, _, hled, _ => by cases hled.1
  | .chain _ (.cons .inverse _ _), _, hled, _ => by cases hled.1
  | .chain family (.cons .direct x rest), position, hled, hloads => by
    -- A chain that began with an inverse term would write a minus sign before its operand.
    have hfirst : termText family true .direct (expressionText name .operand x) =
        expressionText name .operand x := by cases family <;> rfl
    rw [expressionText, decrements_enclose, termsText, hfirst, decrements_append,
      decrements_expressionText x .operand hled.2.1 hloads.1,
      decrements_termsText rest family hled.2.2 hloads.2, Expression.negatesZero,
      Terms.negateZero, Bool.or_eq_true]
    simp only [not_leadsMinus_termsText, and_false, or_false]

/-- The same for the terms behind the first one. -/
theorem decrements_termsText [Written α] : ∀ (ts : Terms α) (family : Family), ts.Led →
    ts.Loads (fun id => '-' ∉ (name id).toList) →
    (Decrements (termsText name family false ts) ↔ ts.negateZero = true)
  | .nil, _, _, _ => by
    rw [termsText]
    exact iff_of_false (by decide) Bool.false_ne_true
  | .cons sense x rest, family, hled, hloads => by
    have hoperator := joint_operator (.arith ⟨family, sense⟩)
    rw [termsText, termText_false, decrements_append, hoperator.decrements_before,
      decrements_expressionText x .operand hled.1 hloads.1,
      decrements_termsText rest family hled.2 hloads.2, Terms.negateZero, Bool.or_eq_true]
    simp only [not_leadsMinus_termsText, and_false, or_false]

end

end Text

/-- A statement has the adjacent minus signs of its indentation and of its expression. -/
theorem decrements_statement [Written α] {name : NodeId → String} {s : Statement α}
    (htarget : '-' ∉ s.target.toList) (hled : s.value.Led)
    (hloads : s.value.Loads fun id => '-' ∉ (name id).toList) (style : Style) :
    Decrements (s.text style name) ↔
      Decrements style.indentation ∨ s.value.negatesZero = true := by
  have hassign : Joint " = " := by decide
  have hend : Joint ";\n" := by decide
  obtain ⟨hinside, hleads⟩ := not_decrements_of_not_mem htarget
  rw [Statement.text, Style.line, hend.decrements_behind, hassign.decrements_between,
    decrements_append, decrements_expressionText s.value s.position hled hloads]
  simp only [hinside, hleads, and_false, or_false]

end C

section Spared

/-- An operand other than a negative zero. -/
def Arg.Spared (x : Arg α) : Prop := ∀ v, x = .const v → C.isNegativeZero v = false

/-- Copies and operations of one operand are not of a negative zero. -/
def Operation.Spares : Operation (Arg α) → Prop
  | .copy x => x.Spared
  | .unary _ x => x.Spared
  | _ => True

theorem Arg.spared_node (k : NodeId) : (Arg.node k : Arg α).Spared := by
  rintro v ⟨⟩

namespace Flattening

variable {g : Graph α} {f : Flattening α}

/-- Nothing that is built copies or negates a negative zero. -/
structure Spares (f : Flattening α) : Prop where
  /-- No node stands for a negative zero. -/
  image : ∀ k, (f.image (.node k)).Spared
  /-- Copies and operations of one operand are not of a negative zero. -/
  built : f.Each Operation.Spares

theorem Spares.assign (h : f.Spares) {op : Operation (Arg α)} (hop : op.Spares) (id : NodeId)
    (name : Option String) (host : NodeId) : (f.assign id name host op).Spares where
  image k := by
    rw [image_assign]
    split
    · exact Arg.spared_node host
    · exact h.image k
  built := h.built.assign hop id name host

theorem Spares.derive (h : f.Spares) {op : Operation (Arg α)} (hop : op.Spares) (id : NodeId)
    (name : Option String) : (f.derive id name op).Spares :=
  Spares.assign (f := { f with count := f.count + 1, next := f.next + 1 }) ⟨h.image, h.built⟩ hop id
    name f.next

theorem Spares.makeChain (h : f.Spares) (b : NodeId) (family : Family)
    (terms : List (Sense × Arg α)) : (f.makeChain b family terms).Spares where
  image := h.image
  built k n hn := by
    rw [Flattening.makeChain, Table.get_modify] at hn
    split at hn
    · obtain ⟨m, _, rfl⟩ := Option.map_eq_some_iff.mp hn
      trivial
    · exact h.built k n hn

theorem Spares.combine (h : f.Spares) (id : NodeId) (name : Option String) (tag : Tag)
    (l r : Arg α) : (f.combine g id name tag l r).Spares := by
  unfold Flattening.combine
  split
  · rw [assign_withdraw]
    exact (h.makeChain _ _ _).assign (by trivial) id name _
  · rw [assign_withdraw]
    exact h.assign (by trivial) id name _
  · exact h.assign (by trivial) id name _
  · exact h.derive (by trivial) id name

/-- What stands for an operand is no negative zero either. -/
theorem Spares.spared_image (h : f.Spares) {x : Arg α} (hx : x.Spared) : (f.image x).Spared := by
  cases x with
  | const v => exact hx
  | node k => exact h.image k

theorem Spares.spares_map (h : f.Spares) {op : Operation (Arg α)} (hop : op.Spares) :
    (op.map f.image).Spares := by
  cases op with
  | copy x => exact h.spared_image hop
  | unary u x => exact h.spared_image hop
  | _ => trivial

theorem Spares.remember (h : f.Spares) (id : NodeId) {y : Arg α} (hy : y.Spared) :
    (f.remember id y).Spares where
  image k := by
    rw [image_remember]
    split
    · exact hy
    · exact h.image k
  built := h.built

/-- One step of flattening. -/
theorem Spares.build (h : f.Spares) (hg : g.Each Operation.Spares) (id : NodeId) :
    (f.build g id).Spares := by
  unfold Flattening.build
  split
  · exact h
  · next node hnode =>
    have hop := hg id node.operation (by rw [Graph.operation?, hnode, Option.map_some])
    split
    · exact h.remember id (Arg.spared_node id)
    · next x heq =>
      rw [heq] at hop
      have hx := h.spared_image hop
      split
      · exact h.remember id hx
      · exact h.derive (by exact hx) id node.name
    · exact h.combine id node.name _ _ _
    · exact h.derive (h.spares_map hop) id node.name

/-- A whole run. -/
theorem Spares.run (h : f.Spares) (hg : g.Each Operation.Spares) (ids : List NodeId) :
    (ids.foldl (Flattening.build g) f).Spares := by
  induction ids generalizing f with
  | nil => exact h
  | cons id ids ih => exact ih (h.build hg id)

end Flattening

/-- What an operand expands to if negative zeros are spared. -/
def Expression.Spared (x : Arg α) (e : Expression α) : Prop :=
  e.negatesZero = false ∧ (x.Spared → e.isNegativeZero = false)

theorem Terms.negateZero_ofList {ts : List (Sense × Expression α)}
    (h : ∀ t ∈ ts, t.2.negatesZero = false) : (ofList ts).negateZero = false := by
  induction ts with
  | nil => rfl
  | cons t ts ih =>
    rw [ofList, negateZero, h t List.mem_cons_self, ih fun u hu => h u (List.mem_cons_of_mem _ hu),
      Bool.or_self]

/-- An operation that spares negative zeros does not negate them. -/
theorem Expression.Unfolds.spared {op : Operation (Arg α)} {e : Expression α}
    (h : Unfolds Expression.Spared op e) (hop : op.Spares) :
    e.negatesZero = false ∧ e.isNegativeZero = false := by
  cases h with
  | copy hx => exact ⟨hx.1, hx.2 hop⟩
  | unary hx => exact ⟨by simp [negatesZero, hx.1, hx.2 hop], rfl⟩
  | binary hl hr => exact ⟨by simp [negatesZero, hl.1, hr.1], rfl⟩
  | select hl hr ht hf => exact ⟨by simp [negatesZero, hl.1, hr.1, ht.1, hf.1], rfl⟩
  | chain hall =>
    refine ⟨Terms.negateZero_ofList fun u hu => ?_, rfl⟩
    obtain ⟨t, _, _, ht⟩ := exists_mem_of_forall₂ hall hu
    exact ht.1

namespace Graph

variable {g : Graph α} {e : Expression α}

/-- The expressions of a graph that spares negative zeros do not negate them. -/
theorem Each.spared_expand (h : g.Each Operation.Spares) {depth : Nat} {x : Arg α}
    (he : g.expand depth x = .ok e) : e.Spared x :=
  expand_induction (fun v => ⟨rfl, fun hv => hv v rfl⟩) (fun _ _ => ⟨rfl, fun _ => rfl⟩)
    (fun id op _ hop _ hunfolds => (hunfolds.spared (h id op hop)).imp_right fun hx _ => hx) he

theorem Each.negatesZero_expandNode (h : g.Each Operation.Spares) {id : NodeId}
    (he : g.expandNode id = .ok e) : e.negatesZero = false := by
  obtain ⟨op, hop, hunfolds⟩ := exists_unfolds (fun _ _ _ => h.spared_expand) he
  exact (hunfolds.spared (h id op hop)).1

/-- No recorded node is a copy of a negative zero. -/
def Spared (g : Graph α) : Prop :=
  ∀ id node v, g.recorded.get id = some node → node.operation = .copy (.const v) →
    C.isNegativeZero v = false

/-- The same as a check of all issued identifiers. -/
def isSpared (g : Graph α) : Bool :=
  (List.range g.next).all fun id => (g.recorded.get id).all fun node =>
    match node.operation with
    | .copy (.const v) => !C.isNegativeZero v
    | _ => true

theorem WellFormed.spared (h : g.WellFormed) (hcheck : g.isSpared = true) : g.Spared := by
  intro id node v hnode hop
  have hlt : id < g.next := h.issued id (contains_of_recorded hnode)
  have hid := List.all_eq_true.mp hcheck id (List.mem_range.mpr hlt)
  rw [hnode, Option.all_some, hop] at hid
  simpa using hid

/-- Recording evaluates operations on constants, so that only copies can hold a negative zero. -/
theorem WellFormed.spares_recorded (h : g.WellFormed) (hspared : g.Spared) {id : NodeId}
    {node : Node α} (hnode : g.recorded.get id = some node) : node.operation.Spares := by
  have hgrounded := h.grounded id node hnode
  cases hop : node.operation with
  | copy x =>
    rintro v rfl
    exact hspared id node v hnode hop
  | unary u x =>
    rintro v rfl
    rw [hop] at hgrounded
    exact absurd rfl (hgrounded (by simp [Operation.opcode]) (by simp [Operation.opcode]))
  | _ => trivial

/-- If no recorded node copies a negative zero, a pass makes no copy or negation of one. -/
theorem WellFormed.spares_shared (h : g.WellFormed) (hspared : g.Spared) (optimize reuse : Bool)
    (policy : Policy α) (outputs : List (Arg α)) :
    ((g.prepared optimize policy outputs).2.shared reuse).Each Operation.Spares := by
  have hstart : ∀ g : Graph α, (Flattening.start g).Spares :=
    fun g => ⟨Arg.spared_node, fun b n hn => by simp [Flattening.start] at hn⟩
  exact each_shared_of_built (fun _ _ => h.spares_recorded hspared) optimize reuse policy outputs
    fun hg ids => ((hstart _).run hg ids).built

end Graph

/-- Then no statement negates a negative zero. -/
theorem C.Assigns.negatesZero {b : Bundle α} {s : C.Statement α} {x : Arg α}
    (h : C.Assigns b s x) (hspares : b.graph.Each Operation.Spares) :
    s.value.negatesZero = false := by
  rcases h.source with ⟨id, _, _, _, hexpand⟩ | ⟨i, _, _, hexpand⟩
  · exact hspares.negatesZero_expandNode hexpand
  · exact (hspares.spared_expand hexpand).1

end Spared

end Straightline
