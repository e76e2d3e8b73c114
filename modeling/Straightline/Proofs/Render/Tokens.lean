import Straightline.Render.C
import Mathlib.Data.List.TakeWhile

/-!
# Tokens of C

The lexical grammar of C as far as expressions need it: words, numbers with exponents, and all
punctuators, each taken as long as it can be. Texts are put together from parts, and a part is read
as its own tokens only if what follows does not prolong its last one. So `Scans` states how a part
is read together with the characters that may follow it.
-/

namespace Straightline

namespace C

/-- A token. -/
inductive Token where
  /-- An identifier or a keyword. -/
  | word (s : String)
  /-- A number. -/
  | number (s : String)
  /-- A punctuator. -/
  | symbol (s : String)
  deriving DecidableEq, Repr

/-- The punctuators and the openings of comments, longer ones first. -/
def symbols : List String :=
  ["%:%:", "...", "<<=", ">>=", "->", "++", "--", "<<", ">>", "<=", ">=", "==", "!=", "&&", "||",
    "*=", "/=", "%=", "+=", "-=", "&=", "^=", "|=", "##", "<:", ":>", "<%", "%>", "%:", "/*", "//",
    "[", "]", "(", ")", "\x7b", "\x7d", ".", "&", "*", "+", "-", "~", "!", "/", "%", "<", ">", "^",
    "|", "?", ":", ";", "=", ",", "#"]

/-- The words that are not identifiers. -/
def keywords : List String :=
  ["auto", "break", "case", "char", "const", "continue", "default", "do", "double", "else", "enum",
    "extern", "float", "for", "goto", "if", "inline", "int", "long", "register", "restrict",
    "return", "short", "signed", "sizeof", "static", "struct", "switch", "typedef", "union",
    "unsigned", "void", "volatile", "while"]

/-- What a word begins with. -/
def isLetter (c : Char) : Bool := c.isAlpha || c = '_'

/-- What a word goes on with. -/
def isWordChar (c : Char) : Bool := c.isAlphanum || c = '_'

/-- An identifier. -/
def isIdentifier (s : String) : Bool :=
  match s.toList with
  | [] => false
  | c :: cs => isLetter c && cs.all isWordChar && !keywords.contains s

/-- What a number goes on with after a character: a sign only after the mark of an exponent. -/
def continuesNumber (last c : Char) : Bool :=
  isWordChar c || c = '.' || (c = '+' || c = '-') && ['e', 'E', 'p', 'P'].contains last

/-- Split off the characters that a number goes on with. -/
def splitNumber : Char → List Char → List Char × List Char
  | _, [] => ([], [])
  | last, c :: cs =>
    if continuesNumber last c then (c :: (splitNumber c cs).1, (splitNumber c cs).2)
    else ([], c :: cs)

/-- Digits and nothing else. -/
def isDigits (cs : List Char) : Bool := !cs.isEmpty && cs.all Char.isDigit

/-- The exponent of a decimal number, which may be missing. -/
def isExponent : List Char → Bool
  | [] => true
  | 'e' :: '-' :: cs => isDigits cs
  | 'e' :: '+' :: cs => isDigits cs
  | 'e' :: cs => isDigits cs
  | _ => false

/-- A decimal number: digits, a point and more digits if there is one, and an exponent. -/
def isNumber (s : String) : Bool :=
  let whole := s.toList.takeWhile Char.isDigit
  !whole.isEmpty &&
    match s.toList.dropWhile Char.isDigit with
    | '.' :: cs => isDigits (cs.takeWhile Char.isDigit) && isExponent (cs.dropWhile Char.isDigit)
    | cs => isExponent cs

/-- Read one token, or skip one blank. -/
def next : List Char → Option (Option Token × List Char)
  | [] => none
  | c :: cs =>
    if c.isWhitespace then some (none, cs)
    else if isLetter c then
      some (some (.word (String.ofList (c :: cs.takeWhile isWordChar))), cs.dropWhile isWordChar)
    else if c.isDigit then
      some (some (.number (String.ofList (c :: (splitNumber c cs).1))), (splitNumber c cs).2)
    else
      (symbols.find? fun s => s.toList.isPrefixOf (c :: cs)).map fun s =>
        (some (.symbol s), (c :: cs).drop s.length)

/-- The tokens of a list of characters, with a bound on their number. -/
def lex : Nat → List Char → Option (List Token)
  | _, [] => some []
  | 0, _ => none
  | fuel + 1, cs => do
    let (token, rest) ← next cs
    return token.toList ++ (← lex fuel rest)

/-- The tokens of a text. -/
def tokens? (s : String) : Option (List Token) := lex s.length s.toList

/-- Reading tokens from a list of characters, up to what is left. -/
inductive Lexes : List Char → List Token → List Char → Prop where
  /-- Nothing is read. -/
  | done {rest : List Char} : Lexes rest [] rest
  /-- A token or a blank is read first. -/
  | step {cs ds rest : List Char} {token : Option Token} {ts : List Token} :
      next cs = some (token, ds) → Lexes ds ts rest → Lexes cs (token.toList ++ ts) rest

section Lexing

variable {cs ds rest : List Char} {ts us : List Token}

theorem Lexes.trans (h : Lexes cs ts ds) (h' : Lexes ds us rest) : Lexes cs (ts ++ us) rest := by
  induction h with
  | done => exact h'
  | step hnext _ ih =>
    rw [List.append_assoc]
    exact .step hnext (ih h')

theorem length_splitNumber_le (last : Char) (cs : List Char) :
    (splitNumber last cs).2.length ≤ cs.length := by
  induction cs generalizing last with
  | nil => exact Nat.le_refl 0
  | cons c cs ih =>
    rw [splitNumber]
    split
    · exact Nat.le_succ_of_le (ih c)
    · exact Nat.le_refl _

/-- Every step consumes a character. -/
theorem length_next {token : Option Token} (h : next cs = some (token, rest)) :
    rest.length < cs.length := by
  cases cs with
  | nil => cases h
  | cons c cs =>
    rw [next] at h
    split at h
    · cases h
      exact Nat.lt_succ_self _
    · split at h
      · cases h
        exact Nat.lt_succ_of_le (List.dropWhile_sublist _).length_le
      · split at h
        · cases h
          exact Nat.lt_succ_of_le (length_splitNumber_le c cs)
        · obtain ⟨s, hs, heq⟩ := Option.map_eq_some_iff.mp h
          cases heq
          have hpos : ∀ s ∈ symbols, 0 < s.length := by decide
          have := hpos s (List.mem_of_find?_eq_some hs)
          rw [List.length_drop, List.length_cons]
          omega

/-- Reading everything takes no more steps than there are characters. -/
theorem Lexes.lex_eq {fuel : Nat} (h : Lexes cs ts []) (hfuel : cs.length ≤ fuel) :
    lex fuel cs = some ts := by
  generalize hrest : ([] : List Char) = rest at h
  induction h generalizing fuel with
  | done =>
    subst hrest
    rw [lex]
  | @step cs ds _ _ _ hnext _ ih =>
    have hlt := length_next hnext
    cases fuel with
    | zero => omega
    | succ fuel =>
      cases cs with
      | nil => cases hnext
      | cons c cs =>
        have hds : ds.length ≤ fuel := Nat.le_of_lt_succ (Nat.lt_of_lt_of_le hlt hfuel)
        rw [lex, hnext]
        · simp only [Option.bind_eq_bind, Option.bind_some, ih hds hrest, Option.pure_def]
        · rintro ⟨⟩

end Lexing

/-- A text is read as tokens, whatever follows it that begins with an allowed character. -/
def Scans (follow : Char → Prop) (text : String) (ts : List Token) : Prop :=
  ∀ rest : List Char, (∀ c, rest.head? = some c → follow c) → Lexes (text.toList ++ rest) ts rest

/-- What may follow an expression: a blank or a closing punctuator. -/
def Fence (c : Char) : Prop := c = ' ' ∨ c = ')' ∨ c = ',' ∨ c = ']'

/-- Anything may follow. -/
def Anything (_ : Char) : Prop := True

section Scanning

variable {follow follow' : Char → Prop} {a b s : String} {ts us : List Token}

/-- The tokens of a text that is read to its end. -/
theorem Scans.tokens?_eq (h : Scans follow s ts) : tokens? s = some ts := by
  have hlexes := h [] (by simp)
  rw [List.append_nil] at hlexes
  exact hlexes.lex_eq (String.length_toList ▸ Nat.le_refl _)

theorem Scans.mono (h : Scans follow s ts) (himp : ∀ c, follow' c → follow c) :
    Scans follow' s ts :=
  fun rest hrest => h rest fun c hc => himp c (hrest c hc)

/-- A text behind another, if it or what follows it may follow that one. -/
theorem Scans.append_of_follow (ha : Scans follow a ts) (hb : Scans follow' b us)
    (hfollow : ∀ rest : List Char, (∀ c, rest.head? = some c → follow' c) →
      ∀ c, (b.toList ++ rest).head? = some c → follow c) :
    Scans follow' (a ++ b) (ts ++ us) := by
  intro rest hrest
  rw [String.toList_append, List.append_assoc]
  exact (ha _ (hfollow rest hrest)).trans (hb rest hrest)

/-- A text behind one that anything may follow. -/
theorem Scans.append (ha : Scans Anything a ts) (hb : Scans follow b us) :
    Scans follow (a ++ b) (ts ++ us) :=
  ha.append_of_follow hb fun _ _ _ _ => trivial

/-- A text that is empty or begins with a character that may follow the one before it. -/
theorem Scans.append_of_forall (ha : Scans follow a ts) (hb : Scans follow' b us)
    (hhead : ∀ c, b.toList.head? = some c → follow c) (himp : ∀ c, follow' c → follow c) :
    Scans follow' (a ++ b) (ts ++ us) := by
  refine ha.append_of_follow hb fun rest hrest d hd => ?_
  cases hb : b.toList with
  | nil => exact himp d (hrest d (by rwa [hb] at hd))
  | cons c cs => exact hhead d (by rwa [hb] at hd ⊢)

/-- A text that begins with a character that may follow the one before it. -/
theorem Scans.append_of_head {c : Char} (ha : Scans follow a ts) (hb : Scans follow' b us)
    (hhead : b.toList.head? = some c) (hc : follow c) : Scans follow' (a ++ b) (ts ++ us) := by
  refine ha.append_of_follow hb fun rest _ d hd => ?_
  rw [List.head?_append, hhead, Option.some_or, Option.some_inj] at hd
  exact hd ▸ hc

theorem scans_word (h : isIdentifier s = true) :
    Scans (fun c => isWordChar c = false) s [.word s] := by
  intro rest hrest
  rw [isIdentifier] at h
  split at h
  · cases h
  · next c cs hs =>
    simp only [Bool.and_eq_true, List.all_eq_true] at h
    have hblank : c.isWhitespace = false := by
      by_contra hnot
      have hletter := h.1.1
      simp only [Char.isWhitespace, Bool.not_eq_false, Bool.or_eq_true, decide_eq_true_eq] at hnot
      rcases hnot with ((rfl | rfl) | rfl) | rfl <;> simp [isLetter] at hletter
    have htake : (cs ++ rest).takeWhile isWordChar = cs := by
      rw [List.takeWhile_append_of_pos h.1.2]
      cases rest with
      | nil => simp
      | cons d rest => simp [hrest d rfl]
    have hdrop : (cs ++ rest).dropWhile isWordChar = rest := by
      rw [List.dropWhile_append_of_pos h.1.2]
      cases rest with
      | nil => rfl
      | cons d rest => simp [hrest d rfl]
    have hnext : next (s.toList ++ rest) = some (some (.word s), rest) := by
      rw [hs, List.cons_append, next, if_neg (by simp [hblank]), if_pos h.1.1, htake, hdrop, ← hs,
        String.ofList_toList]
    exact .step hnext .done

/-- The rest of a number that is followed by something else. -/
theorem splitNumber_append {last : Char} {cs rest : List Char}
    (hcs : (splitNumber last cs).2 = []) (hrest : ∀ c, rest.head? = some c → Fence c) :
    splitNumber last (cs ++ rest) = (cs, rest) := by
  induction cs generalizing last with
  | nil =>
    cases rest with
    | nil => rfl
    | cons d rest =>
      have hstop : continuesNumber last d = false := by
        rcases hrest d rfl with rfl | rfl | rfl | rfl <;> simp [continuesNumber, isWordChar]
      rw [List.nil_append, splitNumber, if_neg (by simp [hstop])]
  | cons c cs ih =>
    rw [splitNumber] at hcs
    split at hcs
    · next hc => rw [List.cons_append, splitNumber, if_pos hc, ih hcs]
    · cases hcs

/-- Digits are not the end of a number. -/
theorem splitNumber_digits {cs ds : List Char} (hcs : ∀ c ∈ cs, c.isDigit = true)
    (hds : ∀ last, (splitNumber last ds).2 = []) (last : Char) :
    (splitNumber last (cs ++ ds)).2 = [] := by
  induction cs generalizing last with
  | nil => exact hds last
  | cons c cs ih =>
    have hc : continuesNumber last c = true := by
      simp [continuesNumber, isWordChar, Char.isAlphanum, hcs c List.mem_cons_self]
    rw [List.cons_append, splitNumber, if_pos hc]
    exact ih (fun d hd => hcs d (List.mem_cons_of_mem _ hd)) c

/-- Nor is an exponent. -/
theorem splitNumber_exponent {cs : List Char} (h : isExponent cs = true) (last : Char) :
    (splitNumber last cs).2 = [] := by
  have hdigits : ∀ ds last, isDigits ds = true → (splitNumber last ds).2 = [] := by
    intro ds last hds
    rw [isDigits, Bool.and_eq_true, List.all_eq_true] at hds
    rw [← List.append_nil ds]
    exact splitNumber_digits hds.2 (fun _ => rfl) last
  have hmark : ∀ last, continuesNumber last 'e' = true := fun _ => rfl
  rw [isExponent.eq_def] at h
  split at h
  · rfl
  · next ds =>
    rw [splitNumber, if_pos (hmark last), splitNumber, if_pos (by decide)]
    exact hdigits ds '-' h
  · next ds =>
    rw [splitNumber, if_pos (hmark last), splitNumber, if_pos (by decide)]
    exact hdigits ds '+' h
  · next ds _ _ =>
    rw [splitNumber, if_pos (hmark last)]
    exact hdigits ds 'e' h
  · cases h

/-- A decimal number is one token. -/
theorem exists_of_isNumber (h : isNumber s = true) :
    ∃ c cs, s.toList = c :: cs ∧ c.isDigit = true ∧ (splitNumber c cs).2 = [] := by
  rw [isNumber, Bool.and_eq_true] at h
  obtain ⟨hwhole, hrest⟩ := h
  have hsplit := List.takeWhile_append_dropWhile (p := Char.isDigit) (l := s.toList)
  have htail : ∀ last, (splitNumber last (s.toList.dropWhile Char.isDigit)).2 = [] := by
    intro last
    split at hrest
    · next cs heq =>
      rw [Bool.and_eq_true] at hrest
      rw [heq, splitNumber, if_pos (by simp [continuesNumber]),
        ← List.takeWhile_append_dropWhile (p := Char.isDigit) (l := cs)]
      exact splitNumber_digits (fun c hc => List.mem_takeWhile_imp hc)
        (splitNumber_exponent hrest.2) '.'
    · exact splitNumber_exponent hrest last
  cases hdigits : s.toList.takeWhile Char.isDigit with
  | nil => simp [hdigits] at hwhole
  | cons c cs =>
    have hall : ∀ d ∈ c :: cs, d.isDigit = true := fun d hd => List.mem_takeWhile_imp (hdigits ▸ hd)
    rw [hdigits] at hsplit
    exact ⟨c, _, hsplit.symm, hall c List.mem_cons_self,
      splitNumber_digits (fun d hd => hall d (List.mem_cons_of_mem _ hd)) htail c⟩

/-- Digits are neither blanks nor letters. -/
theorem kind_of_isDigit {c : Char} (h : c.isDigit = true) :
    c.isWhitespace = false ∧ isLetter c = false := by
  have hrange : 48 ≤ c.val.toNat ∧ c.val.toNat ≤ 57 := by
    simpa [Char.isDigit, UInt32.le_iff_toNat_le] using h
  have hne : ∀ d : Char, (d.val.toNat < 48 ∨ 57 < d.val.toNat) → c ≠ d := by
    rintro d hd rfl
    omega
  constructor
  · simp [Char.isWhitespace, hne]
  · have hupper : c.isUpper = false := by
      refine decide_eq_false fun hle => ?_
      have hA : 65 ≤ c.val.toNat := UInt32.le_iff_toNat_le.mp hle.1
      omega
    have hlower : c.isLower = false := by
      refine Bool.and_eq_false_iff.mpr (.inl (decide_eq_false fun hle => ?_))
      have ha : 97 ≤ c.val.toNat := UInt32.le_iff_toNat_le.mp hle
      omega
    have halpha : c.isAlpha = false := Bool.or_eq_false_iff.mpr ⟨hupper, hlower⟩
    simp [isLetter, halpha, hne]

theorem scans_number (h : isNumber s = true) : Scans Fence s [.number s] := by
  intro rest hrest
  obtain ⟨c, cs, hs, hc, hcs⟩ := exists_of_isNumber h
  obtain ⟨hblank, hletter⟩ := kind_of_isDigit hc
  have hnext : next (s.toList ++ rest) = some (some (.number s), rest) := by
    rw [hs, List.cons_append, next, if_neg (by simp [hblank]), if_neg (by simp [hletter]),
      if_pos hc, splitNumber_append hcs hrest, ← hs, String.ofList_toList]
  exact .step hnext .done

/-- A punctuator that is the longest one at its place. -/
theorem scans_symbol {c : Char} {cs : List Char} (hs : s.toList = c :: cs)
    (hblank : c.isWhitespace = false) (hletter : isLetter c = false) (hdigit : c.isDigit = false)
    (hlongest : ∀ rest : List Char, (∀ d, rest.head? = some d → follow d) →
      (symbols.find? fun t => t.toList.isPrefixOf (s.toList ++ rest)) = some s) :
    Scans follow s [.symbol s] := by
  intro rest hrest
  have hnext : next (s.toList ++ rest) = some (some (.symbol s), rest) := by
    rw [hs, List.cons_append, next, if_neg (by simp [hblank]), if_neg (by simp [hletter]),
      if_neg (by simp [hdigit]), ← List.cons_append, ← hs, hlongest rest hrest, Option.map_some,
      ← String.length_toList, List.drop_left]
  exact .step hnext .done

/-- Parentheses, brackets and commas do not begin longer punctuators. -/
theorem scans_bracket (h : s ∈ ["(", ")", "[", "]", ","]) : Scans Anything s [.symbol s] := by
  simp only [List.mem_cons, List.not_mem_nil, or_false] at h
  rcases h with rfl | rfl | rfl | rfl | rfl <;>
    exact scans_symbol rfl rfl rfl rfl fun _ _ => rfl

/-- A minus sign stands alone unless it begins a longer punctuator. -/
theorem scans_minus : Scans (fun c => c ∉ ['-', '=', '>']) "-" [.symbol "-"] := by
  have hlist : "-".toList = ['-'] := rfl
  refine scans_symbol hlist rfl rfl rfl fun rest hrest => ?_
  cases rest with
  | nil => rfl
  | cons d rest =>
    have hd := hrest d rfl
    simp only [List.mem_cons, List.not_mem_nil, or_false, not_or] at hd
    simp [symbols, Ne.symm hd.1, Ne.symm hd.2.1, Ne.symm hd.2.2]

theorem scans_blank : Scans Anything " " [] := by
  intro rest _
  have hnext : next (' ' :: rest) = some (none, rest) := rfl
  exact .step hnext .done

/-- An operator between blanks. -/
theorem scans_spaced (h : s ∈ ["+", "-", "*", "/", "<", "<=", "==", ">=", ">", "!=", "?", ":"]) :
    Scans Anything (" " ++ s ++ " ") [.symbol s] := by
  have hsymbol : Scans (fun c => c = ' ') s [.symbol s] := by
    simp only [List.mem_cons, List.not_mem_nil, or_false] at h
    rcases h with rfl | rfl | rfl | rfl | rfl | rfl | rfl | rfl | rfl | rfl | rfl | rfl <;>
    · refine scans_symbol rfl rfl rfl rfl fun rest hrest => ?_
      cases rest with
      | nil => rfl
      | cons d rest =>
        obtain rfl := hrest d rfl
        rfl
  exact (scans_blank.append hsymbol).append_of_head scans_blank rfl rfl

end Scanning

end C

end Straightline
