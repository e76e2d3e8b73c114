import Straightline.Proofs.Render.Parsing

/-!
# Machine numbers as C literals

A finite machine number is written in scientific form, which is a decimal number of C with a minus
sign before it if the sign bit is set. The subscript of an array element is a decimal number too, so
that elements of arrays are read as places.
-/

namespace Straightline

namespace C

theorem isDigits_toDigits (n : Nat) : isDigits (Nat.toDigits 10 n) = true := by
  rw [isDigits, Bool.and_eq_true, List.all_eq_true]
  refine ⟨?_, fun c hc => Nat.isDigit_of_mem_toDigits (by decide) (by decide) hc⟩
  cases hdigits : Nat.toDigits 10 n with
  | nil => exact absurd hdigits Nat.toDigits_ne_nil
  | cons c cs => rfl

/-- The decimal digits of a natural number. -/
theorem isNumber_toString (n : Nat) : isNumber (toString n) = true := by
  have hdigits := isDigits_toDigits n
  rw [isDigits, Bool.and_eq_true, List.all_eq_true] at hdigits
  have htake : (toString n).toList.takeWhile Char.isDigit = Nat.toDigits 10 n := by
    rw [Nat.toString_eq_ofList_toDigits, String.toList_ofList, List.takeWhile_eq_self_iff]
    exact hdigits.2
  have hdrop : (toString n).toList.dropWhile Char.isDigit = [] := by
    rw [Nat.toString_eq_ofList_toDigits, String.toList_ofList, List.dropWhile_eq_nil_iff]
    exact hdigits.2
  simp only [isNumber, htake, hdrop, hdigits.1]
  rfl

/-- An element of an array is a place. -/
theorem isPlace_element {array : String} (h : isIdentifier array = true) (index : Nat) :
    IsPlace (Naming.element array index) (.element array (.number (toString index))) :=
  .element h ((reads_number (isNumber_toString index)).mono (Nat.zero_le 5) (Nat.le_refl 5))

/-- The tree that the name of a variable is parsed to. -/
def placeOf (s : String) : Tree := (parse? s).getD (.name s)

theorem IsPlace.placeOf_eq {s : String} {t : Tree} (h : IsPlace s t) : placeOf s = t := by
  have hparse := (h.reads.mono (Nat.zero_le 5) (Nat.le_refl 5)).parse?_eq
  rw [placeOf, hparse, Option.getD_some]

/-- Whether a name is one of the first elements of the standard arrays. -/
def isElement (s : String) : Bool :=
  ["y", "x", "v"].any fun array => (List.range 10).any fun index => s == Naming.element array index

theorem isPlace_placeOf {s : String} (h : isElement s = true) : IsPlace s (placeOf s) := by
  obtain ⟨array, harray, hindices⟩ := List.any_eq_true.mp h
  obtain ⟨index, _, hname⟩ := List.any_eq_true.mp hindices
  obtain rfl := eq_of_beq hname
  have hidentifier : ∀ array ∈ ["y", "x", "v"], isIdentifier array = true := by decide
  have hplace := isPlace_element (hidentifier array harray) index
  rwa [hplace.placeOf_eq]

/-- Digits behind the mark of an exponent. -/
theorem isExponent_of_isDigits {cs : List Char} (h : isDigits cs = true) :
    isExponent ('e' :: cs) = true := by
  rw [isExponent.eq_def]
  split
  · rfl
  · next heq =>
    cases heq
    simp [isDigits] at h
  · next heq =>
    cases heq
    simp [isDigits] at h
  · next heq =>
    cases heq
    exact h
  · next hne => exact absurd rfl (hne cs)

/-- An exponent. -/
theorem isExponent_toString (k : Int) : isExponent ('e' :: (toString k).toList) = true := by
  cases k with
  | ofNat n =>
    apply isExponent_of_isDigits
    have htext : (toString (Int.ofNat n)).toList = Nat.toDigits 10 n := String.toList_ofList
    rw [htext]
    exact isDigits_toDigits n
  | negSucc n =>
    have htext : (toString (Int.negSucc n)).toList = '-' :: Nat.toDigits 10 (n + 1) := by
      rw [show toString (Int.negSucc n) = "-" ++ Nat.repr (n + 1) from rfl]
      simp [Nat.repr_eq_ofList_toDigits]
    rw [htext]
    exact isDigits_toDigits (n + 1)

/-- One digit, a point before the other digits if there are any, and an exponent. -/
theorem isNumber_scientific {c : Char} {cs : List Char} (hc : c.isDigit = true)
    (hcs : ∀ d ∈ cs, d.isDigit = true) (k : Int) :
    isNumber (String.singleton c ++ (if cs.isEmpty then "" else ".") ++ String.ofList cs ++ "e" ++
      toString k) = true := by
  have hexponent : isExponent ('e' :: k.repr.toList) = true := isExponent_toString k
  cases cs with
  | nil => simp [isNumber, hc, hexponent]
  | cons d cs =>
    have hd := hcs d List.mem_cons_self
    have htail : ∀ x ∈ cs, x.isDigit = true := fun x hx => hcs x (List.mem_cons_of_mem _ hx)
    simpa [isNumber, hc, hd, hexponent, isDigits, List.takeWhile_append_of_pos htail,
      List.dropWhile_append_of_pos htail] using htail

/-- The scientific form of a decimal. -/
theorem exists_isNumber_scientific (d : Decimal) :
    ∃ s, isNumber s = true ∧ d.scientific = if d.negative then "-" ++ s else s := by
  unfold Decimal.scientific
  split
  next n e _ =>
  have hdigits : ∀ c ∈ Nat.toDigits 10 n, c.isDigit = true :=
    fun c hc => Nat.isDigit_of_mem_toDigits (by decide) (by decide) hc
  dsimp only
  split
  · next hnil => exact absurd hnil Nat.toDigits_ne_nil
  · next c cs heq =>
    rw [heq] at hdigits
    refine ⟨_, isNumber_scientific (hdigits c List.mem_cons_self)
      (fun x hx => hdigits x (List.mem_cons_of_mem _ hx))
      ((if n = 0 then 0 else e) + cs.length), ?_⟩
    cases d.negative <;>
      simp only [Bool.false_eq_true, if_false, if_true, String.empty_append, String.append_assoc]

/-- A bit pattern below infinity is written in scientific form. -/
theorem exists_text_eq_scientific (L : Layout) {bits : Nat} (h : bits % L.signBit < L.infinity) :
    ∃ d : Decimal, d.negative = decide (L.signBit ≤ bits) ∧ L.text bits = d.scientific := by
  have hfinite : ∃ significand shift,
      L.magnitude (bits % L.signBit) = .finite significand shift := by
    rw [Layout.magnitude, if_neg (Nat.lt_asymm h), if_neg (Nat.ne_of_lt h)]
    dsimp only
    split <;> exact ⟨_, _, rfl⟩
  obtain ⟨significand, shift, hmagnitude⟩ := hfinite
  rw [Layout.text, hmagnitude]
  exact ⟨_, rfl, rfl⟩

/-- The text of a bit pattern below infinity. -/
theorem exists_isNumber_text (L : Layout) {bits : Nat} (h : bits % L.signBit < L.infinity) :
    ∃ s, isNumber s = true ∧
      L.text bits = if decide (L.signBit ≤ bits) then "-" ++ s else s := by
  obtain ⟨d, hnegative, htext⟩ := exists_text_eq_scientific L h
  rw [htext, ← hnegative]
  exact exists_isNumber_scientific d

section Machine

open Float.Model

variable {spec : Format} {b : BitVec spec.numBits}

theorem toNat_unpackExponent (b : BitVec spec.numBits) :
    (UnpackedFloat.unpackExponent b).toNat =
      b.toNat / 2 ^ spec.mantissaBitsWithoutImplicit % 2 ^ spec.exponentBits := by
  have hwidth : spec.mantissaBitsWithoutImplicit + spec.exponentBits - 1 -
      spec.mantissaBitsWithoutImplicit + 1 = spec.exponentBits := by
    have := spec.he
    omega
  rw [UnpackedFloat.unpackExponent, BitVec.toNat_cast, BitVec.extractLsb_toNat, hwidth,
    Nat.shiftRight_eq_div_pow]

/-- The exponent field of a finite number is not all ones. -/
theorem unpackExponent_lt (hnan : (UnpackedFloat.unpack spec b).isNaN = false)
    (hinf : (UnpackedFloat.unpack spec b).isInf = false) :
    (UnpackedFloat.unpackExponent b).toNat < 2 ^ spec.exponentBits - 1 := by
  have hones : (-BitVec.ofNat spec.exponentBits 1).toNat = 2 ^ spec.exponentBits - 1 := by
    have hpos : 2 ^ 1 ≤ 2 ^ spec.exponentBits := Nat.pow_le_pow_right (by decide) spec.he
    rw [BitVec.toNat_neg, BitVec.toNat_ofNat, Nat.mod_eq_of_lt (by omega : 1 < _),
      Nat.mod_eq_of_lt (by omega)]
  have hne : (UnpackedFloat.unpackExponent b).toNat ≠ 2 ^ spec.exponentBits - 1 := by
    intro heq
    rw [← hones] at heq
    delta UnpackedFloat.unpack at hnan hinf
    rw [if_pos (BitVec.eq_of_toNat_eq heq)] at hnan hinf
    split at hnan
    · next hzero =>
      rw [if_pos hzero] at hinf
      cases hinf
    · cases hnan
  have hlt := (UnpackedFloat.unpackExponent b).isLt
  omega

/-- Without its sign bit the pattern of a finite number is below that of infinity. -/
theorem mod_lt_infinity (spec : Format) {b : BitVec spec.numBits}
    (hnan : (UnpackedFloat.unpack spec b).isNaN = false)
    (hinf : (UnpackedFloat.unpack spec b).isInf = false) :
    b.toNat % 2 ^ (spec.exponentBits + spec.mantissaBitsWithoutImplicit) <
      (2 ^ spec.exponentBits - 1) * 2 ^ spec.mantissaBitsWithoutImplicit := by
  have hexponent := unpackExponent_lt hnan hinf
  rw [toNat_unpackExponent] at hexponent
  generalize spec.exponentBits = e, spec.mantissaBitsWithoutImplicit = m at hexponent ⊢
  have hlow := Nat.mod_lt b.toNat (Nat.two_pow_pos m)
  rw [Nat.add_comm, Nat.pow_add, Nat.mod_mul]
  calc b.toNat % 2 ^ m + 2 ^ m * (b.toNat / 2 ^ m % 2 ^ e)
      < 2 ^ m + 2 ^ m * (b.toNat / 2 ^ m % 2 ^ e) := Nat.add_lt_add_right hlow _
    _ = (b.toNat / 2 ^ m % 2 ^ e + 1) * 2 ^ m := by
      rw [Nat.add_one_mul, Nat.mul_comm, Nat.add_comm]
    _ ≤ (2 ^ e - 1) * 2 ^ m := Nat.mul_le_mul_right _ hexponent

end Machine

instance : Written Float where
  exists_number v hnan hinf :=
    exists_isNumber_text .binary64 (mod_lt_infinity .binary64 (b := v.toBits.toBitVec) hnan hinf)

instance : Written Float32 where
  exists_number v hnan hinf :=
    exists_isNumber_text .binary32 (mod_lt_infinity .binary32 (b := v.toBits.toBitVec) hnan hinf)

end C

end Straightline
