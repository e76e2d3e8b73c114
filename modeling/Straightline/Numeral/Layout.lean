/-!
# Binary interchange layouts

A layout fixes how many bits of a machine number hold the exponent and the fraction. A finite
magnitude is a significand times a power of two, `significand * 2 ^ (lowest + shift)`, where
`lowest` is the exponent of the smallest positive number. In these terms the bit pattern of a
finite magnitude is `shift * 2 ^ fraction + significand`, for subnormal and normal numbers alike,
and a significand that rounds up to the next power of two carries into the exponent by itself.
-/

namespace Straightline

/-- The widths of the exponent field and of the fraction field. -/
structure Layout where
  /-- Bits of the exponent field. -/
  exponent : Nat
  /-- Bits of the fraction field. -/
  fraction : Nat

namespace Layout

/-- The layout of 64-bit numbers. -/
def binary64 : Layout := ⟨11, 52⟩

/-- The layout of 32-bit numbers. -/
def binary32 : Layout := ⟨8, 23⟩

/-- The power of two of the smallest positive number is `2 ^ (-depth)`. -/
def depth (L : Layout) : Nat := Nat.pow 2 (L.exponent - 1) + L.fraction - 2

/-- The bit pattern of positive infinity, which follows the largest finite magnitude. -/
def infinity (L : Layout) : Nat := (Nat.pow 2 L.exponent - 1) * Nat.pow 2 L.fraction

/-- The weight of the sign bit. -/
def signBit (L : Layout) : Nat := Nat.pow 2 (L.exponent + L.fraction)

end Layout

/-- What a bit pattern stands for. -/
inductive Magnitude where
  /-- Not a number. -/
  | nan
  /-- Infinity. -/
  | infinite
  /-- The number `significand * 2 ^ (shift - depth)`. -/
  | finite (significand shift : Nat)

/-- The magnitude of a bit pattern without its sign bit. -/
def Layout.magnitude (L : Layout) (bits : Nat) : Magnitude :=
  if L.infinity < bits then .nan
  else if bits = L.infinity then .infinite
  else
    let unit := Nat.pow 2 L.fraction
    let field := bits / unit
    let low := bits % unit
    if field = 0 then .finite low 0 else .finite (low + unit) (field - 1)

/-- The nearest integer to a quotient, a half going to the even neighbour. -/
def roundHalfEven (num den : Nat) : Nat :=
  let q := num / den
  let r := num % den
  if 2 * r < den then q
  else if den < 2 * r then q + 1
  else q + q % 2

/-- The bit pattern of the magnitude nearest to `num / den`. -/
def Layout.round (L : Layout) (num den : Nat) : Nat :=
  let scaled := num * Nat.pow 2 L.depth
  let whole := scaled / den
  let shift := if whole = 0 then 0 else Nat.log2 whole - L.fraction
  let bits := shift * Nat.pow 2 L.fraction + roundHalfEven scaled (den * Nat.pow 2 shift)
  min bits L.infinity

end Straightline
