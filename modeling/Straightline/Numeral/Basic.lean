import Straightline.Scalar
import Straightline.Numeral.Shortest

/-!
# Numerals

A numeral type is a scalar type whose values can be read from and written as text. The instances are
the machine numbers of 64 and of 32 bits, and the rational numbers, which are exact.
-/

namespace Straightline

/-- Scalars that can be read and written. -/
class Numeral (α : Type) extends Scalar α where
  /-- Not a number. -/
  nan : α
  /-- Infinity with a sign. -/
  infinity (negative : Bool) : α
  /-- The nearest value to a decimal. -/
  ofDecimal : Decimal → α
  /-- The value is not a number. -/
  isNaN : α → Bool
  /-- The value is an infinity. -/
  isInfinite : α → Bool
  /-- The sign bit is set. -/
  isNegative : α → Bool
  /-- The shortest text that reads back. -/
  text : α → String

/-- Read a value: a decimal, `inf`, `-inf` or `nan`. -/
def Numeral.read? {α : Type} [Numeral α] (s : String) : Option α :=
  if s = "nan" then some Numeral.nan
  else if s = "inf" then some (Numeral.infinity false)
  else if s = "-inf" then some (Numeral.infinity true)
  else (Decimal.parse? s).map Numeral.ofDecimal

/-- The rational numbers as a numeral type. Nothing in it is infinite or not a number, and zero
stands in for both. -/
instance : Numeral Rat where
  nan := 0
  infinity _ := 0
  ofDecimal d := (if d.negative then -1 else 1) * d.digits * 10 ^ d.exponent
  isNaN _ := false
  isInfinite _ := false
  isNegative q := q < 0
  text q := if q.den = 1 then toString q.num
    else "(" ++ toString q.num ++ ".0 / " ++ toString q.den ++ ")"

namespace Binary64

/-- The elementary functions on 64-bit numbers. -/
def call : Elementary → Float → Float
  | .abs => Float.abs
  | .acos => Float.acos
  | .asin => Float.asin
  | .atan => Float.atan
  | .cosh => Float.cosh
  | .cos => Float.cos
  | .exp => Float.exp
  | .log => Float.log
  | .sinh => Float.sinh
  | .sin => Float.sin
  | .sqrt => Float.sqrt
  | .tanh => Float.tanh
  | .tan => Float.tan

/-- The comparisons on 64-bit numbers; every comparison with NaN fails but `ne`. -/
def compare : Comparison → Float → Float → Bool
  | .lt, a, b => a < b
  | .le, a, b => a ≤ b
  | .eq, a, b => a == b
  | .ge, a, b => b ≤ a
  | .gt, a, b => b < a
  | .ne, a, b => !(a == b)

instance : Numeral Float where
  zero := 0
  one := 1
  ln10 := Float.ofBits 0x40026BB1BBB55516
  add a b := a + b
  sub a b := a - b
  mul a b := a * b
  div a b := a / b
  pow := Float.pow
  neg a := -a
  call := call
  compare := compare
  nan := Float.ofBits 0x7FF8000000000000
  infinity negative := Float.ofBits (if negative then 0xFFF0000000000000 else 0x7FF0000000000000)
  ofDecimal d := Float.ofBits (d.toBits .binary64).toUInt64
  isNaN := Float.isNaN
  isInfinite := Float.isInf
  isNegative a := Layout.binary64.signBit ≤ a.toBits.toNat
  text a := Layout.binary64.text a.toBits.toNat

end Binary64

namespace Binary32

/-- The elementary functions on 32-bit numbers. -/
def call : Elementary → Float32 → Float32
  | .abs => Float32.abs
  | .acos => Float32.acos
  | .asin => Float32.asin
  | .atan => Float32.atan
  | .cosh => Float32.cosh
  | .cos => Float32.cos
  | .exp => Float32.exp
  | .log => Float32.log
  | .sinh => Float32.sinh
  | .sin => Float32.sin
  | .sqrt => Float32.sqrt
  | .tanh => Float32.tanh
  | .tan => Float32.tan

/-- The comparisons on 32-bit numbers; every comparison with NaN fails but `ne`. -/
def compare : Comparison → Float32 → Float32 → Bool
  | .lt, a, b => a < b
  | .le, a, b => a ≤ b
  | .eq, a, b => a == b
  | .ge, a, b => b ≤ a
  | .gt, a, b => b < a
  | .ne, a, b => !(a == b)

instance : Numeral Float32 where
  zero := 0
  one := 1
  ln10 := Float32.ofBits 0x40135D8E
  add a b := a + b
  sub a b := a - b
  mul a b := a * b
  div a b := a / b
  pow := Float32.pow
  neg a := -a
  call := call
  compare := compare
  nan := Float32.ofBits 0x7FC00000
  infinity negative := Float32.ofBits (if negative then 0xFF800000 else 0x7F800000)
  ofDecimal d := Float32.ofBits (d.toBits .binary32).toUInt32
  isNaN := Float32.isNaN
  isInfinite := Float32.isInf
  isNegative a := Layout.binary32.signBit ≤ a.toBits.toNat
  text a := Layout.binary32.text a.toBits.toNat

end Binary32

end Straightline
