import Straightline.Numeral.Decimal

/-!
# Shortest decimals

The decimal with the fewest digits that reads back as a given finite magnitude. A decimal reads
back when it lies in the rounding interval of the magnitude, whose ends belong to it exactly if
the significand is even. For one digit, two digits and so on, the two neighbours of the magnitude
on that decimal grid are tested in exact arithmetic; the first grid with a hit wins, of two hits
the nearer one is taken, and at equal distance the larger.
-/

namespace Straightline

namespace Shortest

/-- A magnitude and the ends of its rounding interval, over one common denominator. -/
structure Interval where
  /-- The lower end. -/
  low : Nat
  /-- The magnitude itself. -/
  value : Nat
  /-- The upper end. -/
  high : Nat
  /-- The common denominator. -/
  den : Nat
  /-- Whether the ends read back as the magnitude. -/
  closed : Bool

/-- The rounding interval of a finite magnitude. Below a power of two the next smaller magnitude
is half as far away, unless the exponent is already the lowest. -/
def Interval.of (L : Layout) (significand shift : Nat) : Interval :=
  let narrow := significand = Nat.pow 2 L.fraction ∧ 0 < shift
  let below := if narrow then 1 else 2
  { low := (4 * significand - below) * Nat.pow 2 shift
    value := 4 * significand * Nat.pow 2 shift
    high := (4 * significand + 2) * Nat.pow 2 shift
    den := 4 * Nat.pow 2 L.depth
    closed := significand % 2 = 0 }

/-- The interval in units of `10 ^ e`. -/
def Interval.scale (I : Interval) (e : Int) : Interval :=
  let up := Nat.pow 10 (-e).toNat
  { I with
    low := I.low * up
    value := I.value * up
    high := I.high * up
    den := I.den * Nat.pow 10 e.toNat }

/-- An integer lies in the interval. -/
def Interval.holds (I : Interval) (n : Nat) : Bool :=
  let x := n * I.den
  if I.closed then I.low ≤ x && x ≤ I.high else I.low < x && x < I.high

/-- The integer nearest to the magnitude among its two neighbours that lie in the interval. -/
def Interval.pick? (I : Interval) : Option Nat :=
  let n := I.value / I.den
  match I.holds n, I.holds (n + 1) with
  | true, true => some (if 2 * (I.value % I.den) < I.den then n else n + 1)
  | true, false => some n
  | false, true => some (n + 1)
  | false, false => none

/-- Raise an exponent, a bounded number of times, while the next power of ten is not larger than
the magnitude. -/
private def climb (I : Interval) : Nat → Int → Int
  | 0, e => e
  | fuel + 1, e =>
    let J := I.scale (e + 1)
    if J.den ≤ J.value then climb I fuel (e + 1) else e

/-- The power of ten of the first digit. Powers of two give an estimate from below that is off by
at most three. -/
def leadingExponent (I : Interval) : Int :=
  let bits : Int := (Nat.log2 I.value : Int) - Nat.log2 I.den
  climb I 5 (Int.fdiv ((bits - 1) * 30103) 100000 - 1)

/-- Try ever finer grids; the last one is taken rounded down if no grid before it has a hit. -/
private def search (I : Interval) : Nat → Int → Nat × Int
  | 0, e => let J := I.scale e; (J.value / J.den, e)
  | fuel + 1, e =>
    match (I.scale e).pick? with
    | some n => (n, e)
    | none => search I fuel (e - 1)

/-- The shortest digits of a positive finite magnitude, with the power of ten of the last one. -/
def digits (L : Layout) (significand shift : Nat) : Nat × Int :=
  let I := Interval.of L significand shift
  search I 17 (leadingExponent I)

end Shortest

/-- The text of a bit pattern: the shortest scientific form, or a name for what is not finite. -/
def Layout.text (L : Layout) (bits : Nat) : String :=
  let negative := L.signBit ≤ bits
  let sign := if negative then "-" else ""
  match L.magnitude (bits % L.signBit) with
  | .nan => "NaN"
  | .infinite => sign ++ "inf"
  | .finite significand shift =>
    let (n, e) := if significand = 0 then (0, 0) else Shortest.digits L significand shift
    Decimal.scientific ⟨negative, n, e⟩

end Straightline
