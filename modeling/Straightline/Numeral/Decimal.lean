import Straightline.Numeral.Layout

/-!
# Decimal numbers

A decimal is an integer times a power of ten with a sign. This module reads decimals from text,
rounds them to the nearest magnitude of a binary layout, and writes them in scientific form: one
digit before the point, no trailing zero and no plus sign.
-/

namespace Straightline

/-- The number `digits * 10 ^ exponent`, negated if `negative`. -/
structure Decimal where
  /-- Whether the sign is minus; zero has a sign too. -/
  negative : Bool
  /-- The digits read as one integer. -/
  digits : Nat
  /-- The power of ten of the last digit. -/
  exponent : Int
  deriving DecidableEq, Repr

namespace Decimal

/-- The value of a list of digit characters. -/
def ofDigits (cs : List Char) : Nat :=
  cs.foldl (fun n c => 10 * n + (c.toNat - '0'.toNat)) 0

/-- A nonempty list of digits. -/
private def nat? (cs : List Char) : Option Nat :=
  if cs.isEmpty || cs.any (fun c => !c.isDigit) then none else some (ofDigits cs)

/-- Split off a leading minus sign. -/
private def signed : List Char → Bool × List Char
  | '-' :: rest => (true, rest)
  | cs => (false, cs)

/-- Read a decimal: an optional minus sign, digits, an optional fraction after a point and an
optional exponent after `e`. -/
def parse? (s : String) : Option Decimal := do
  let (negative, cs) := signed s.toList
  let mantissa := cs.takeWhile (· ≠ 'e')
  let power ←
    match cs.drop mantissa.length with
    | [] => some (0 : Int)
    | _ :: rest =>
      let (minus, ds) := signed rest
      (nat? ds).map fun n => if minus then -(n : Int) else n
  let whole := mantissa.takeWhile (· ≠ '.')
  let fraction ←
    match mantissa.drop whole.length with
    | [] => some []
    | _ :: rest => if rest.isEmpty then none else some rest
  let _ ← nat? whole
  let digits ← nat? (whole ++ fraction)
  return ⟨negative, digits, power - fraction.length⟩

/-- The bit pattern of the nearest number of a layout. A number beyond every finite magnitude
rounds to infinity; exponents that are out of reach of the layout are cut off first. -/
def toBits (L : Layout) (d : Decimal) : Nat :=
  let reach : Int := Nat.pow 2 L.exponent
  let top : Int := d.exponent + (Nat.log2 d.digits : Int) / 3 + 1
  let magnitude :=
    if d.digits = 0 ∨ top < -reach then 0
    else if reach < d.exponent then L.infinity
    else L.round (d.digits * Nat.pow 10 d.exponent.toNat) (Nat.pow 10 (-d.exponent).toNat)
  if d.negative then L.signBit + magnitude else magnitude

/-- Move trailing zeros of the digits into the exponent. -/
private def stripZeros : Nat → Nat → Int → Nat × Int
  | 0, n, e => (n, e)
  | fuel + 1, n, e => if n ≠ 0 ∧ n % 10 = 0 then stripZeros fuel (n / 10) (e + 1) else (n, e)

/-- The scientific form: the first digit, the other digits after a point, then `e` and the power
of ten of the first digit. -/
def scientific (d : Decimal) : String :=
  let (n, e) := stripZeros d.digits d.digits d.exponent
  let e := if n = 0 then 0 else e
  let sign := if d.negative then "-" else ""
  match Nat.toDigits 10 n with
  | [] => sign
  | first :: rest =>
    let point := if rest.isEmpty then "" else "."
    sign ++ String.singleton first ++ point ++ String.ofList rest ++ "e" ++
      toString (e + rest.length)

end Decimal

end Straightline
