/-!
# Doubles as exact numbers

A finite double is a whole number times a power of two. `parts` takes it
apart, `ofBits` puts one together from its sign and the pattern of its other
63 bits, and `nearest` is that pattern for the double closest to a positive
fraction, a half going to the even neighbour.

Consecutive doubles have consecutive patterns, so rounding up past a power of
two, into the normal range, or to infinity is an addition of one.

* `ofRatio`: the double nearest to a fraction, with a sign;
* `ofNat`, `ofInt`: the double nearest to a whole number.
-/

namespace Reckoner.Number

/-- What a double denotes. A finite one is `± significand * 2 ^ exponent`. -/
inductive Parts where
  | nan
  | infinite (negative : Bool)
  | finite (negative : Bool) (significand : Nat) (exponent : Int)
  deriving DecidableEq

/-- The fields of a double: a sign bit, eleven exponent bits, and the 52 bits
below the leading one of the significand. -/
def parts (x : Float) : Parts :=
  let bits : Nat := x.toBits.toNat
  let negative := decide (Nat.pow 2 63 ≤ bits)
  let biased : Nat := bits / Nat.pow 2 52 % Nat.pow 2 11
  let fraction : Nat := bits % Nat.pow 2 52
  if biased = 2047 then
    if fraction = 0 then .infinite negative else .nan
  else if biased = 0 then
    .finite negative fraction (-1074)
  else
    .finite negative (Nat.pow 2 52 + fraction) (biased - 1075)

/-- The pattern of infinity: all exponent bits set, all others clear. -/
def infinityBits : Nat :=
  2047 * Nat.pow 2 52

/-- The double with this sign and this pattern below the sign bit. -/
def ofBits (negative : Bool) (bits : Nat) : Float :=
  Float.ofBits (UInt64.ofNat (if negative then Nat.pow 2 63 + bits else bits))

/-- Infinity, with a sign. -/
def infinity (negative : Bool) : Float :=
  ofBits negative infinityBits

/-- The one value that is not a number. -/
def nan : Float :=
  ofBits false (infinityBits + Nat.pow 2 51)

/-- Zero, with a sign. -/
def zero (negative : Bool) : Float :=
  ofBits negative 0

/-! ## Rounding to the nearest double -/

/-- The quotient rounded to a whole number, a half going to the even one. -/
def divHalfEven (num den : Nat) : Nat :=
  let q := num / den
  match compare (2 * (num % den)) den with
  | .lt => q
  | .eq => q + q % 2
  | .gt => q + 1

/-- The place of the leading binary digit of a positive fraction: the `p` with
`2 ^ p ≤ num / den < 2 ^ (p + 1)`. -/
def leadingBit (num den : Nat) : Int :=
  let p : Int := (num.log2 : Int) - den.log2
  if num * Nat.pow 2 (-p).toNat < den * Nat.pow 2 p.toNat then p - 1 else p

/-- The pattern of the double nearest to `num / den`. Its significand counts
units of `2 ^ e`, where `e` leaves 53 binary digits or is the least exponent. -/
def nearest (num den : Nat) : Nat :=
  if num = 0 then 0
  else
    let e := max (leadingBit num den - 52) (-1074)
    let significand := divHalfEven (num * Nat.pow 2 (-e).toNat) (den * Nat.pow 2 e.toNat)
    min (significand + (e + 1074).toNat * Nat.pow 2 52) infinityBits

/-- The double nearest to `± num / den`. -/
def ofRatio (negative : Bool) (num den : Nat) : Float :=
  ofBits negative (nearest num den)

/-- The double nearest to `± significand * 2 ^ exponent`. -/
def ofScaled (negative : Bool) (significand : Nat) (exponent : Int) : Float :=
  ofRatio negative (significand * Nat.pow 2 exponent.toNat) (Nat.pow 2 (-exponent).toNat)

/-- The double nearest to a natural number. -/
def ofNat (n : Nat) : Float :=
  ofRatio false n 1

/-- The double nearest to a whole number; zero is positive. -/
def ofInt (n : Int) : Float :=
  ofRatio (decide (n < 0)) n.natAbs 1

end Reckoner.Number
