import Reckoner.Number.Double

/-!
# Decimal numbers

`digits * 10 ^ exponent`, the decimal number behind a written one. `bits` is
the pattern of the double nearest to it, and `ofScaled` is the decimal number
that equals a double, which always exists: half of a decimal number is one.
-/

namespace Reckoner.Number

/-- The number `digits * 10 ^ exponent`. -/
structure Decimal where
  digits : Nat
  exponent : Int
  deriving DecidableEq

namespace Decimal

/-- The pattern of the nearest double. No double reaches `10 ^ 400`, and all
that lies below `10 ^ -400` rounds to zero, so the power of ten stays small
however large the exponent is. -/
def bits (d : Decimal) : Nat :=
  if d.digits = 0 then 0
  else if d.exponent > 400 then infinityBits
  else if d.exponent + d.digits.log2 < -400 then 0
  else nearest (d.digits * Nat.pow 10 d.exponent.toNat) (Nat.pow 10 (-d.exponent).toNat)

/-- The nearest double, with a sign. -/
def toFloat (negative : Bool) (d : Decimal) : Float :=
  ofBits negative d.bits

/-- The decimal number equal to `significand * 2 ^ exponent`. -/
def ofScaled (significand : Nat) (exponent : Int) : Decimal :=
  if 0 ≤ exponent then ⟨significand * Nat.pow 2 exponent.toNat, 0⟩
  else ⟨significand * Nat.pow 5 (-exponent).toNat, exponent⟩

end Decimal

end Reckoner.Number
