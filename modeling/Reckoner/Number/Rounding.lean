import Reckoner.Number.Double

/-!
# Rounding to whole numbers and remainders

Floor, ceiling, truncation and the remainder of a division, each computed on the
exact numbers that doubles denote, so that nothing is lost on the way: all of the
results are doubles. Rounding with halves going up is made of the floor and of the
arithmetic of doubles.

* `scaledFloor`: the floor of `± significand * 2 ^ exponent` as a whole number;
* `roundHalfUp`: the floor, or the next whole number from a half on;
* `remainder`: what is left of `x` after taking away whole multiples of `y`,
  with the sign of `x`;
* `truncate?`, `clamp64`: the whole part, and the nearest 64-bit integer.
-/

namespace Reckoner.Number

/-- The exact value `± significand * 2 ^ exponent` in units of `2 ^ exponent`. -/
def signed (negative : Bool) (significand : Nat) : Int :=
  if negative then -(significand : Int) else significand

/-- The greatest whole number at or below `numerator * 2 ^ exponent`. -/
def scaledFloor (numerator : Int) (exponent : Int) : Int :=
  numerator * (Nat.pow 2 exponent.toNat : Nat) / (Nat.pow 2 (-exponent).toNat : Nat)

/-- Whether `significand * 2 ^ exponent` is a whole number. -/
def isWhole (significand : Nat) (exponent : Int) : Bool :=
  significand % Nat.pow 2 (-exponent).toNat == 0

/-- A whole number as a double; zero takes the given sign. -/
def wholeWithSign (negative : Bool) (n : Int) : Float :=
  if n = 0 then zero negative else ofInt n

/-- A whole number is its own rounding; any other finite number is rounded by
`f`, which is given the sign, the signed significand and the exponent. -/
def roundWith (f : Bool → Int → Int → Float) (x : Float) : Float :=
  match parts x with
  | .finite negative significand exponent =>
    if isWhole significand exponent then x
    else f negative (signed negative significand) exponent
  | _ => x

/-- The greatest whole number at or below `x`. -/
def floor : Float → Float :=
  roundWith fun negative n e => wholeWithSign negative (scaledFloor n e)

/-- The least whole number at or above `x`. -/
def ceil : Float → Float :=
  roundWith fun negative n e => wholeWithSign negative (-scaledFloor (-n) e)

/-- A half. -/
def half : Float :=
  ofRatio false 1 2

/-- The floor of `x`, or the next whole number if `x` lies a half or more above it. -/
def roundHalfUp (x : Float) : Float :=
  let whole := floor x
  if x - whole ≥ half then whole + ofNat 1 else whole

/-- A finite number without its fraction. -/
def truncate? (x : Float) : Option Int :=
  match parts x with
  | .finite negative significand exponent =>
    some (signed negative (scaledFloor significand exponent).toNat)
  | _ => none

/-- A whole number moved into the range of 64-bit integers. -/
def clamp64 (n : Int) : Int :=
  max (-(Nat.pow 2 63 : Nat)) (min n ((Nat.pow 2 63 : Nat) - 1))

/-- The remainder of the division of `x` by `y` to a whole quotient, which has
the sign of `x`. -/
def remainder (x y : Float) : Float :=
  match parts x, parts y with
  | .finite negative m e, .finite _ n f =>
    if n = 0 then nan
    else
      let unit := min e f
      let rest := (m * Nat.pow 2 (e - unit).toNat) % (n * Nat.pow 2 (f - unit).toNat)
      if rest = 0 then zero negative else ofScaled negative rest unit
  | .finite _ _ _, .infinite _ => x
  | _, _ => nan

end Reckoner.Number
