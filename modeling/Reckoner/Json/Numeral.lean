import Reckoner.Number.Literal

/-!
# Numbers of a JSON document

A number without fraction and exponent is a whole number as long as it fits 64
bits; any other is a double. Its leading digits, as many as fit 64 bits, are
rounded to a double, and that is multiplied or divided by a power of ten. Every
step rounds, so a number with many digits may be read as a neighbour of the
double nearest to it. One with at most fifteen digits that is scaled by at most
`10 ^ 22` is not: digits and power are doubles, and only the last step rounds.

A number beyond the doubles obeys the grammar and denotes nothing.

* `leadingDigits`: the digits that count, and the others;
* `Numeral.scaled?`: a double times a power of ten;
* `Numeral.ofParts?`: the number with these digits and this exponent.
-/

namespace Reckoner.Json

/-- A number of a document. -/
inductive Numeral where
  /-- A whole number from `-2 ^ 63` to `2 ^ 64 - 1`. -/
  | whole (n : Int)
  | real (x : Float)
  deriving DecidableEq

/-- A number followed by digits, as many as fit 64 bits, and the digits after
them. -/
def leadingDigits (n : Nat) : List Char → Nat × List Char
  | [] => (n, [])
  | c :: cs =>
    let next := 10 * n + (c.toNat - '0'.toNat)
    if next < Nat.pow 2 64 then leadingDigits next cs else (n, c :: cs)

namespace Numeral

/-- The double that a number denotes. -/
def toFloat : Numeral → Float
  | .whole n => Number.ofInt n
  | .real x => x

/-- The text of a number; what is not finite has none and is written `null`. -/
def write : Numeral → List Char
  | .whole n => Number.withSign (decide (n < 0)) (Nat.toDigits 10 n.natAbs)
  | .real x =>
    match Number.parts x with
    | .finite negative significand exponent =>
      Number.writeFinite .json negative significand exponent
    | _ => ['n', 'u', 'l', 'l']

/-- The whole number `± n`, if it fits 64 bits; the negative zero is a double. -/
def whole? (negative : Bool) (n : Nat) : Option Numeral :=
  if negative then
    if 0 < n ∧ n ≤ Nat.pow 2 63 then some (.whole (-n)) else none
  else if n < Nat.pow 2 64 then some (.whole n)
  else none

/-- The largest power of ten that is taken in one step: the largest one within
the doubles. -/
def maxPower : Nat := 308

/-- The double nearest to a power of ten. -/
def powerOfTen (n : Nat) : Float :=
  Number.Decimal.toFloat false ⟨1, n⟩

/-- The double `x` times `10 ^ e`, rounded at every step, if it is within the
doubles. A division that takes more than two steps leaves nothing of any
number below `2 ^ 64`. -/
def scaled? (x : Float) (e : Int) : Option Float :=
  if x == Number.zero false then some x
  else if maxPower < e then none
  else if 0 ≤ e then
    let y := x * powerOfTen e.toNat
    if y.isInf then none else some y
  else if -maxPower ≤ e then some (x / powerOfTen (-e).toNat)
  else if -(2 * maxPower) ≤ e then
    some (x / powerOfTen maxPower / powerOfTen (-e - maxPower).toNat)
  else some (Number.zero false)

/-- The double with these digits around the point and this exponent. Digits
before the point count for its place even if they do not count for the value. -/
def real? (negative : Bool) (whole fraction : List Char) (exponent : Int) : Option Numeral := do
  let (n, skipped) := leadingDigits 0 whole
  let (n, ignored) := leadingDigits n fraction
  let places : Int := skipped.length - (fraction.length - ignored.length)
  let x ← scaled? (Number.ofNat n) (places + exponent)
  return .real (if negative then -x else x)

/-- The number with these digits around the point and this exponent, if it has
one. -/
def ofParts? (negative : Bool) (whole fraction : List Char) (exponent : Option Int) :
    Option Numeral :=
  let real := real? negative whole fraction (exponent.getD 0)
  match fraction, exponent with
  | [], none => (whole? negative (Nat.ofDigitChars 10 whole 0)).or real
  | _, _ => real

end Numeral

end Reckoner.Json
