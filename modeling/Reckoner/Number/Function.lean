import Reckoner.Number.Decimal
import Reckoner.Number.Rounding

/-!
# Functions on numbers

The arithmetic of the machine: operators on two numbers, functions of one, and
reductions of a whole list, with the roundings and percentages that leave a
side result.

* `mround`, `fix`: a rounding and how far it moved the number;
* `Reduction.apply`: the reductions, which read a list from its end.
-/

namespace Reckoner.Number

/-- An operator on two numbers. -/
inductive Binary where
  | add
  | subtract
  | multiply
  | divide
  | power
  | modulo
  deriving DecidableEq

namespace Binary

/-- The operator between its left and its right operand. -/
def apply (op : Binary) (x y : Float) : Float :=
  match op with
  | .add => x + y
  | .subtract => x - y
  | .multiply => x * y
  | .divide => x / y
  | .power => x.pow y
  | .modulo => remainder x y

end Binary

/-- A function of one number. -/
inductive Unary where
  | sin
  | cos
  | tan
  | asin
  | acos
  | atan
  | naturalLog
  | decimalLog
  | exp
  | abs
  | floor
  | ceil
  | round
  | sign
  | negate
  deriving DecidableEq

/-- One with the sign of `x`; a zero, and what is no number, as it is. -/
def sign (x : Float) : Float :=
  if x > zero false then ofNat 1
  else if x < zero false then ofInt (-1)
  else x

namespace Unary

/-- The value of the function. -/
def apply (f : Unary) (x : Float) : Float :=
  match f with
  | .sin => x.sin
  | .cos => x.cos
  | .tan => x.tan
  | .asin => x.asin
  | .acos => x.acos
  | .atan => x.atan
  | .naturalLog => x.log
  | .decimalLog => x.log10
  | .exp => x.exp
  | .abs => x.abs
  | .floor => Number.floor x
  | .ceil => Number.ceil x
  | .round => roundHalfUp x
  | .sign => Number.sign x
  | .negate => -x

end Unary

/-- A constant with a name of its own. -/
inductive Constant where
  | pi
  | e
  deriving DecidableEq

namespace Constant

/-- The double nearest to the constant. -/
def value : Constant → Float
  | .pi => Decimal.toFloat false ⟨3141592653589793, -15⟩
  | .e => Decimal.toFloat false ⟨2718281828459045, -15⟩

end Constant

/-! ## Percentages, roundings and roots -/

/-- `rate` percent of `base`. -/
def percent (base rate : Float) : Float :=
  base / ofNat 100 * rate

/-- The multiple of `step` nearest to `x`, and how far it is from `x`. -/
def mround (x step : Float) : Float × Float :=
  let rounded := roundHalfUp (x / step) * step
  (rounded, rounded - x)

/-- A power of ten with a whole exponent that is a double: those up to `10 ^ 22`
are, since `5 ^ 22` fits 53 bits. -/
def exactPowerOfTen? (exponent : Float) : Option Float :=
  match parts exponent with
  | .finite negative significand e =>
    let n := scaledFloor (signed negative significand) e
    if isWhole significand e && 0 ≤ n && n ≤ 22 then some (ofNat (Nat.pow 10 n.toNat)) else none
  | _ => none

/-- A power of ten, exact where it is a double. -/
def powerOfTen (exponent : Float) : Float :=
  (exactPowerOfTen? exponent).getD ((ofNat 10).pow exponent)

/-- The number nearest to `x` with a count of decimals, and how far it is from
`x`. -/
def fix (x decimals : Float) : Float × Float :=
  let scale := powerOfTen decimals
  let fixed := roundHalfUp (x * scale) / scale
  (fixed, fixed - x)

/-- The root of `base` with an index. -/
def root (base index : Float) : Float :=
  base.pow (ofNat 1 / index)

/-! ## Reductions -/

/-- A function of a list of numbers. -/
inductive Reduction where
  | sum
  | average
  | min
  | max
  | count
  deriving DecidableEq

/-- The value of a reduction, and the count that an average leaves behind. -/
structure Reduced where
  value : Option Float
  count : Option Nat

/-- The sum, from the end of the list on. -/
def sum (xs : List Float) : Float :=
  xs.foldr (fun x total => total + x) (zero false)

/-- The number of two that `better` prefers, the second unless the first is
better; with what is no number among them, none of both. -/
def choose (better : Float → Float → Bool) (x y : Float) : Float :=
  if x.isNaN || y.isNaN then nan else if better x y then x else y

/-- The best number of a list, from its end on. -/
def best? (better : Float → Float → Bool) (xs : List Float) : Option Float :=
  match xs.reverse with
  | [] => none
  | x :: rest => some (rest.foldl (choose better) x)

namespace Reduction

/-- The value of the reduction of a list. -/
def apply (r : Reduction) (xs : List Float) : Reduced :=
  match r with
  | .sum => ⟨some (Number.sum xs), none⟩
  | .average => ⟨some (Number.sum xs / Number.ofNat xs.length), some xs.length⟩
  | .min => ⟨best? (fun a b => a < b) xs, none⟩
  | .max => ⟨best? (fun a b => a > b) xs, none⟩
  | .count => ⟨some (Number.ofNat xs.length), none⟩

end Reduction

end Reckoner.Number
