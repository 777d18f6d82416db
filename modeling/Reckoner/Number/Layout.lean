import Reckoner.Number.Shortest

/-!
# Writing numbers

How doubles are written. `plain` is the text used in expressions: digits and,
where needed, a decimal point, never an exponent. `json` is the text of a
number in a JSON document: always with a fraction or an exponent. Both write
the fewest digits that read back; `writeFixed` writes a given number of decimals
and rounds the exact value.

* `format`: `plain`, with words for what is not finite and one zero;
* `formatFixed`: `writeFixed`, with the same words.
-/

namespace Reckoner.Number

/-- How a finite number is written. -/
structure Style where
  /-- The choice between equally near shortest numbers. -/
  tie : Tie
  /-- Whether a whole number is written with a fraction of `0`. -/
  wholeFraction : Bool
  /-- The decimal exponents that are written without an exponent. -/
  positional : Int → Bool

namespace Style

/-- Digits and a point, however large or small the number is. -/
def plain : Style := ⟨.up, false, fun _ => true⟩

/-- A fraction always; an exponent outside `10 ^ -5` to `10 ^ 16`. -/
def json : Style := ⟨.even, true, fun e => decide (-5 ≤ e ∧ e ≤ 15)⟩

end Style

/-- The digits of `digits * 10 ^ exponent` before and after the point. -/
def splitAtPoint (digits : List Char) (exponent : Int) : List Char × List Char :=
  if 0 ≤ exponent then (digits ++ List.replicate exponent.toNat '0', [])
  else
    let places := (-exponent).toNat
    if places < digits.length then
      (digits.take (digits.length - places), digits.drop (digits.length - places))
    else (['0'], List.replicate (places - digits.length) '0' ++ digits)

/-- Digits before and after a point, which is left out with an empty fraction. -/
def joinAtPoint : List Char × List Char → List Char
  | (whole, []) => whole
  | (whole, fraction) => whole ++ '.' :: fraction

/-- A decimal exponent with its sign. -/
def exponentText (e : Int) : List Char :=
  'e' :: (if e < 0 then '-' else '+') :: Nat.toDigits 10 e.natAbs

/-- A decimal number in a style. -/
def Decimal.write (style : Style) (d : Decimal) : List Char :=
  let digits := Nat.toDigits 10 d.digits
  let leading := d.exponent + digits.length - 1
  if style.positional leading then
    match splitAtPoint digits d.exponent with
    | (whole, []) => joinAtPoint (whole, if style.wholeFraction then ['0'] else [])
    | split => joinAtPoint split
  else joinAtPoint (digits.take 1, digits.drop 1) ++ exponentText leading

/-- The decimal number written for `significand * 2 ^ exponent`. -/
def writtenDecimal (tie : Tie) (significand : Nat) (exponent : Int) : Decimal :=
  if significand = 0 then ⟨0, 0⟩ else shortest tie significand exponent

/-- The sign of a number before its digits. -/
def withSign (negative : Bool) (cs : List Char) : List Char :=
  if negative then '-' :: cs else cs

/-- A finite number in a style. -/
def writeFinite (style : Style) (negative : Bool) (significand : Nat) (exponent : Int) : List Char :=
  withSign negative ((writtenDecimal style.tie significand exponent).write style)

/-- A finite number with `places` decimals, a half going to the even digit. -/
def writeFixed (places : Nat) (negative : Bool) (significand : Nat) (exponent : Int) : List Char :=
  let scaled :=
    divHalfEven (significand * Nat.pow 2 exponent.toNat * Nat.pow 10 places)
      (Nat.pow 2 (-exponent).toNat)
  withSign negative (joinAtPoint (splitAtPoint (Nat.toDigits 10 scaled) (-places)))

/-! ## Texts of doubles -/

/-- The word for infinity, which reads back as it. -/
def infinityWord : List Char :=
  ['I', 'n', 'f', 'i', 'n', 'i', 't', 'y']

/-- The text of a double as an expression holds it; both zeros are `0`. -/
def formatChars (x : Float) : List Char :=
  match parts x with
  | .nan => ['N', 'a', 'N']
  | .infinite negative => withSign negative infinityWord
  | .finite negative significand exponent =>
    writeFinite .plain (negative && significand != 0) significand exponent

/-- The text of a double as an expression holds it. -/
def format (x : Float) : String :=
  String.ofList (formatChars x)

/-- The text of a double with `places` decimals. -/
def formatFixed (places : Nat) (x : Float) : String :=
  match parts x with
  | .finite negative significand exponent =>
    String.ofList (writeFixed places negative significand exponent)
  | _ => format x

end Reckoner.Number
