import Reckoner.Number.Layout
import Reckoner.Text.Blank

/-!
# Reading numbers

A written number is a sign, digits with an optional point among or around
them, and an optional exponent, or the word `Infinity`. `Literal.scan` takes
the longest written number at the start of a text and leaves the rest.

* `read?`, `readOrZero`: the lenient reading, which skips leading blanks and
  ignores what follows the number;
* `readWhole?`: the strict reading, which wants nothing before or after it, and
  knows the words `inf`, `infinity` and `nan` in any case.
-/

namespace Reckoner.Number

/-- The digits and the exponent of a written number. -/
structure Literal where
  whole : List Char
  fraction : List Char
  exponent : Int
  deriving DecidableEq

namespace Literal

/-- The decimal number that is written. -/
def toDecimal (l : Literal) : Decimal :=
  ⟨Nat.ofDigitChars 10 (l.whole ++ l.fraction) 0, l.exponent - l.fraction.length⟩

/-- The digits at the start of a text, and the rest. -/
def scanDigits (cs : List Char) : List Char × List Char :=
  (cs.takeWhile Char.isDigit, cs.dropWhile Char.isDigit)

/-- A sign at the start of a text: whether it is `-`, and the rest. -/
def scanSign : List Char → Bool × List Char
  | '-' :: cs => (true, cs)
  | '+' :: cs => (false, cs)
  | cs => (false, cs)

/-- An exponent at the start of a text, `0` if none stands there. One without
digits is none. -/
def scanExponent (cs : List Char) : Int × List Char :=
  match cs with
  | c :: rest =>
    if c = 'e' ∨ c = 'E' then
      let (negative, unsigned) := scanSign rest
      match scanDigits unsigned with
      | ([], _) => (0, cs)
      | (digits, rest) =>
        let n : Int := Nat.ofDigitChars 10 digits 0
        (if negative then -n else n, rest)
    else (0, cs)
  | [] => (0, [])

/-- The digits around the point at the start of a text. A point counts if there
is a digit before or after it. -/
def scanMantissa (cs : List Char) : Option (List Char × List Char × List Char) :=
  match scanDigits cs with
  | ([], '.' :: rest) =>
    match scanDigits rest with
    | ([], _) => none
    | (fraction, rest) => some ([], fraction, rest)
  | ([], _) => none
  | (whole, '.' :: rest) =>
    let (fraction, rest) := scanDigits rest
    some (whole, fraction, rest)
  | (whole, rest) => some (whole, [], rest)

/-- The longest unsigned number at the start of a text, and the rest. -/
def scan (cs : List Char) : Option (Literal × List Char) :=
  match scanMantissa cs with
  | none => none
  | some (whole, fraction, rest) =>
    let (exponent, rest) := scanExponent rest
    some (⟨whole, fraction, exponent⟩, rest)

end Literal

/-! ## Lenient reading -/

/-- The number at the start of a text after its blanks. -/
def readChars? (cs : List Char) : Option Float :=
  let (negative, unsigned) := Literal.scanSign (Text.trimStart cs)
  if infinityWord.isPrefixOf unsigned then some (infinity negative)
  else
    match Literal.scan unsigned with
    | none => none
    | some (l, _) => some (l.toDecimal.toFloat negative)

/-- The number at the start of a text after its blanks. -/
def read? (s : String) : Option Float :=
  readChars? s.toList

/-- The number at the start of a text, `0` if there is none. -/
def readOrZero (s : String) : Float :=
  (read? s).getD (zero false)

/-! ## Strict reading -/

/-- The words of the strict reading, in lower case. -/
def specialWord? (negative : Bool) (word : List Char) : Option Float :=
  if word = ['n', 'a', 'n'] then some nan
  else if word = ['i', 'n', 'f'] ∨ word = ['i', 'n', 'f', 'i', 'n', 'i', 't', 'y'] then
    some (infinity negative)
  else none

/-- The number that a whole text is. -/
def readWhole? (cs : List Char) : Option Float :=
  let (negative, unsigned) := Literal.scanSign cs
  match specialWord? negative (unsigned.map Char.toLower) with
  | some x => some x
  | none =>
    match Literal.scan unsigned with
    | some (l, []) => some (l.toDecimal.toFloat negative)
    | _ => none

end Reckoner.Number
