import Reckoner.Json.Record

/-!
# Doubles in JSON

A finite double is a number of a document. What is not finite is written as one
of the texts `NaN`, `Infinity` and `-Infinity`; read back is any text that
begins with a number which is not finite.
-/

namespace Reckoner.Json

/-- A double as a value of a document. -/
def ofFloat (x : Float) : Json :=
  if x.isFinite then .number (.real x) else .string (Number.format x)

/-- A natural number as a value of a document. -/
def ofNat (n : Nat) : Json :=
  .number (.whole n)

namespace Shape

/-- A double. -/
def real : Shape Float
  | _, .number n => some n.toFloat
  | _, .string s =>
    if s = "NaN" then some Number.nan
    else
      match Number.read? s with
      | some x => if x.isFinite then none else some x
      | none => none
  | _, _ => none

end Shape

end Reckoner.Json
