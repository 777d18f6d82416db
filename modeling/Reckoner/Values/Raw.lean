import Reckoner.Number.Literal

/-!
# Raw values

A datum as the host of an expression holds it: a text, and the text that was
stored before it, which counts when the first is absent or empty.
-/

namespace Reckoner

/-- A datum as text, with the text stored before it. -/
structure RawValue where
  value : Option String
  stored : Option String
  deriving DecidableEq

namespace RawValue

/-- A datum with a text of its own. -/
def ofText (s : String) : RawValue := ⟨some s, none⟩

/-- A number as a datum. -/
def ofFloat (x : Float) : RawValue := ofText (Number.format x)

/-- The text that counts. -/
def effective (r : RawValue) : Option String :=
  match r.value with
  | some s => if s.isEmpty then r.stored else some s
  | none => r.stored

/-- The number that the text begins with, `0` if there is none. -/
def toFloat (r : RawValue) : Float :=
  match r.effective with
  | some s => Number.readOrZero s
  | none => Number.zero false

end RawValue

end Reckoner
