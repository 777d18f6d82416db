import Reckoner.Number.Literal

/-!
# Values on the stack

A value is a number, a text or nothing. Arithmetic reads any of them as a
number, a register operation reads any of them as a name, and the end of an
evaluation reads any of them as a result, each by a rule of its own.
-/

namespace Reckoner

/-- A value on the stack. -/
inductive Value where
  | number (x : Float)
  /-- A register name, a label or a template. -/
  | text (s : String)
  /-- What is below the bottom of the stack, or in a register never written. -/
  | undefined
  deriving DecidableEq

namespace Value

/-- The number of a register, or nothing. -/
def ofOption : Option Float → Value
  | some x => .number x
  | none => .undefined

/-- The value as an operand: a text has to be a number and nothing else, or
blank, which is zero. -/
def toFloat : Value → Float
  | .number x => x
  | .text s =>
    let cs := Text.trim s.toList
    if cs.isEmpty then Number.zero false else (Number.readWhole? cs).getD Number.nan
  | .undefined => Number.nan

/-- The value as the name of a register. -/
def toName : Value → String
  | .number x => Number.format x
  | .text s => s
  | .undefined => "undefined"

/-- The value as a result: a text counts by the number that it begins with. -/
def result? : Value → Option Float
  | .number x => if x.isNaN then none else some x
  | .text s => Number.read? s
  | .undefined => none

/-- Whether the value is the number zero. -/
def isZero : Value → Bool
  | .number x => x == Number.zero false
  | _ => false

end Value

end Reckoner
