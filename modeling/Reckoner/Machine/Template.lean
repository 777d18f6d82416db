import Reckoner.Program.Basic

/-!
# Templates

What a fold over registers is told in a text: the name that the registers begin
with, the first and the last index, the number to start with, and the words of
the expression to run for each register.

* `RegisterRange.ofFields?`: the registers that the first three words name;
* `Template.parse?`: a template, with at most `maxSteps` registers.
-/

namespace Reckoner

/-- The registers `base ++ first` to `base ++ last`. -/
structure RegisterRange where
  base : String
  first : Int
  last : Int
  deriving DecidableEq

namespace RegisterRange

/-- A written index: a finite number without its fraction, within 64 bits. -/
def index? (field : String) : Option Int := do
  let x ← Number.read? field
  let n ← Number.truncate? x
  return Number.clamp64 n

/-- The registers that words name: the base, with or without tildes in front,
and the two ends. -/
def ofFields? : List String → Option RegisterRange
  | base :: first :: last :: _ => do
    let first ← index? first
    let last ← index? last
    return ⟨String.ofList (base.toList.dropWhile (· == '~')), first, last⟩
  | _ => none

/-- The name of the register with an index. -/
def register (r : RegisterRange) (index : Int) : String :=
  r.base ++ index.repr

/-- The number of registers. -/
def size (r : RegisterRange) : Nat :=
  (r.last - r.first + 1).toNat

/-- The names of all registers, in order. -/
def registers (r : RegisterRange) : List String :=
  (List.range r.size).map fun n : Nat => r.register (r.first + n)

end RegisterRange

/-- A fold over registers. -/
structure Template where
  range : RegisterRange
  initial : Float
  /-- The expression to run for each register. -/
  body : Program

namespace Template

/-- The most registers that one fold visits. -/
def maxSteps : Nat := 1000000

/-- The template that a text holds. -/
def parse? (s : String) : Option Template :=
  match Text.words s with
  | base :: first :: last :: initial :: word :: words =>
    match RegisterRange.ofFields? [base, first, last] with
    | some range =>
      if range.size ≤ maxSteps then
        some ⟨range, Number.readOrZero initial, Program.ofTokens (word :: words)⟩
      else none
    | none => none
  | _ => none

end Template

end Reckoner
