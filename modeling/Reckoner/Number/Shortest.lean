import Reckoner.Number.Decimal

/-!
# The fewest digits that read back

A double is written with the fewest decimal digits that read back to it, and
of several such numbers with the one nearest to it. `shortest` looks for it on
ever finer decimal grids, from the power of ten above the value to the value
itself; on each grid only the two neighbours of the value need a look, since
the numbers that read back form an interval around it.

* `bits_search`: what the search returns reads back.
-/

namespace Reckoner.Number

/-- Which of two equally near decimal numbers is chosen. -/
inductive Tie where
  | up
  | even
  deriving DecidableEq

namespace Decimal

/-- The neighbours of `d` on the grid `dropped` digits coarser, nearest first;
one that `d` lies on stands alone. -/
def neighbours (tie : Tie) (d : Decimal) (dropped : Nat) : List Decimal :=
  let unit := Nat.pow 10 dropped
  let down := d.digits / unit
  let rest := d.digits % unit
  let point (n : Nat) : Decimal := ⟨n, d.exponent + dropped⟩
  if rest = 0 then [point down]
  else
    match compare (2 * rest) unit, tie with
    | .lt, _ => [point down, point (down + 1)]
    | .gt, _ => [point (down + 1), point down]
    | .eq, .up => [point (down + 1), point down]
    | .eq, .even => if down % 2 = 0 then [point down, point (down + 1)] else [point (down + 1), point down]

/-- The first number with pattern `bits` among the neighbours of `d` on the
grids from `dropped` digits coarser on, and `d` itself if there is none. -/
def search (tie : Tie) (bits : Nat) (d : Decimal) : Nat → Decimal
  | 0 => d
  | dropped + 1 =>
    match (d.neighbours tie (dropped + 1)).find? (fun c => c.bits == bits) with
    | some c => c
    | none => search tie bits d dropped

/-- The search keeps the pattern of its start. -/
theorem bits_search (tie : Tie) {bits : Nat} {d : Decimal} (h : d.bits = bits) (dropped : Nat) :
    (search tie bits d dropped).bits = bits := by
  induction dropped with
  | zero => exact h
  | succ n ih =>
    rw [search]
    split
    · next c hc => simpa using List.find?_some hc
    · exact ih

end Decimal

/-- The shortest decimal number that reads back as the positive double
`significand * 2 ^ exponent`. -/
def shortest (tie : Tie) (significand : Nat) (exponent : Int) : Decimal :=
  let d := Decimal.ofScaled significand exponent
  d.search tie d.bits (Nat.toDigits 10 d.digits).length

end Reckoner.Number
