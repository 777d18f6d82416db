import Reckoner.Machine.Basic
import Reckoner.Proofs.Number.RoundTrip

/-!
# Results are numbers

What an evaluation returns is never the value that is no number (`isNaN_evaluate`).
-/

namespace Reckoner

theorem Value.isNaN_of_result? {v : Value} {x : Float} (h : v.result? = some x) :
    x.isNaN = false := by
  cases v with
  | number y =>
    rw [result?] at h
    split at h
    · cases h
    · next hnumber =>
      obtain rfl := Option.some.inj h
      simpa using hnumber
  | text s => exact Number.isNaN_of_read? h
  | undefined => cases h

theorem Machine.isNaN_result (m : Machine) : m.result.isNaN = false := by
  rw [result]
  cases hresult : m.pop.1.result? with
  | none => exact Number.isNaN_ofBits false (Nat.zero_le _)
  | some x => exact Value.isNaN_of_result? hresult

theorem isNaN_evaluate (expression : String) (r : Registers) :
    (evaluate expression r).1.isNaN = false :=
  Machine.isNaN_result _

end Reckoner
