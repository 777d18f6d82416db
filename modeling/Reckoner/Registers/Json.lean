import Reckoner.Json.Real
import Reckoner.Registers

/-!
# Registers in JSON

A store is an object with a number for every register, sorted by name. What is
read is written to a new store, so the machine's registers are always there.
-/

namespace Reckoner.Registers

/-- A store as a value of a document. -/
def toJson (r : Registers) : Json :=
  .object (r.toList.map fun (name, x) => (name, Json.ofFloat x))

/-- The store that a value of a document holds. -/
def shape : Json.Shape Registers
  | 0, _ => none
  | room + 1, .object members =>
    (members.mapM fun m => (Json.Shape.real room m.2).map fun x => (m.1, x)).map ofList
  | _, _ => none

end Reckoner.Registers
