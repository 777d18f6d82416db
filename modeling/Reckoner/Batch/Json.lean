import Reckoner.Calculation
import Reckoner.Json.Real

/-!
# Batches and calculations in JSON

A list of nodes is an array of objects, an output is an object with its values
in the order of commitment, and a report lists its values with their texts.
-/

namespace Reckoner

open Json.Shape (text list required optional)

namespace Node

/-- A node as a value of a document. -/
def toJson (node : Node) : Json :=
  .object (Json.member? "name" .string node.name ++ [("expression", .string node.expression)])

/-- The node that a value of a document holds. -/
def shape : Json.Shape Node :=
  Json.Shape.record ["name", "expression"] fun room r => do
    let name ← optional (text room) (r.get? "name")
    let expression ← required (text room) (r.get? "expression")
    return ⟨name, expression⟩

/-- A list of nodes as a value of a document. -/
def listToJson (nodes : List Node) : Json :=
  .array (nodes.map toJson)

/-- The list of nodes that a value of a document holds. -/
def listShape : Json.Shape (List Node) :=
  list shape

end Node

namespace BatchOutput

/-- The values of an output as a value of a document. -/
def toJson (o : BatchOutput) : Json :=
  .object (o.values.map fun (name, x) => (name, Json.ofFloat x))

end BatchOutput

namespace CalculationOptions

/-- Options as a value of a document. -/
def toJson (options : CalculationOptions) : Json :=
  .object (Json.member? "precision" (fun n => Json.ofNat n.toNat) options.precision)

/-- The options that a value of a document holds. -/
def shape : Json.Shape CalculationOptions :=
  Json.Shape.record ["precision"] fun room r => do
    let precision ← optional (Json.Shape.count room) (r.get? "precision")
    return ⟨precision⟩

end CalculationOptions

namespace CalculatedValue

/-- A named value with its text as a value of a document. -/
def toJson (v : CalculatedValue) : Json :=
  .object [("name", .string v.name), ("value", Json.ofFloat v.value),
    ("rendered", .string v.rendered)]

end CalculatedValue

namespace CalculationReport

/-- A report as a value of a document. -/
def toJson (report : CalculationReport) : Json :=
  .object [("values", .array (report.values.map CalculatedValue.toJson)),
    ("evaluated", Json.ofNat report.evaluated)]

end CalculationReport

end Reckoner
