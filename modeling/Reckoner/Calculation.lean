import Reckoner.Batch.Basic

/-!
# Calculations

A calculation is a batch with its values written out, with a fixed number of
decimals or with as many as they have.

* `CalculationOptions.render`: the text of a value;
* `CalculationReport.ofOutput`: the values of a batch with their texts.
-/

namespace Reckoner

/-- How values are written: with a number of decimals, or in full. -/
structure CalculationOptions where
  precision : Option UInt64
  deriving DecidableEq

namespace CalculationOptions

/-- The text of a value. -/
def render (options : CalculationOptions) (x : Float) : String :=
  match options.precision with
  | some places => Number.formatFixed places.toNat x
  | none => Number.format x

end CalculationOptions

/-- A named value and its text. -/
structure CalculatedValue where
  name : String
  value : Float
  rendered : String
  deriving DecidableEq

/-- The values of a calculation in the order they were committed in, and the
number of nodes evaluated. -/
structure CalculationReport where
  values : List CalculatedValue
  evaluated : Nat
  deriving DecidableEq

namespace CalculationReport

/-- The values of a batch with their texts. -/
def ofOutput (options : CalculationOptions) (o : BatchOutput) : CalculationReport :=
  ⟨o.values.map fun (name, x) => ⟨name, x, options.render x⟩, o.evaluated⟩

/-- The entry of a name. -/
def find? (report : CalculationReport) (name : String) : Option CalculatedValue :=
  report.values.find? fun v => v.name == name

end CalculationReport

/-- A batch with its values written out, and the registers in the end. -/
def calculate (options : CalculationOptions) (scope : Batch.Scope) (nodes : List Node)
    (r : Registers) : Except Failure CalculationReport × Registers :=
  let (output, r) := Batch.evaluate scope nodes r
  (output.map (CalculationReport.ofOutput options), r)

end Reckoner
