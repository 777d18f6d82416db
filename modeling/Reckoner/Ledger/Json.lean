import Reckoner.Batch.Json
import Reckoner.Ledger.Basic
import Reckoner.Values.Json

/-!
# Ledgers in JSON

A ledger is read and written with all of its lists; a section without a name
has no member for it. A recalculated ledger is written only.

* `Ledger.toJson`, `Ledger.shape`: writing and reading a ledger;
* `LedgerReport.toJson`: writing a recalculated one.
-/

namespace Reckoner

open Json.Shape (text list required optional orDefault)

namespace Column

/-- A column as a value of a document. -/
def toJson (c : Column) : Json :=
  .object [("name", .string c.name), ("expression", .string c.expression),
    ("deleted", .bool c.deleted)]

/-- The column that a value of a document holds. -/
def shape : Json.Shape Column :=
  Json.Shape.record ["name", "expression", "deleted"] fun room r => do
    let name ← required (text room) (r.get? "name")
    let expression ← required (text room) (r.get? "expression")
    let deleted ← orDefault (Json.Shape.bool room) false (r.get? "deleted")
    return ⟨name, expression, deleted⟩

end Column

namespace Line

/-- A line as a value of a document. -/
def toJson (line : Line) : Json :=
  .object [("fields", .array (line.fields.map Entry.toJson)),
    ("columns", .array (line.columns.map Column.toJson))]

/-- The line that a value of a document holds. -/
def shape : Json.Shape Line :=
  Json.Shape.record ["fields", "columns"] fun room r => do
    let fields ← orDefault (list Entry.shape room) [] (r.get? "fields")
    let columns ← orDefault (list Column.shape room) [] (r.get? "columns")
    return ⟨fields, columns⟩

end Line

namespace Section

/-- A section as a value of a document. -/
def toJson (s : Section) : Json :=
  .object (Json.member? "name" .string s.name ++
    [("lines", .array (s.lines.map Line.toJson))])

/-- The section that a value of a document holds. -/
def shape : Json.Shape Section :=
  Json.Shape.record ["name", "lines"] fun room r => do
    let name ← optional (text room) (r.get? "name")
    let lines ← orDefault (list Line.shape room) [] (r.get? "lines")
    return ⟨name, lines⟩

end Section

namespace Ledger

/-- A ledger as a value of a document. -/
def toJson (ledger : Ledger) : Json :=
  .object [("sections", .array (ledger.sections.map Section.toJson))]

/-- The ledger that a value of a document holds. -/
def shape : Json.Shape Ledger :=
  Json.Shape.record ["sections"] fun room r => do
    let sections ← orDefault (list Section.shape room) [] (r.get? "sections")
    return ⟨sections⟩

end Ledger

namespace SectionReport

/-- A recalculated section as a value of a document. -/
def toJson (s : SectionReport) : Json :=
  let line (columns : List CalculatedValue) : Json :=
    .object [("columns", .array (columns.map CalculatedValue.toJson))]
  .object (Json.member? "name" .string s.name ++
    [("register", .string s.register), ("subtotal", Json.ofFloat s.subtotal),
      ("lines", .array (s.lines.map line))])

end SectionReport

namespace LedgerReport

/-- A recalculated ledger as a value of a document. -/
def toJson (report : LedgerReport) : Json :=
  .object [("sections", .array (report.sections.map SectionReport.toJson))]

end LedgerReport

end Reckoner
