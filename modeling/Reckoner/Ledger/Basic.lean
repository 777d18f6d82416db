import Reckoner.Calculation
import Reckoner.Values.Table

/-!
# Ledgers

A ledger has sections, a section has lines, and a line has fields and computed
columns. The columns of a line are evaluated in order; each reads the fields
and the text of the columns before it. The sum of all columns of a section is
stored in a register, where later sections can read it.

* `Ledger.recalculate`: all columns and sums of a ledger.
-/

namespace Reckoner

/-- A computed column; a deleted one has the value zero. -/
structure Column where
  name : String
  expression : String
  deleted : Bool
  deriving DecidableEq

/-- A line: the fields that its columns refer to, and the columns. -/
structure Line where
  fields : List Entry
  columns : List Column
  deriving DecidableEq

/-- A section: lines under a name. -/
structure Section where
  name : Option String
  lines : List Line
  deriving DecidableEq

/-- A list of sections. -/
structure Ledger where
  sections : List Section
  deriving DecidableEq

/-- A recalculated section: the values of its lines, their sum, and the register
that the sum is stored in. -/
structure SectionReport where
  name : Option String
  register : String
  subtotal : Float
  lines : List (List CalculatedValue)
  deriving DecidableEq

/-- A recalculated ledger. -/
structure LedgerReport where
  sections : List SectionReport
  deriving DecidableEq

namespace Ledger

/-- The register for the sum of a section. -/
def subtotalRegister (index : Nat) : String :=
  "IVALUE" ++ index.repr

/-- A line under way: the values that its next column can refer to, the
registers, the sum of the section, and the columns done so far. -/
structure LineState where
  scope : ValueTable
  registers : Registers
  subtotal : Float
  columns : List CalculatedValue

/-- The expression that a column runs. -/
def columnText (scope : ValueTable) (column : Column) : String :=
  substitute column.expression scope.toSource

/-- The value of a column, and the registers after it. -/
def columnValue (scope : ValueTable) (column : Column) (r : Registers) : Float × Registers :=
  if column.deleted then (Number.zero false, r) else evaluate (columnText scope column) r

/-- One column. Later columns refer to its text, not to its value. -/
def columnStep (options : CalculationOptions) (s : LineState) (column : Column) : LineState :=
  let (x, r) := columnValue s.scope column s.registers
  let rendered := options.render x
  ⟨s.scope.set column.name (RawValue.ofText rendered), r, s.subtotal + x,
    s.columns ++ [⟨column.name, x, rendered⟩]⟩

/-- A line before its first column. -/
def lineStart (line : Line) (r : Registers) (subtotal : Float) : LineState :=
  ⟨⟨line.fields, none⟩, r, subtotal, []⟩

/-- A section under way: the registers, the sum, and the lines done so far. -/
structure SectionState where
  registers : Registers
  subtotal : Float
  lines : List (List CalculatedValue)

/-- One line. -/
def lineStep (options : CalculationOptions) (s : SectionState) (line : Line) : SectionState :=
  let done := line.columns.foldl (columnStep options) (lineStart line s.registers s.subtotal)
  ⟨done.registers, done.subtotal, s.lines ++ [done.columns]⟩

/-- The lines of a section. -/
def sectionLines (options : CalculationOptions) (s : Section) (r : Registers) : SectionState :=
  s.lines.foldl (lineStep options) ⟨r, Number.zero false, []⟩

/-- The expression that stores a sum in a register. -/
def subtotalText (subtotal : Float) (register : String) : String :=
  Number.format subtotal ++ " ~" ++ register ++ " str"

/-- One section with its position. -/
def sectionStep (options : CalculationOptions) (s : Section) (index : Nat) (r : Registers) :
    SectionReport × Registers :=
  let done := sectionLines options s r
  let register := subtotalRegister index
  let (_, r) := evaluate (subtotalText done.subtotal register) done.registers
  (⟨s.name, register, done.subtotal, done.lines⟩, r)

/-- Sections from a position on. -/
def sectionSteps (options : CalculationOptions) :
    List Section → Nat → Registers → List SectionReport × Registers
  | [], _, r => ([], r)
  | s :: rest, index, r =>
    let (report, r) := sectionStep options s index r
    let (reports, r) := sectionSteps options rest (index + 1) r
    (report :: reports, r)

/-- All columns and sums of a ledger, and the registers in the end. -/
def recalculate (options : CalculationOptions) (ledger : Ledger) (r : Registers) :
    LedgerReport × Registers :=
  let (sections, r) := sectionSteps options ledger.sections 0 r
  (⟨sections⟩, r)

end Ledger

end Reckoner
