import Reckoner.Ledger.Basic
import Reckoner.Proofs.Machine.Stable

/-!
# Recalculating a ledger

A ledger evaluates the expressions of its columns, but not of deleted ones, and after those of
a section one that stores the sum (`Ledger.texts`). The registers in the end are those after
these expressions (`Ledger.registers_recalculate`), and the values in the report are the
results of them (`Ledger.reported_recalculate`).
-/

namespace Reckoner.Ledger

variable (options : CalculationOptions)

/-! ## Expressions -/

/-- The expressions that columns evaluate, one after another. -/
def columnTexts : List Column → LineState → List String
  | [], _ => []
  | column :: rest, s =>
    if column.deleted then columnTexts rest (columnStep options s column)
    else columnText s.scope column :: columnTexts rest (columnStep options s column)

/-- The expressions that lines evaluate, one after another. -/
def lineTexts : List Line → SectionState → List String
  | [], _ => []
  | line :: rest, s =>
    columnTexts options line.columns (lineStart line s.registers s.subtotal) ++
      lineTexts rest (lineStep options s line)

/-- The expressions that sections from a position on evaluate, one after another. -/
def sectionTexts : List Section → Nat → Registers → List String
  | [], _, _ => []
  | s :: rest, index, r =>
    lineTexts options s.lines ⟨r, Number.zero false, []⟩ ++
      subtotalText (sectionLines options s r).subtotal (subtotalRegister index) ::
        sectionTexts rest (index + 1) (sectionStep options s index r).2

/-- The expressions that a ledger evaluates, one after another. -/
def texts (ledger : Ledger) (r : Registers) : List String :=
  sectionTexts options ledger.sections 0 r

/-! ## Registers -/

theorem registers_columns (columns : List Column) (s : LineState) :
    (columns.foldl (columnStep options) s).registers =
      evaluateAll (columnTexts options columns s) s.registers := by
  induction columns generalizing s with
  | nil => rfl
  | cons column rest ih =>
    have hstep : (columnStep options s column).registers =
        (columnValue s.scope column s.registers).2 := rfl
    rw [List.foldl_cons, ih, columnTexts, hstep, columnValue]
    by_cases hdeleted : column.deleted = true
    · rw [if_pos hdeleted, if_pos hdeleted]
    · rw [if_neg hdeleted, if_neg hdeleted, evaluateAll_cons]

theorem registers_lineStep (s : SectionState) (line : Line) :
    (lineStep options s line).registers =
      evaluateAll (columnTexts options line.columns (lineStart line s.registers s.subtotal))
        s.registers :=
  registers_columns options line.columns (lineStart line s.registers s.subtotal)

theorem registers_lines (lines : List Line) (s : SectionState) :
    (lines.foldl (lineStep options) s).registers =
      evaluateAll (lineTexts options lines s) s.registers := by
  induction lines generalizing s with
  | nil => rfl
  | cons line rest ih =>
    rw [List.foldl_cons, ih, lineTexts, evaluateAll_append, registers_lineStep]

theorem registers_sectionLines (s : Section) (r : Registers) :
    (sectionLines options s r).registers =
      evaluateAll (lineTexts options s.lines ⟨r, Number.zero false, []⟩) r :=
  registers_lines options s.lines ⟨r, Number.zero false, []⟩

theorem registers_sections (sections : List Section) (index : Nat) (r : Registers) :
    (sectionSteps options sections index r).2 =
      evaluateAll (sectionTexts options sections index r) r := by
  induction sections generalizing index r with
  | nil => rfl
  | cons s rest ih =>
    have hstep : (sectionStep options s index r).2 =
        (evaluate (subtotalText (sectionLines options s r).subtotal (subtotalRegister index))
          (sectionLines options s r).registers).2 := rfl
    have hsteps : (sectionSteps options (s :: rest) index r).2 =
        (sectionSteps options rest (index + 1) (sectionStep options s index r).2).2 := rfl
    rw [hsteps, ih, sectionTexts, evaluateAll_append, ← registers_sectionLines, evaluateAll_cons,
      ← hstep]

theorem registers_recalculate (ledger : Ledger) (r : Registers) :
    (ledger.recalculate options r).2 = evaluateAll (ledger.texts options r) r :=
  registers_sections options ledger.sections 0 r

/-! ## Reports -/

/-- Values reported for columns, and results of evaluations: there is one result for each
column that is not deleted, and it is its value. -/
inductive ColumnsReported : List Column → List CalculatedValue → List Float → Prop where
  | nil : ColumnsReported [] [] []
  | deleted {column : Column} {columns : List Column} {v : CalculatedValue}
    {values : List CalculatedValue} {results : List Float} (hdeleted : column.deleted = true)
    (hname : v.name = column.name) (h : ColumnsReported columns values results) :
    ColumnsReported (column :: columns) (v :: values) results
  | evaluated {column : Column} {columns : List Column} {v : CalculatedValue}
    {values : List CalculatedValue} {results : List Float} (hkept : column.deleted = false)
    (hname : v.name = column.name) (h : ColumnsReported columns values results) :
    ColumnsReported (column :: columns) (v :: values) (v.value :: results)

/-- The results for lines are those for the columns of each. -/
inductive LinesReported : List Line → List (List CalculatedValue) → List Float → Prop where
  | nil : LinesReported [] [] []
  | cons {line : Line} {lines : List Line} {values : List CalculatedValue}
    {done : List (List CalculatedValue)} {results later : List Float}
    (h : ColumnsReported line.columns values results) (hrest : LinesReported lines done later) :
    LinesReported (line :: lines) (values :: done) (results ++ later)

/-- The results for sections are those for the lines of each, and that of the expression that
stores the sum. -/
inductive SectionsReported : List Section → List SectionReport → List Float → Prop where
  | nil : SectionsReported [] [] []
  | cons {s : Section} {sections : List Section} {report : SectionReport}
    {reports : List SectionReport} {results later : List Float} (stored : Float)
    (h : LinesReported s.lines report.lines results)
    (hrest : SectionsReported sections reports later) :
    SectionsReported (s :: sections) (report :: reports) (results ++ stored :: later)

variable {options}

theorem columns_columnStep (s : LineState) (column : Column) :
    ∃ v : CalculatedValue, (columnStep options s column).columns = s.columns ++ [v] ∧
      v.name = column.name ∧ v.value = (columnValue s.scope column s.registers).1 :=
  ⟨_, rfl, rfl, rfl⟩

theorem columnsReported_foldl (columns : List Column) (s : LineState) :
    ∃ values, (columns.foldl (columnStep options) s).columns = s.columns ++ values ∧
      ColumnsReported columns values
        (Call.results (columnTexts options columns s) s.registers) := by
  induction columns generalizing s with
  | nil => exact ⟨[], (List.append_nil _).symm, .nil⟩
  | cons column rest ih =>
    obtain ⟨v, hcolumns, hname, hv⟩ := columns_columnStep s column
    obtain ⟨values, heq, hvalues⟩ := ih (columnStep options s column)
    have hregisters : (columnStep options s column).registers =
        (columnValue s.scope column s.registers).2 := rfl
    rw [hregisters] at hvalues
    refine ⟨v :: values, ?_, ?_⟩
    · rw [List.foldl_cons, heq, hcolumns, List.append_assoc, List.singleton_append]
    rw [columnTexts]
    by_cases hdeleted : column.deleted = true
    · rw [columnValue, if_pos hdeleted] at hvalues
      rw [if_pos hdeleted]
      exact .deleted hdeleted hname hvalues
    · rw [columnValue, if_neg hdeleted] at hv hvalues
      rw [if_neg hdeleted, Call.results_cons, ← hv]
      exact .evaluated (Bool.eq_false_iff.2 hdeleted) hname hvalues

theorem linesReported_foldl (lines : List Line) (s : SectionState) :
    ∃ done, (lines.foldl (lineStep options) s).lines = s.lines ++ done ∧
      LinesReported lines done (Call.results (lineTexts options lines s) s.registers) := by
  induction lines generalizing s with
  | nil => exact ⟨[], (List.append_nil _).symm, .nil⟩
  | cons line rest ih =>
    obtain ⟨values, hcolumns, hvalues⟩ :=
      columnsReported_foldl line.columns (lineStart line s.registers s.subtotal)
    obtain ⟨done, heq, hdone⟩ := ih (lineStep options s line)
    have hlines : (lineStep options s line).lines = s.lines ++ [values] :=
      congrArg (s.lines ++ [·]) hcolumns
    refine ⟨values :: done, ?_, ?_⟩
    · rw [List.foldl_cons, heq, hlines, List.append_assoc, List.singleton_append]
    · rw [lineTexts, Call.results_append, ← registers_lineStep]
      exact .cons hvalues hdone

theorem sectionsReported_sectionSteps (sections : List Section) (index : Nat) (r : Registers) :
    SectionsReported sections (sectionSteps options sections index r).1
      (Call.results (sectionTexts options sections index r) r) := by
  induction sections generalizing index r with
  | nil => exact .nil
  | cons s rest ih =>
    obtain ⟨done, heq, hdone⟩ := linesReported_foldl s.lines ⟨r, Number.zero false, []⟩
    rw [List.nil_append] at heq
    rw [sectionTexts, Call.results_append, ← registers_sectionLines, Call.results_cons]
    exact .cons _ (heq ▸ hdone) (ih (index + 1) _)

/-- The values in the report of a ledger are the results of its expressions. -/
theorem reported_recalculate (ledger : Ledger) (r : Registers) :
    SectionsReported ledger.sections (ledger.recalculate options r).1.sections
      (Call.results (ledger.texts options r) r) :=
  sectionsReported_sectionSteps ledger.sections 0 r

end Reckoner.Ledger
