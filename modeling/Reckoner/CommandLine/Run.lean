import Reckoner.CommandLine.Arguments
import Reckoner.CommandLine.ValuesFile
import Reckoner.Ledger.Json
import Reckoner.Session

/-!
# Running commands

What each command prints, given the contents of files. A command that fails
prints nothing: it reads and evaluates all there is before its first line.

* `Command.run`: the output of a command, or why there is none.
-/

namespace Reckoner.CommandLine

/-- Why a command fails. -/
inductive CommandError where
  | unreadable (file : String)
  | unparsable (file : String)
  | badEntries (file : String)
  | notAnObject (file : String)
  /-- The batch in a file ends with a failure. -/
  | evaluation (file : String) (failure : Failure)
  | invalid (failure : Failure)
  deriving DecidableEq

namespace CommandError

/-- The words for an error. -/
def message : CommandError → String
  | .unreadable file => "Failed to read '" ++ file ++ "'"
  | .unparsable file => "Failed to parse '" ++ file ++ "'"
  | .badEntries file => "Invalid value entries in '" ++ file ++ "'"
  | .notAnObject file => "Expected a JSON object in '" ++ file ++ "'"
  | .evaluation file _ => "Failed to evaluate '" ++ file ++ "'"
  | .invalid failure => failure.message

/-- The failure behind an error. -/
def cause? : CommandError → Option Failure
  | .evaluation _ failure => some failure
  | _ => none

/-- The error of a file of values. -/
def ofProblem (file : String) : ValuesFile.Problem → CommandError
  | .notJson => .unparsable file
  | .badEntries => .badEntries file
  | .notAnObject => .notAnObject file

end CommandError

/-- The contents of files by name. -/
abbrev Files := String → Option String

/-- The content of a file. -/
def content (files : Files) (file : String) : Except CommandError String :=
  match files file with
  | some s => .ok s
  | none => .error (.unreadable file)

/-- The document of a known shape in a file. -/
def document {α : Type} (shape : Json.Shape α) (files : Files) (file : String) :
    Except CommandError α := do
  let s ← content files file
  match Json.Shape.read? shape s with
  | some a => .ok a
  | none => .error (.unparsable file)

/-- The values in a file. -/
def values (files : Files) (file : String) : Except CommandError ValueTable := do
  let s ← content files file
  (ValuesFile.table? s).mapError (CommandError.ofProblem file)

/-- The values in a file, if one is named. -/
def values? (files : Files) : Option String → Except CommandError (Option ValueTable)
  | none => .ok none
  | some file => (values files file).map some

/-! ## Output -/

/-- Lines of output. -/
def lines (ls : List String) : String :=
  String.join (ls.map (· ++ "\n"))

/-- The lines for the registers of a session. -/
def registerLines (s : Session) : List String :=
  "registers:" :: s.registers.toList.map fun (name, x) => "  " ++ name ++ " = " ++ Number.format x

/-- The lines for the registers, if they are asked for. -/
def registerLinesIf (shown : Bool) (s : Session) : List String :=
  if shown then registerLines s else []

/-- The lines for the values of a calculation. -/
def reportLines (report : CalculationReport) : List String :=
  report.values.map fun v => v.name ++ " = " ++ v.rendered

/-- The line for a line of a ledger. -/
def ledgerLine (columns : List CalculatedValue) (index : Nat) : String :=
  "  " ++ (index + 1).repr ++ ": " ++ Text.unwords (columns.map fun c => c.name ++ "=" ++ c.rendered)

/-- The lines for a section of a ledger. -/
def sectionLines (s : SectionReport) (index : Nat) : List String :=
  ("[" ++ index.repr ++ "] " ++ s.name.getD "") ::
    (s.lines.zipIdx.map fun (columns, i) => ledgerLine columns i) ++
      ["  " ++ s.register ++ " = " ++ Number.format s.subtotal]

/-- The lines for a ledger. -/
def ledgerLines (report : LedgerReport) : List String :=
  report.sections.zipIdx.flatMap fun (s, i) => sectionLines s i

/-! ## Commands -/

namespace Command

/-- The name and the version of the program. -/
def versionLine : String := "tally 0.1.0"

/-- The value of an expression. -/
def runEval (files : Files) (expression : String) (valuesFile : Option String) (shown : Bool) :
    Except CommandError String := do
  let table ← values? files valuesFile
  let (x, s) := match table with
    | some t => Session.new.evaluateWith expression t.toSource
    | none => Session.new.evaluate expression
  return lines (Number.format x :: registerLinesIf shown s)

/-- The number of words of an expression in which all of them mean something. -/
def runCheck (expression : String) : Except CommandError String :=
  match validate expression with
  | .ok p => .ok (lines ["ok (" ++ p.length.repr ++ " tokens)"])
  | .error failure => .error (.invalid failure)

/-- The values of a batch. -/
def runBatch (files : Files) (input : String) (valuesFile outerFile : Option String)
    (options : CalculationOptions) (format : OutputFormat) (shown : Bool) :
    Except CommandError String := do
  let nodes ← document Node.listShape files input
  let inner ← values? files valuesFile
  let outer ← values? files outerFile
  let scope : Batch.Scope :=
    ⟨(inner.getD ValueTable.empty).toSource, outer.map ValueTable.toSource⟩
  match Session.new.calculate options scope nodes with
  | (.error failure, _) => .error (.evaluation input failure)
  | (.ok report, s) =>
    let body := match format with
      | .text => reportLines report
      | .json => [report.toJson.pretty]
    .ok (lines (body ++ registerLinesIf shown s))

/-- The columns and sums of a ledger. -/
def runLedger (files : Files) (input : String) (options : CalculationOptions)
    (format : OutputFormat) (shown : Bool) : Except CommandError String := do
  let ledger ← document Ledger.shape files input
  let (report, s) := Session.new.recalculateLedger options ledger
  let body := match format with
    | .text => ledgerLines report
    | .json => [report.toJson.pretty]
  return lines (body ++ registerLinesIf shown s)

/-- The output of a command, or why there is none. -/
def run (files : Files) : Command → Except CommandError String
  | .version => .ok (lines [versionLine])
  | .eval expression valuesFile shown => runEval files expression valuesFile shown
  | .check expression => runCheck expression
  | .batch input valuesFile outerFile precision format shown =>
    runBatch files input valuesFile outerFile ⟨precision⟩ format shown
  | .ledger input precision format shown => runLedger files input ⟨precision⟩ format shown

/-- The files that a command names. -/
def files : Command → List String
  | .version => []
  | .eval _ valuesFile _ => valuesFile.toList
  | .check _ => []
  | .batch input valuesFile outerFile _ _ _ => input :: valuesFile.toList ++ outerFile.toList
  | .ledger input _ _ _ => [input]

end Command

end Reckoner.CommandLine
