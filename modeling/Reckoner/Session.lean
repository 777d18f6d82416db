import Reckoner.Ledger.Basic

/-!
# Sessions

A session keeps the registers from one evaluation to the next. Every operation
gives its answer and the session that follows. A session that several callers
share takes their operations one after another, so it is the same.

* `Session.evaluate`, `evaluateWith`, `evaluateBatch`, `calculate`,
  `recalculateLedger`, `reset`: the operations.
-/

namespace Reckoner

/-- The registers that evaluations have in common. -/
structure Session where
  registers : Registers

namespace Session

/-- A session with new registers. -/
def new : Session := ⟨Registers.new⟩

/-- The value of an expression. -/
def evaluate (s : Session) (expression : String) : Float × Session :=
  let (x, r) := Reckoner.evaluate expression s.registers
  (x, ⟨r⟩)

/-- The value of an expression on a stack. -/
def evaluateOn (s : Session) (expression : String) (stack : List Value) : Float × Session :=
  let (x, r) := Reckoner.evaluateOn expression stack s.registers
  (x, ⟨r⟩)

/-- The value of an expression that refers to the values of a source. -/
def evaluateWith (s : Session) (expression : String) (source : ValueSource) : Float × Session :=
  s.evaluate (substitute expression source)

/-- A batch, added to what an output holds already. -/
def evaluateBatchInto (s : Session) (scope : Batch.Scope) (nodes : List Node)
    (output : BatchOutput) : BatchOutput × Option Failure × Session :=
  let (state, failure) := Batch.evaluateInto scope nodes ⟨s.registers, output⟩
  (state.output, failure, ⟨state.registers⟩)

/-- A batch of its own. -/
def evaluateBatch (s : Session) (scope : Batch.Scope) (nodes : List Node) :
    Except Failure BatchOutput × Session :=
  let (output, r) := Batch.evaluate scope nodes s.registers
  (output, ⟨r⟩)

/-- A batch with its values written out. -/
def calculate (s : Session) (options : CalculationOptions) (scope : Batch.Scope)
    (nodes : List Node) : Except Failure CalculationReport × Session :=
  let (report, r) := Reckoner.calculate options scope nodes s.registers
  (report, ⟨r⟩)

/-- All columns and sums of a ledger. -/
def recalculateLedger (s : Session) (options : CalculationOptions) (ledger : Ledger) :
    LedgerReport × Session :=
  let (report, r) := ledger.recalculate options s.registers
  (report, ⟨r⟩)

/-- A register written from outside. -/
def setRegister (s : Session) (name : String) (x : Float) : Session :=
  ⟨s.registers.set name x⟩

/-- The session with new registers. -/
def reset (_ : Session) : Session := new

end Session

end Reckoner
