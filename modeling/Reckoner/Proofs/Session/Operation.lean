import Reckoner.Proofs.Batch.Order
import Reckoner.Proofs.Ledger.Run
import Reckoner.Session

/-!
# Operations on a session

An operation evaluates expressions one after another (`Session.Operation.texts`), and may
write to the registers (`Session.Operation.write`); this is all that it does to a session
(`Session.registers_perform`). The numbers in its answer are the results of these expressions
(`Session.answers_perform`).
-/

namespace Reckoner

/-! ## Batches -/

namespace Batch

variable {scope : Scope} {nodes : List Node}

/-- The expressions that a batch evaluates, one after another. -/
def texts (scope : Scope) (nodes : List Node) (r : Registers) : List String :=
  (executed scope nodes (graph nodes).walk.1 ⟨r, .empty⟩).map Prod.snd

theorem registers_evaluate (scope : Scope) (nodes : List Node) (r : Registers) :
    (evaluate scope nodes r).2 = evaluateAll (texts scope nodes r) r := by
  have hsteps : (evaluate scope nodes r).2 =
      (steps scope nodes (graph nodes).walk.1 ⟨r, .empty⟩).registers := by
    unfold evaluate evaluateInto
    generalize (graph nodes).walk = walk
    obtain ⟨order, _ | failure⟩ := walk
    · rfl
    · rfl
  rw [hsteps, registers_steps, evaluateAll, texts, List.foldl_map]

/-- Nodes that are run, their results, and the output before and after them. -/
inductive NodesReported : List Node → List Float → BatchOutput → BatchOutput → Prop where
  | nil {o : BatchOutput} : NodesReported [] [] o o
  | cons {node : Node} {rest : List Node} {x : Float} {results : List Float}
    {o final : BatchOutput} (h : NodesReported rest results (o.record node.name x) final) :
    NodesReported (node :: rest) (x :: results) o final

/-- Every node is run once, and its result is recorded. -/
def Reported (nodes : List Node) (results : List Float) (o : BatchOutput) : Prop :=
  ∃ run : List Node, run.Perm nodes ∧ NodesReported run results .empty o

theorem nodesReported_steps (order : List Nat) (state : State) :
    NodesReported (order.filterMap fun i => nodes[i]?)
      (Call.results ((executed scope nodes order state).map Prod.snd) state.registers)
      state.output (steps scope nodes order state).output := by
  induction order generalizing state with
  | nil => exact .nil
  | cons i rest ih =>
    cases hi : nodes[i]? with
    | none =>
      rw [List.filterMap_cons_none hi, executed_cons_none hi, steps_cons_none hi]
      exact ih state
    | some node =>
      rw [List.filterMap_cons_some hi, executed_cons hi, steps_cons hi, List.map_cons,
        Call.results_cons]
      exact .cons (ih (step scope state node))

/-- The output of a batch records the results of its expressions. -/
theorem reported_evaluate {r : Registers} {o : BatchOutput}
    (ho : (evaluate scope nodes r).1 = .ok o) :
    Reported nodes (Call.results (texts scope nodes r) r) o := by
  obtain ⟨order, hwalk, rfl⟩ := evaluate_eq_ok ho
  rw [texts, hwalk]
  exact ⟨_, (ordered_of_walk hwalk).1, nodesReported_steps order ⟨r, .empty⟩⟩

end Batch

/-! ## Sessions -/

namespace Session

/-- An operation on a session. -/
inductive Operation where
  | evaluate (expression : String)
  | evaluateWith (expression : String) (source : ValueSource)
  | evaluateBatch (scope : Batch.Scope) (nodes : List Node)
  | calculate (options : CalculationOptions) (scope : Batch.Scope) (nodes : List Node)
  | recalculateLedger (options : CalculationOptions) (ledger : Ledger)
  | setRegister (name : String) (x : Float)
  | copyRegister (source destination : String)
  | reset

/-- The session after an operation. -/
def perform (s : Session) : Operation → Session
  | .evaluate expression => (s.evaluate expression).2
  | .evaluateWith expression source => (s.evaluateWith expression source).2
  | .evaluateBatch scope nodes => (s.evaluateBatch scope nodes).2
  | .calculate options scope nodes => (s.calculate options scope nodes).2
  | .recalculateLedger options ledger => (s.recalculateLedger options ledger).2
  | .setRegister name x => s.setRegister name x
  | .copyRegister source destination => ⟨s.registers.copy source destination⟩
  | .reset => s.reset

namespace Operation

/-- The expressions that an operation evaluates, one after another. -/
def texts (s : Session) : Operation → List String
  | .evaluate expression => [expression]
  | .evaluateWith expression source => [substitute expression source]
  | .evaluateBatch scope nodes => Batch.texts scope nodes s.registers
  | .calculate _ scope nodes => Batch.texts scope nodes s.registers
  | .recalculateLedger options ledger => ledger.texts options s.registers
  | _ => []

/-- What an operation does to the registers besides its evaluations. -/
def write (r : Registers) : Operation → Registers
  | .setRegister name x => r.set name x
  | .copyRegister source destination => r.copy source destination
  | .reset => Registers.new
  | _ => r

/-- The evaluations of an operation, as calls. -/
def calls (s : Session) (op : Operation) : List Call :=
  Call.inTurn (op.texts s) s.registers

/-- The numbers in the answer to an operation are these results. -/
def Answers (results : List Float) (s : Session) : Operation → Prop
  | .evaluate expression => results = [(s.evaluate expression).1]
  | .evaluateWith expression source => results = [(s.evaluateWith expression source).1]
  | .evaluateBatch scope nodes =>
    ∀ o, (s.evaluateBatch scope nodes).1 = .ok o → Batch.Reported nodes results o
  | .calculate options scope nodes =>
    ∀ report, (s.calculate options scope nodes).1 = .ok report →
      ∃ o, Batch.Reported nodes results o ∧ report = .ofOutput options o
  | .recalculateLedger options ledger =>
    Ledger.SectionsReported ledger.sections (s.recalculateLedger options ledger).1.sections results
  | _ => results = []

end Operation

/-- An operation evaluates its expressions, and writes to the registers. -/
theorem registers_perform (s : Session) (op : Operation) :
    (s.perform op).registers = op.write (evaluateAll (op.texts s) s.registers) := by
  cases op with
  | evaluate | evaluateWith | setRegister | copyRegister | reset => rfl
  | evaluateBatch scope nodes => exact Batch.registers_evaluate scope nodes s.registers
  | calculate options scope nodes => exact Batch.registers_evaluate scope nodes s.registers
  | recalculateLedger options ledger => exact ledger.registers_recalculate options s.registers

/-- The numbers in the answer to an operation are the results of its evaluations. -/
theorem answers_perform (s : Session) (op : Operation) :
    op.Answers ((op.calls s).map fun c => c.run.1) s := by
  cases op with
  | setRegister | copyRegister | reset => rfl
  | evaluate expression => exact Call.results_cons expression [] s.registers
  | evaluateWith expression source =>
    exact Call.results_cons (substitute expression source) [] s.registers
  | evaluateBatch scope nodes => exact fun o ho => Batch.reported_evaluate ho
  | calculate options scope nodes =>
    intro report hreport
    have hmap : (Batch.evaluate scope nodes s.registers).1.map
        (CalculationReport.ofOutput options) = .ok report := hreport
    cases ho : (Batch.evaluate scope nodes s.registers).1 with
    | error failure =>
      rw [ho] at hmap
      cases hmap
    | ok o =>
      rw [ho] at hmap
      exact ⟨o, Batch.reported_evaluate ho, (Except.ok.inj hmap).symm⟩
  | recalculateLedger options ledger => exact Ledger.reported_recalculate ledger s.registers

end Session

end Reckoner
