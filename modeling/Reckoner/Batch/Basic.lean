import Reckoner.Batch.Output
import Reckoner.Graph.Walk
import Reckoner.Machine.Basic
import Reckoner.Reference.Substitution

/-!
# Batches

A batch is a list of expressions, most of them with a name. Its nodes are run
in dependency order against common registers, and each committed value is what
its name refers to from then on. An outer source has the values that are
neither committed nor local.

A cycle ends the evaluation; what has been run before it stays.

* `Batch.text`: the expression that a node runs;
* `Batch.evaluateInto`: a batch from given registers and a given output on.
-/

namespace Reckoner

/-- An expression of a batch, and the name of its value if it has one. -/
structure Node where
  name : Option String
  expression : String
  deriving DecidableEq

namespace Node

/-- What a node is called in the report of a cycle. -/
def label (node : Node) (index : Nat) : String :=
  node.name.getD ("#" ++ index.repr)

/-- What a node reads and writes. -/
def dependencies (node : Node) : Dependencies :=
  Dependencies.analyze node.name node.expression

end Node

namespace Batch

/-- The dependency graph of a list of nodes. -/
def graph (nodes : List Node) : Graph :=
  Graph.ofDependencies (nodes.zipIdx.map fun (node, index) => node.label index)
    (nodes.map Node.dependencies)

/-- Where values come from while a batch runs. -/
structure Scope where
  inner : ValueSource
  outer : Option ValueSource

/-- What a batch has done so far. -/
structure State where
  registers : Registers
  output : BatchOutput

/-- The expression that a node runs: its own with committed and local values in
place of its references, and then outer ones. -/
def text (scope : Scope) (output : BatchOutput) (node : Node) : String :=
  let inner := substitute node.expression (scope.inner.overlay output.get?)
  match scope.outer with
  | some source => substitute inner source
  | none => inner

/-- One node. -/
def step (scope : Scope) (state : State) (node : Node) : State :=
  let (x, registers) := evaluate (text scope state.output node) state.registers
  ⟨registers, state.output.record node.name x⟩

/-- The nodes with these positions, one after another. -/
def steps (scope : Scope) (nodes : List Node) (order : List Nat) (state : State) : State :=
  (order.filterMap fun i => nodes[i]?).foldl (step scope) state

/-- A batch from a state on: the state in the end, and the failure that ended it. -/
def evaluateInto (scope : Scope) (nodes : List Node) (state : State) : State × Option Failure :=
  let (order, failure) := (graph nodes).walk
  (steps scope nodes order state, failure)

/-- A batch of its own: its output or the failure that ended it, and the
registers in the end. -/
def evaluate (scope : Scope) (nodes : List Node) (r : Registers) :
    Except Failure BatchOutput × Registers :=
  match evaluateInto scope nodes ⟨r, BatchOutput.empty⟩ with
  | (state, none) => (.ok state.output, state.registers)
  | (state, some failure) => (.error failure, state.registers)

end Batch

end Reckoner
