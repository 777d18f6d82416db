import Reckoner.Proofs.Batch.Run
import Reckoner.Proofs.Graph.Failure

/-!
# Batches that fail

A batch that fails on a cycle has run some of its nodes by then, one after another as
in any other batch (`Batch.Runs`), and nothing of it is taken back. Which nodes these
are is told in `Batch.evaluateInto_failure`: none of them leads to a cycle, each of
them comes after all that it depends on, and whatever the nodes before the first one
that leads to a cycle depend on is among them.
-/

namespace Reckoner

open Relation (ReflTransGen)

namespace Batch

/-- Nodes are run one after another: each one's references are replaced by the values
committed before it, it is executed on the registers that were left before it, and its
value is recorded. -/
inductive Runs (scope : Scope) (nodes : List Node) : List Nat → State → State → Prop
  | nil (s : State) : Runs scope nodes [] s s
  | cons {i : Nat} {node : Node} {rest : List Nat} {s t : State} {x : Float} {r : Registers}
      (hi : nodes[i]? = some node)
      (hx : Reckoner.evaluate (text scope s.output node) s.registers = (x, r))
      (hrest : Runs scope nodes rest ⟨r, s.output.record node.name x⟩ t) :
      Runs scope nodes (i :: rest) s t

variable {scope : Scope} {nodes : List Node}

theorem runs_steps {order : List Nat} (h : ∀ i ∈ order, i < nodes.length) (s : State) :
    Runs scope nodes order s (steps scope nodes order s) := by
  induction order generalizing s with
  | nil => exact .nil s
  | cons i rest ih =>
    obtain ⟨hlt, hrest⟩ := List.forall_mem_cons.1 h
    have hi : nodes[i]? = some nodes[i] := List.getElem?_eq_getElem hlt
    rw [steps_cons hi]
    exact .cons hi rfl (ih hrest _)

theorem evaluated_record (o : BatchOutput) (name : Option String) (x : Float) :
    (o.record name x).evaluated = o.evaluated + 1 := by
  cases name with
  | none => rfl
  | some name => rfl

theorem Runs.evaluated {order : List Nat} {s t : State} (h : Runs scope nodes order s t) :
    t.output.evaluated = s.output.evaluated + order.length := by
  induction h with
  | nil s => rfl
  | cons hi hx hrest ih =>
    rw [ih, evaluated_record, List.length_cons]
    omega

theorem size_graph (nodes : List Node) : (graph nodes).size = nodes.length := by
  simp [graph, Graph.size_ofDependencies]

theorem lt_length_of_mem_walk {i : Nat} (h : i ∈ (graph nodes).walk.1) : i < nodes.length := by
  rw [← size_graph]
  rw [Graph.walk_eq] at h
  exact (graph nodes).traversal_sound.lt_size i (List.mem_append_right _ (List.mem_reverse.1 h))

/-- What a batch does, whether it fails or not. -/
theorem runs_evaluateInto (scope : Scope) (nodes : List Node) (state : State) :
    Runs scope nodes (graph nodes).walk.1 state (evaluateInto scope nodes state).1 :=
  runs_steps (fun _ => lt_length_of_mem_walk) state

/-- A batch that fails has a first node that leads to a cycle. What it has run before
it fails has no node twice and each one after its precedents, none of them leads to a
cycle, and all that the nodes before the first one that does depend on is among them.
They are run one after another from the state on in which the batch is begun, and this is
what is left. -/
theorem evaluateInto_failure (scope : Scope) (nodes : List Node) (state : State)
    {failure : Failure} (h : (evaluateInto scope nodes state).2 = some failure) :
    ((graph nodes).walk.1.Nodup ∧
      ∀ before i after, (graph nodes).walk.1 = before ++ i :: after →
        ∀ j ∈ (graph nodes).precedents i, j ∈ before) ∧
    (∀ i ∈ (graph nodes).walk.1, ¬(graph nodes).LeadsToCycle i) ∧
    (∃ first < nodes.length, (graph nodes).LeadsToCycle first ∧
      (∀ i < first, ¬(graph nodes).LeadsToCycle i) ∧
      ∀ i < first, ∀ j, ReflTransGen (graph nodes).Edge i j → j ∈ (graph nodes).walk.1) ∧
    Runs scope nodes (graph nodes).walk.1 state (evaluateInto scope nodes state).1 ∧
    (evaluateInto scope nodes state).1.output.evaluated =
      state.output.evaluated + (graph nodes).walk.1.length := by
  have hruns := runs_evaluateInto scope nodes state
  obtain ⟨first, hfirst, hleads, hbefore⟩ := (graph nodes).exists_first_leadsToCycle h
  refine ⟨⟨(graph nodes).walk_nodup, ?_⟩, fun i => Graph.not_leadsToCycle_of_mem_walk,
    ⟨first, size_graph nodes ▸ hfirst, hleads, hbefore, ?_⟩, hruns, hruns.evaluated⟩
  · intro before i after heq j hj
    have hclosed := (graph nodes).walk_closed
    rw [heq] at hclosed
    exact hclosed.mem_before hj
  · intro i hi j hj
    exact Graph.mem_walk_of_reachable (Nat.lt_trans hi hfirst)
      (fun k hk => hbefore k (Nat.lt_of_le_of_lt hk hi)) hj

/-- A loop of two nodes between others, one of which has to be run before the first. -/
def tangle : List Node :=
  [⟨some "cost", "$pieces 3 *"⟩, ⟨some "a", "$b 1 +"⟩, ⟨some "b", "$a 1 +"⟩,
    ⟨some "pieces", "4 ~count str"⟩, ⟨some "late", "1"⟩]

/-- The nodes before the loop have been run, and what they need after it. -/
theorem evaluateInto_tangle :
    (evaluateInto ⟨.empty, none⟩ tangle ⟨Registers.new, ⟨[("cost", Number.ofNat 5)], 1⟩⟩).2 =
        some (.cycle "a" ["a", "b", "a"]) ∧
      (evaluateInto ⟨.empty, none⟩ tangle
        ⟨Registers.new, ⟨[("cost", Number.ofNat 5)], 1⟩⟩).1.output.evaluated = 3 ∧
      3 ∈ (graph tangle).walk.1 ∧ ¬(graph tangle).LeadsToCycle 3 := by
  have h : (evaluateInto ⟨.empty, none⟩ tangle
      ⟨Registers.new, ⟨[("cost", Number.ofNat 5)], 1⟩⟩).2 =
        some (.cycle "a" ["a", "b", "a"]) := by decide +kernel
  have horder : (graph tangle).walk.1 = [3, 0] := by decide +kernel
  obtain ⟨-, hclear, -, -, hevaluated⟩ := evaluateInto_failure _ _ _ h
  rw [horder] at hclear hevaluated ⊢
  exact ⟨h, hevaluated, List.mem_cons_self, hclear 3 List.mem_cons_self⟩

end Batch

end Reckoner
