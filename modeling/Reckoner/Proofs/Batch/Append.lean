import Reckoner.Proofs.Batch.Failure
import Reckoner.Proofs.Graph.Embedding

/-!
# A batch after another

A batch can be cut in two where nothing before the cut depends on what is after it. It
is then the same to evaluate the two parts as batches of their own, the second one on
what the first one leaves (`Batch.evaluateInto_append`). This also holds of a batch
that fails: a cycle in the first part is met before anything of the second is run, and
one in the second part after all of the first is.
-/

namespace Reckoner

namespace Batch

variable {scope : Scope} {first second : List Node}

/-- A batch, and after it another one on what it leaves, unless it fails. -/
def evaluateInTurn (scope : Scope) (first second : List Node) (state : State) :
    State × Option Failure :=
  match evaluateInto scope first state with
  | (state, none) => evaluateInto scope second state
  | (state, some failure) => (state, some failure)

theorem evaluateInTurn_of_none {state : State}
    (h : (evaluateInto scope first state).2 = none) :
    evaluateInTurn scope first second state =
      evaluateInto scope second (evaluateInto scope first state).1 := by
  unfold evaluateInTurn
  generalize evaluateInto scope first state = result at h ⊢
  obtain ⟨s, failure⟩ := result
  cases h
  rfl

theorem evaluateInTurn_of_ne_none {state : State}
    (h : (evaluateInto scope first state).2 ≠ none) :
    evaluateInTurn scope first second state = evaluateInto scope first state := by
  unfold evaluateInTurn
  generalize evaluateInto scope first state = result at h ⊢
  obtain ⟨s, failure⟩ := result
  cases failure with
  | none => exact absurd rfl h
  | some failure => rfl

/-- Only the nodes at the positions of an order count for what is run. -/
theorem steps_congr {nodes nodes' : List Node} {order order' : List Nat}
    (h : order.map (fun i => nodes[i]?) = order'.map fun i => nodes'[i]?) (state : State) :
    steps scope nodes order state = steps scope nodes' order' state := by
  have hrun : ∀ {nodes : List Node} {order : List Nat},
      order.filterMap (fun i => nodes[i]?) = (order.map fun i => nodes[i]?).filterMap id := by
    intro nodes order
    rw [List.filterMap_map]
    rfl
  rw [steps, steps, hrun, hrun, h]

/-- Positions in the first part are positions in the whole. -/
theorem steps_append_left {order : List Nat} (h : ∀ i ∈ order, i < first.length) (state : State) :
    steps scope (first ++ second) order state = steps scope first order state := by
  refine steps_congr (List.map_congr_left fun i hi => ?_) state
  rw [List.getElem?_append_left (h i hi)]

/-- Positions in the second part are, after those in the first. -/
theorem steps_append_right (order : List Nat) (state : State) :
    steps scope (first ++ second) (order.map (first.length + ·)) state =
      steps scope second order state := by
  refine steps_congr ?_ state
  rw [List.map_map]
  refine List.map_congr_left fun i _ => ?_
  show (first ++ second)[first.length + i]? = _
  rw [List.getElem?_append_right (Nat.le_add_right _ _), Nat.add_sub_cancel_left]

theorem graph_append (first second : List Node) :
    graph (first ++ second) = Graph.ofDependencies
      ((first ++ second).zipIdx.map fun (node, index) => node.label index)
      (first.map Node.dependencies ++ second.map Node.dependencies) := by
  rw [graph, List.map_append]

theorem evaluateInto_eq (scope : Scope) (nodes : List Node) (state : State) :
    evaluateInto scope nodes state =
      (steps scope nodes (graph nodes).walk.1 state, (graph nodes).walk.2) := rfl

/-- If no node of the first list requires what one of the second provides, then the
batch of both does what the two batches do in turn: it fails if one of them fails, and
leaves the same in any case. -/
theorem evaluateInto_append (scope : Scope) {first second : List Node}
    (h : ∀ a ∈ first, ∀ b ∈ second, ∀ s ∈ a.dependencies.requires, s ∉ b.dependencies.provides)
    (state : State) :
    (evaluateInto scope (first ++ second) state).1 =
        (evaluateInTurn scope first second state).1 ∧
      ((evaluateInto scope (first ++ second) state).2 = none ↔
        (evaluateInTurn scope first second state).2 = none) := by
  have hapart : ∀ d ∈ first.map Node.dependencies, ∀ e ∈ second.map Node.dependencies,
      Graph.dependsOn d e = false := by
    intro d hd e he
    obtain ⟨a, ha, rfl⟩ := List.mem_map.1 hd
    obtain ⟨b, hb, rfl⟩ := List.mem_map.1 he
    refine Bool.eq_false_iff.2 fun hdepends => ?_
    obtain ⟨s, hs, hprovides⟩ := List.any_eq_true.1 hdepends
    exact h a ha b hb s hs (List.contains_iff_mem.1 hprovides)
  obtain ⟨hsucceeds, hfails⟩ := Graph.walk_append
    ((first ++ second).zipIdx.map fun (node, index) => node.label index)
    (first.zipIdx.map fun (node, index) => node.label index)
    (second.zipIdx.map fun (node, index) => node.label index) hapart
  rw [← graph_append, ← graph, List.length_map, ← graph] at hsucceeds
  rw [← graph_append, ← graph] at hfails
  by_cases hfirst : (graph first).walk.2 = none
  · obtain ⟨horder, hcycle⟩ := hsucceeds hfirst
    rw [evaluateInTurn_of_none hfirst]
    simp only [evaluateInto_eq]
    refine ⟨?_, hcycle⟩
    rw [horder, steps_append, steps_append_left fun _ => lt_length_of_mem_walk, steps_append_right]
  · obtain ⟨horder, hcycle⟩ := hfails hfirst
    rw [evaluateInTurn_of_ne_none hfirst]
    simp only [evaluateInto_eq]
    refine ⟨?_, fun hnone => absurd hnone hcycle, fun hnone => absurd hnone hfirst⟩
    rw [horder, steps_append_left fun _ => lt_length_of_mem_walk]

/-- Two values. -/
def prices : List Node := [⟨some "net", "2 ~base str"⟩, ⟨none, "$net 1 + ~fee str"⟩]

/-- What is made of them, and a loop. -/
def invoice : List Node :=
  [⟨some "total", "$net base ldr +"⟩, ⟨some "a", "$b 1 +"⟩, ⟨some "b", "$a 1 +"⟩]

/-- The loop ends the batch of both as it ends the second. -/
theorem evaluateInto_prices_invoice :
    (∀ a ∈ prices, ∀ b ∈ invoice, ∀ s ∈ a.dependencies.requires,
        s ∉ b.dependencies.provides) ∧
      (evaluateInto ⟨.empty, none⟩ (prices ++ invoice) ⟨Registers.new, .empty⟩).2 ≠ none ∧
      (evaluateInto ⟨.empty, none⟩ (prices ++ invoice) ⟨Registers.new, .empty⟩).1 =
        (evaluateInto ⟨.empty, none⟩ invoice
          (evaluateInto ⟨.empty, none⟩ prices ⟨Registers.new, .empty⟩).1).1 := by
  have h : ∀ a ∈ prices, ∀ b ∈ invoice, ∀ s ∈ a.dependencies.requires,
      s ∉ b.dependencies.provides := by decide +kernel
  have hfirst : (evaluateInto ⟨.empty, none⟩ prices ⟨Registers.new, .empty⟩).2 = none := by
    decide +kernel
  obtain ⟨hstate, -⟩ := evaluateInto_append ⟨.empty, none⟩ h ⟨Registers.new, .empty⟩
  rw [evaluateInTurn_of_none hfirst] at hstate
  exact ⟨h, by decide +kernel, hstate⟩

end Batch

end Reckoner
