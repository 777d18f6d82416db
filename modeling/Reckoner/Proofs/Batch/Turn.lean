import Mathlib.Data.List.Nodup
import Reckoner.Proofs.Batch.Order

/-!
# The turn of a node

When it is the turn of a node, some nodes have been run before it (`Batch.earlier`), and
it finds a state that comes from these (`Batch.stateBefore`). In a batch that succeeds
they are at least those that it depends on (`Batch.mem_earlier_of_edge`), and the node is
run on the values that are there then, once (`Batch.mem_executed_iff`). What it comes to
is the value of its name from then on (`Batch.get?_value`).
-/

namespace Reckoner.Batch

variable {scope : Scope} {nodes : List Node} {r : Registers} {o : BatchOutput} {i : Nat}

/-- The nodes that are run before a node. -/
def earlier (nodes : List Node) (i : Nat) : List Nat :=
  (graph nodes).walk.1.takeWhile (· != i)

/-- The state that a node finds. -/
def stateBefore (scope : Scope) (nodes : List Node) (r : Registers) (i : Nat) : State :=
  steps scope nodes (earlier nodes i) ⟨r, .empty⟩

theorem earlier_eq {before rest : List Nat} (hwalk : (graph nodes).walk.1 = before ++ i :: rest)
    (h : i ∉ before) : earlier nodes i = before := by
  have hne : ∀ j ∈ before, (j != i) = true := fun j hj => bne_iff_ne.2 fun heq => h (heq ▸ hj)
  simp [earlier, hwalk, List.takeWhile_append_of_pos hne]

theorem nodup_walk (h : (evaluate scope nodes r).1 = .ok o) : (graph nodes).walk.1.Nodup := by
  obtain ⟨order, hwalk, -⟩ := evaluate_eq_ok h
  obtain ⟨hperm, -⟩ := Graph.walk_complete _ hwalk
  rw [hwalk]
  exact hperm.nodup_iff.2 List.nodup_range

/-- A batch that succeeds runs a node after the earlier ones, and once. -/
theorem exists_walk_eq (h : (evaluate scope nodes r).1 = .ok o) (hi : i < nodes.length) :
    ∃ later, (graph nodes).walk = (earlier nodes i ++ i :: later, none) ∧
      i ∉ earlier nodes i ∧ i ∉ later := by
  obtain ⟨order, hwalk, -⟩ := evaluate_eq_ok h
  obtain ⟨hperm, -⟩ := Graph.walk_complete _ hwalk
  have hmem : i ∈ order := by
    refine hperm.mem_iff.2 (List.mem_range.2 ?_)
    simpa [graph, Graph.size_ofDependencies] using hi
  obtain ⟨before, later, rfl⟩ := List.append_of_mem hmem
  have hnodup := nodup_walk h
  rw [hwalk] at hnodup
  have hnot := (List.nodup_cons.1 (List.nodup_middle.1 hnodup)).1
  rw [List.mem_append, not_or] at hnot
  rw [earlier_eq (congrArg Prod.fst hwalk) hnot.1]
  exact ⟨later, hwalk, hnot⟩

/-- In a batch that succeeds, nodes that a node depends on are run before it. -/
theorem mem_earlier_of_edge (h : (evaluate scope nodes r).1 = .ok o) {j : Nat}
    (hedge : (graph nodes).Edge i j) : j ∈ earlier nodes i := by
  obtain ⟨a, -, ha, -⟩ := edge_iff.1 hedge
  obtain ⟨hi, -⟩ := List.getElem?_eq_some_iff.1 ha
  obtain ⟨later, hwalk, -, -⟩ := exists_walk_eq h hi
  obtain ⟨-, hclosed⟩ := Graph.walk_complete _ hwalk
  rw [List.reverse_append, List.reverse_cons, List.append_assoc] at hclosed
  exact List.mem_reverse.1 (hclosed.mem_of_append hedge)

/-- In a batch that succeeds, a node executes its expression with the values that are
there at its turn. -/
theorem mem_executed_iff (h : (evaluate scope nodes r).1 = .ok o) {node : Node}
    (hi : nodes[i]? = some node) (t : String) :
    (i, t) ∈ executed scope nodes (graph nodes).walk.1 ⟨r, .empty⟩ ↔
      t = text scope (stateBefore scope nodes r i).output node := by
  obtain ⟨hlt, -⟩ := List.getElem?_eq_some_iff.1 hi
  obtain ⟨later, hwalk, hearlier, hlater⟩ := exists_walk_eq h hlt
  rw [hwalk, executed_append, executed_cons hi, List.mem_append, List.mem_cons, Prod.mk.injEq]
  constructor
  · rintro (hbefore | ⟨-, ht⟩ | hafter)
    · exact absurd (mem_of_mem_executed hbefore) hearlier
    · exact ht
    · exact absurd (mem_of_mem_executed hafter) hlater
  · exact fun ht => .inr (.inl ⟨rfl, ht⟩)

/-- The number that a node comes to at its turn. -/
def value (scope : Scope) (nodes : List Node) (r : Registers) (i : Nat) (node : Node) : Float :=
  let found := stateBefore scope nodes r i
  (Reckoner.evaluate (text scope found.output node) found.registers).1

/-- A node that is run after another one is run after its earlier ones, it, and further nodes. -/
theorem exists_earlier_eq (h : (evaluate scope nodes r).1 = .ok o) (hi : i < nodes.length) {j : Nat}
    (hj : j ∈ earlier nodes i) :
    ∃ between, earlier nodes i = earlier nodes j ++ j :: between ∧ j ∉ between := by
  obtain ⟨later, hwalk, -, -⟩ := exists_walk_eq h hi
  have hnodup := nodup_walk h
  obtain ⟨before, between, heq⟩ := List.append_of_mem hj
  have hsplit : (graph nodes).walk.1 = before ++ j :: (between ++ i :: later) := by
    rw [hwalk, heq, List.append_assoc, List.cons_append]
  rw [hsplit] at hnodup
  have hnot := (List.nodup_cons.1 (List.nodup_middle.1 hnodup)).1
  rw [List.mem_append, List.mem_append, not_or, not_or] at hnot
  exact ⟨between, by rw [earlier_eq hsplit hnot.1, heq], hnot.2.1⟩

/-- A name has the value of its node from then on, if no other node has the name. -/
theorem get?_value {node : Node} (hi : nodes[i]? = some node) {name : String}
    (hname : node.name = some name)
    (hunique : ∀ j other, nodes[j]? = some other → other.name = some name → j = i)
    {rest : List Nat} (hrest : i ∉ rest) :
    (steps scope nodes (earlier nodes i ++ i :: rest) ⟨r, .empty⟩).output.get? name =
      some (value scope nodes r i node) := by
  have hothers : ∀ j ∈ rest, ∀ other, nodes[j]? = some other → other.name ≠ some name := by
    intro j hj other hother hsame
    exact hrest (hunique j other hother hsame ▸ hj)
  rw [steps_append, steps_cons hi, get?_steps hothers]
  change ((stateBefore scope nodes r i).output.record node.name _).get? name = _
  rw [hname]
  exact BatchOutput.get?_insert_self _ _ _

end Reckoner.Batch
