import Reckoner.Graph.Basic

/-!
# The edges of a dependency graph

A graph is built from an index of the providers of each symbol, which is asked for what a node
requires. The precedents of a node come out as the other nodes that share a symbol with it
(`Graph.Shares`), in strictly ascending order, however often a node repeats a symbol and however
many nodes provide it (`Graph.precedents_iff_shares`).
-/

namespace Reckoner.Graph

variable {labels : List String} {dependencies : List Dependencies}

/-- A symbol that the first of two nodes requires and the second provides. Values and registers
of one name are different symbols. -/
def Shares (dependencies : List Dependencies) (i j : Nat) : Prop :=
  ∃ d e s, dependencies[i]? = some d ∧ dependencies[j]? = some e ∧ s ∈ d.requires ∧ s ∈ e.provides

theorem Shares.lt_length {i j : Nat} (h : Shares dependencies i j) :
    i < dependencies.length ∧ j < dependencies.length := by
  obtain ⟨d, e, s, hd, he, -⟩ := h
  exact ⟨(List.getElem?_eq_some_iff.1 hd).1, (List.getElem?_eq_some_iff.1 he).1⟩

theorem mem_precedents_iff {i j : Nat} :
    j ∈ (ofDependencies labels dependencies).precedents i ↔ j ≠ i ∧ Shares dependencies i j := by
  rw [mem_precedents_ofDependencies]
  simp only [dependsOn_iff]
  constructor
  · rintro ⟨d, e, hd, he, hne, s, hrequires, hprovides⟩
    exact ⟨hne, d, e, s, hd, he, hrequires, hprovides⟩
  · rintro ⟨hne, d, e, s, hd, he, hrequires, hprovides⟩
    exact ⟨d, e, hd, he, hne, s, hrequires, hprovides⟩

theorem pairwise_precedents (labels : List String) (dependencies : List Dependencies) (i : Nat) :
    ((ofDependencies labels dependencies).precedents i).Pairwise (· < ·) := by
  rw [precedents_ofDependencies]
  cases dependencies[i]? with
  | none => exact List.Pairwise.nil
  | some d => exact pairwise_providers dependencies d i

/-- The precedents of a node, in strictly ascending order, are the other nodes that provide a
symbol which it requires. A node past the end has none. -/
theorem precedents_iff_shares (labels : List String) (dependencies : List Dependencies) (i : Nat) :
    ((ofDependencies labels dependencies).precedents i).Pairwise (· < ·) ∧
      (∀ j, j ∈ (ofDependencies labels dependencies).precedents i ↔
        j ≠ i ∧ j < dependencies.length ∧ Shares dependencies i j) ∧
      ∀ n, (ofDependencies labels dependencies).precedents (dependencies.length + n) = [] := by
  refine ⟨pairwise_precedents labels dependencies i, fun j => ?_, fun n => ?_⟩
  · rw [mem_precedents_iff]
    exact and_congr_right fun _ => ⟨fun h => ⟨h.lt_length.2, h⟩, And.right⟩
  · refine List.eq_nil_iff_forall_not_mem.2 fun j hj => ?_
    have hlt := (mem_precedents_iff.1 hj).2.lt_length.1
    omega

/-- The first node repeats a symbol, provides it as well, and finds it twice in the second. The
third node provides another kind of symbol with this name. -/
example : (ofDependencies ["sum"]
    [⟨[.value "a", .register "b", .value "a"], [.value "a"]⟩,
      ⟨[], [.register "b", .value "a", .value "a"]⟩, ⟨[], [.register "a"]⟩,
      ⟨[], [.value "a"]⟩]).precedents 0 = [1, 3] := by
  rw [ofDependencies_eq_byAsking]
  decide

end Reckoner.Graph
