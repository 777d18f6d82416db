import Reckoner.Dependency

/-!
# Who provides a symbol

A provider index has the nodes that provide each symbol. It is made in one pass over the
dependencies of all nodes, so that the providers of what a node requires are looked up.

* `ProviderIndex.mem_get_ofDependencies`: the nodes under a symbol are those that provide it;
* `Graph.ascending_spec`: numbers in order, each once.
-/

namespace Reckoner

/-- The nodes that provide each symbol. -/
structure ProviderIndex where
  entries : List (Symbol × List Nat)

namespace ProviderIndex

/-- The index of no node. -/
def empty : ProviderIndex := ⟨[]⟩

/-- The nodes under a symbol. -/
def get (index : ProviderIndex) (s : Symbol) : List Nat :=
  (index.entries.lookup s).getD []

/-- The entries with a further node under a symbol, which gets an entry of its own if it has
none. -/
def addTo (s : Symbol) (i : Nat) : List (Symbol × List Nat) → List (Symbol × List Nat)
  | [] => [(s, [i])]
  | (t, nodes) :: rest => if s = t then (t, nodes ++ [i]) :: rest else (t, nodes) :: addTo s i rest

/-- The index with a node that provides a symbol. -/
def add (index : ProviderIndex) (i : Nat) (s : Symbol) : ProviderIndex :=
  ⟨addTo s i index.entries⟩

/-- The index with a node that provides what its dependencies say. -/
def addNode (index : ProviderIndex) (d : Dependencies) (i : Nat) : ProviderIndex :=
  d.provides.foldl (fun index s => index.add i s) index

/-- The index of all nodes, in their order. -/
def ofDependencies (dependencies : List Dependencies) : ProviderIndex :=
  dependencies.zipIdx.foldl (fun index (d, i) => index.addNode d i) empty

theorem lookup_addTo (s t : Symbol) (i : Nat) (entries : List (Symbol × List Nat)) :
    (addTo s i entries).lookup t =
      if t = s then some ((entries.lookup s).getD [] ++ [i]) else entries.lookup t := by
  induction entries with
  | nil =>
    rw [addTo, List.lookup_cons]
    split <;> simp_all
  | cons e rest ih =>
    obtain ⟨u, nodes⟩ := e
    rw [addTo]
    by_cases hsu : s = u
    · subst hsu
      rw [if_pos rfl, List.lookup_cons, List.lookup_cons, List.lookup_cons]
      by_cases hts : t = s <;> simp [hts, beq_false_of_ne]
    · rw [if_neg hsu, List.lookup_cons, ih, List.lookup_cons, List.lookup_cons,
        beq_false_of_ne hsu]
      by_cases htu : t = u
      · subst htu
        simp [Ne.symm hsu]
      · simp [beq_false_of_ne htu]

theorem get_add (index : ProviderIndex) (i : Nat) (s t : Symbol) :
    (index.add i s).get t = if t = s then index.get s ++ [i] else index.get t := by
  rw [get, add, lookup_addTo]
  split <;> rfl

/-- A node comes under the symbols that it provides. -/
theorem mem_get_addNode {index : ProviderIndex} {d : Dependencies} {i j : Nat} {t : Symbol} :
    j ∈ (index.addNode d i).get t ↔ j ∈ index.get t ∨ j = i ∧ t ∈ d.provides := by
  unfold addNode
  induction d.provides generalizing index with
  | nil => simp
  | cons s rest ih =>
    rw [List.foldl_cons, ih, get_add]
    by_cases hts : t = s
    · subst hts
      rw [if_pos rfl, List.mem_append, List.mem_singleton]
      constructor
      · rintro ((hold | hnew) | ⟨hnew, -⟩)
        · exact .inl hold
        · exact .inr ⟨hnew, List.mem_cons_self⟩
        · exact .inr ⟨hnew, List.mem_cons_self⟩
      · rintro (hold | ⟨hnew, -⟩)
        · exact .inl (.inl hold)
        · exact .inl (.inr hnew)
    · simp [hts]

/-- Nodes come under the symbols that they provide, one after another. -/
theorem mem_get_foldl {l : List (Dependencies × Nat)} {index : ProviderIndex} {j : Nat}
    {s : Symbol} :
    j ∈ (l.foldl (fun index (d, i) => index.addNode d i) index).get s ↔
      j ∈ index.get s ∨ ∃ e, (e, j) ∈ l ∧ s ∈ e.provides := by
  induction l generalizing index with
  | nil => simp
  | cons p l ih =>
    obtain ⟨d, i⟩ := p
    rw [List.foldl_cons, ih, mem_get_addNode]
    constructor
    · rintro ((hold | ⟨rfl, hs⟩) | ⟨e, he, hs⟩)
      · exact .inl hold
      · exact .inr ⟨d, List.mem_cons_self, hs⟩
      · exact .inr ⟨e, List.mem_cons_of_mem _ he, hs⟩
    · rintro (hold | ⟨e, he, hs⟩)
      · exact .inl (.inl hold)
      · rcases List.mem_cons.1 he with heq | he
        · obtain ⟨rfl, rfl⟩ := Prod.mk.inj heq
          exact .inl (.inr ⟨rfl, hs⟩)
        · exact .inr ⟨e, he, hs⟩

/-- The nodes under a symbol are those that provide it. -/
theorem mem_get_ofDependencies {dependencies : List Dependencies} {j : Nat} {s : Symbol} :
    j ∈ (ofDependencies dependencies).get s ↔
      ∃ e, dependencies[j]? = some e ∧ s ∈ e.provides := by
  rw [ofDependencies, mem_get_foldl]
  simp [List.mem_zipIdx_iff_getElem?, get, empty]

end ProviderIndex

/-! ## Numbers in order -/

namespace Graph

/-- Numbers in order, each once. -/
def ascending (l : List Nat) : List Nat :=
  l.mergeSort.eraseReps

theorem pairwise_mergeSort (l : List Nat) : l.mergeSort.Pairwise (· ≤ ·) := by
  have htrans (a b c : Nat) (hab : decide (a ≤ b) = true) (hbc : decide (b ≤ c) = true) :
      decide (a ≤ c) = true :=
    decide_eq_true (Nat.le_trans (of_decide_eq_true hab) (of_decide_eq_true hbc))
  have htotal (a b : Nat) : (decide (a ≤ b) || decide (b ≤ a)) = true := by
    simpa using Nat.le_total a b
  exact (List.pairwise_mergeSort htrans htotal l).imp of_decide_eq_true

/-- What is kept of numbers in order from `i` on, if those before are `done`, the last one
first. -/
theorem eraseReps_loop {i : Nat} {l done : List Nat} (hl : (i :: l).Pairwise (· ≤ ·))
    (hdone : (i :: done).Pairwise (· > ·)) :
    (List.eraseRepsBy.loop (· == ·) i l done).Pairwise (· < ·) ∧
      ∀ j, j ∈ List.eraseRepsBy.loop (· == ·) i l done ↔ j ∈ i :: l ∨ j ∈ done := by
  induction l generalizing i done with
  | nil =>
    refine ⟨List.pairwise_reverse.2 hdone, fun j => ?_⟩
    rw [List.eraseRepsBy.loop, List.mem_reverse, List.mem_cons, List.mem_singleton]
  | cons k l ih =>
    obtain ⟨hi, hl⟩ := List.pairwise_cons.1 hl
    have hik := hi k List.mem_cons_self
    rw [List.eraseRepsBy.loop]
    by_cases heq : i = k
    · subst heq
      rw [beq_self_eq_true]
      obtain ⟨hpairwise, hmem⟩ := ih hl hdone
      refine ⟨hpairwise, fun j => ?_⟩
      rw [hmem]
      simp only [List.mem_cons, or_self_left]
    · rw [beq_false_of_ne heq]
      have hlast : ∀ j ∈ i :: done, k > j := by
        intro j hj
        rcases List.mem_cons.1 hj with rfl | hj
        · omega
        · have hj := (List.pairwise_cons.1 hdone).1 j hj
          omega
      obtain ⟨hpairwise, hmem⟩ := ih hl (List.pairwise_cons.2 ⟨hlast, hdone⟩)
      refine ⟨hpairwise, fun j => ?_⟩
      rw [hmem]
      simp only [List.mem_cons, or_assoc, or_left_comm]

/-- Numbers in order, each once, are strictly ascending, and none is lost or new. -/
theorem ascending_spec (l : List Nat) :
    (ascending l).Pairwise (· < ·) ∧ ∀ j, j ∈ ascending l ↔ j ∈ l := by
  have hsorted := pairwise_mergeSort l
  have hmem (j : Nat) : j ∈ l.mergeSort ↔ j ∈ l := List.mem_mergeSort
  unfold ascending
  cases hcases : l.mergeSort with
  | nil =>
    rw [hcases] at hmem
    exact ⟨List.Pairwise.nil, hmem⟩
  | cons i rest =>
    rw [hcases] at hsorted hmem
    obtain ⟨hstrict, hkept⟩ := eraseReps_loop hsorted (List.pairwise_singleton _ i)
    refine ⟨hstrict, fun j => ?_⟩
    rw [← hmem]
    exact (hkept j).trans (or_iff_left List.not_mem_nil)

end Graph

end Reckoner
