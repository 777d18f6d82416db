import Reckoner.Graph.Index

/-!
# Dependency graphs

The nodes of a batch are numbered in list order. A node depends on another one
that provides a symbol which it requires; the nodes that it depends on are its
precedents, in ascending order. They are looked up in an index of the providers
of each symbol.

* `Graph.ofDependencies`: the graph of a list of dependencies;
* `targets_eq_providers`: what is looked up for a node is what is found by asking
  every node whether it provides something;
* `ofDependencies_eq_byAsking`: so the graph is the one that is found in this way;
* `mem_precedents_ofDependencies`: the precedents of a node are the other nodes
  that provide what it requires.
-/

namespace Reckoner

/-- Nodes `0` to `size - 1` with labels and precedents. -/
structure Graph where
  labels : List String
  edges : Array (List Nat)
  lt_size_of_mem : ∀ l ∈ edges.toList, ∀ j ∈ l, j < edges.size

namespace Graph

/-- The number of nodes. -/
def size (g : Graph) : Nat :=
  g.edges.size

/-- The nodes that a node depends on. -/
def precedents (g : Graph) (i : Nat) : List Nat :=
  g.edges[i]?.getD []

/-- The label of a node; one past the end of the labels has none. -/
def label (g : Graph) (i : Nat) : String :=
  g.labels[i]?.getD ""

theorem lt_size_of_mem_precedents (g : Graph) {i j : Nat} (h : j ∈ g.precedents i) :
    j < g.size := by
  unfold precedents at h
  cases he : g.edges[i]? with
  | none => simp [he] at h
  | some l =>
    rw [he] at h
    exact g.lt_size_of_mem l (Array.mem_toList_iff.2 (Array.mem_of_getElem? he)) j h

/-- Whether the second provides something that the first requires. -/
def dependsOn (d e : Dependencies) : Bool :=
  d.requires.any fun s => e.provides.contains s

/-- The nodes other than `i` that provide something that `d` requires. -/
def providers (dependencies : List Dependencies) (d : Dependencies) (i : Nat) : List Nat :=
  (dependencies.zipIdx.filter fun (e, j) => j != i && dependsOn d e).map Prod.snd

theorem mem_providers {dependencies : List Dependencies} {d : Dependencies} {i j : Nat} :
    j ∈ providers dependencies d i ↔
      ∃ e, dependencies[j]? = some e ∧ j ≠ i ∧ dependsOn d e = true := by
  simp only [providers, List.mem_map, List.mem_filter, Prod.exists, List.mem_zipIdx_iff_getElem?,
    Bool.and_eq_true, bne_iff_ne]
  constructor
  · rintro ⟨e, k, ⟨he, hk, hd⟩, rfl⟩
    exact ⟨e, he, hk, hd⟩
  · rintro ⟨e, he, hj, hd⟩
    exact ⟨e, j, ⟨he, hj, hd⟩, rfl⟩

theorem pairwise_providers (dependencies : List Dependencies) (d : Dependencies) (i : Nat) :
    (providers dependencies d i).Pairwise (· < ·) := by
  have hall : (dependencies.zipIdx.map Prod.snd).Pairwise (· < ·) := by
    rw [List.zipIdx_map_snd]
    exact List.pairwise_lt_range' 1
  exact hall.sublist (List.filter_sublist.map Prod.snd)

theorem dependsOn_iff {d e : Dependencies} :
    dependsOn d e = true ↔ ∃ s, s ∈ d.requires ∧ s ∈ e.provides := by
  simp [dependsOn, List.any_eq_true]

/-- The nodes that an index has under the symbols that `d` requires, without `i`. -/
def targets (index : ProviderIndex) (d : Dependencies) (i : Nat) : List Nat :=
  ascending ((d.requires.flatMap index.get).filter (· != i))

theorem mem_targets {dependencies : List Dependencies} {d : Dependencies} {i j : Nat} :
    j ∈ targets (ProviderIndex.ofDependencies dependencies) d i ↔
      j ∈ providers dependencies d i := by
  rw [targets, (ascending_spec _).2, List.mem_filter, List.mem_flatMap, mem_providers]
  simp only [ProviderIndex.mem_get_ofDependencies, dependsOn_iff, bne_iff_ne]
  constructor
  · rintro ⟨⟨s, hs, e, he, hprovides⟩, hne⟩
    exact ⟨e, he, hne, s, hs, hprovides⟩
  · rintro ⟨e, he, hne, s, hs, hprovides⟩
    exact ⟨⟨s, hs, e, he, hprovides⟩, hne⟩

/-- What is looked up for a node is what is found by asking every node. -/
theorem targets_eq_providers (dependencies : List Dependencies) (d : Dependencies) (i : Nat) :
    targets (ProviderIndex.ofDependencies dependencies) d i = providers dependencies d i := by
  have htargets : (targets (ProviderIndex.ofDependencies dependencies) d i).Pairwise (· < ·) :=
    (ascending_spec _).1
  have hproviders := pairwise_providers dependencies d i
  have hperm := (List.perm_ext_iff_of_nodup (htargets.imp Nat.ne_of_lt)
    (hproviders.imp Nat.ne_of_lt)).2 fun _ => mem_targets
  exact hperm.eq_of_pairwise (fun a b _ _ hab hba => absurd hab (Nat.lt_asymm hba)) htargets
    hproviders

/-- The precedents of all nodes. -/
def edgeLists (dependencies : List Dependencies) : List (List Nat) :=
  let index := ProviderIndex.ofDependencies dependencies
  dependencies.zipIdx.map fun (d, i) => targets index d i

theorem edgeLists_eq (dependencies : List Dependencies) :
    edgeLists dependencies = dependencies.zipIdx.map fun (d, i) => providers dependencies d i :=
  List.map_congr_left fun _ _ => targets_eq_providers dependencies _ _

/-- The graph of a list of dependencies. -/
def ofDependencies (labels : List String) (dependencies : List Dependencies) : Graph where
  labels := labels
  edges := (edgeLists dependencies).toArray
  lt_size_of_mem := by
    intro l hl j hj
    rw [edgeLists_eq] at hl ⊢
    simp only [List.mem_map, Prod.exists] at hl
    obtain ⟨d, i, _, rfl⟩ := hl
    obtain ⟨e, he, _⟩ := mem_providers.1 hj
    obtain ⟨hlt, _⟩ := List.getElem?_eq_some_iff.1 he
    simpa using hlt

/-- The graph that is found by asking every node whether it provides something. Nothing is
looked up or sorted for it, so closed graphs are computed by it. -/
def byAsking (labels : List String) (dependencies : List Dependencies) : Graph where
  labels := labels
  edges := (dependencies.zipIdx.map fun (d, i) => providers dependencies d i).toArray
  lt_size_of_mem := by
    rw [← edgeLists_eq]
    exact (ofDependencies labels dependencies).lt_size_of_mem

theorem ofDependencies_eq_byAsking : ofDependencies = byAsking := by
  funext labels dependencies
  simp only [ofDependencies, byAsking, edgeLists_eq]

theorem size_ofDependencies (labels : List String) (dependencies : List Dependencies) :
    (ofDependencies labels dependencies).size = dependencies.length := by
  simp [ofDependencies, size, edgeLists_eq]

theorem precedents_ofDependencies (labels : List String) (dependencies : List Dependencies)
    (i : Nat) : (ofDependencies labels dependencies).precedents i =
      (dependencies[i]?.map fun d => providers dependencies d i).getD [] := by
  rw [precedents]
  simp only [ofDependencies, edgeLists_eq, List.getElem?_toArray, List.getElem?_map,
    List.getElem?_zipIdx, Option.map_map, Nat.zero_add]
  rfl

/-- The precedents of a node are the other nodes that provide what it requires. -/
theorem mem_precedents_ofDependencies {labels : List String} {dependencies : List Dependencies}
    {i j : Nat} :
    j ∈ (ofDependencies labels dependencies).precedents i ↔
      ∃ d e, dependencies[i]? = some d ∧ dependencies[j]? = some e ∧ j ≠ i ∧
        dependsOn d e = true := by
  rw [precedents_ofDependencies]
  cases hd : dependencies[i]? with
  | none => simp
  | some d => simp [mem_providers]

end Graph

end Reckoner
