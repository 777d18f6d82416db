import Reckoner.Proofs.Batch.Run

/-!
# Orders of a batch

An order of nodes is a good one if no node comes before one that it depends on
(`Batch.Ordered`). A batch that succeeds runs its nodes in a good order
(`Batch.ordered_of_walk`), and one whose nodes have a good order succeeds if no
two of them provide the same (`Batch.exists_walk_of_ordered`). Good orders of the
same nodes come to the same if independent nodes can change places
(`foldl_perm_of_comm`).
-/

namespace Reckoner

/-! ## Changing places -/

section Comm

variable {α σ : Type} {step : σ → α → σ} {r : σ → σ → Prop}

theorem foldl_congr {l : List α} (hcongr : ∀ a ∈ l, ∀ s t, r s t → r (step s a) (step t a))
    {s t : σ} (h : r s t) : r (l.foldl step s) (l.foldl step t) := by
  induction l generalizing s t with
  | nil => exact h
  | cons a l ih =>
    obtain ⟨ha, hl⟩ := List.forall_mem_cons.1 hcongr
    exact ih hl (ha s t h)

/-- A step that can change places with all before it can be taken first. -/
theorem foldl_append_cons (hr : Equivalence r) {before after : List α} {a : α}
    (hcongr : ∀ b ∈ before ++ after, ∀ s t, r s t → r (step s b) (step t b))
    (hcomm : ∀ b ∈ before, ∀ s, r (step (step s b) a) (step (step s a) b)) (s : σ) :
    r ((before ++ a :: after).foldl step s) ((before ++ after).foldl step (step s a)) := by
  induction before generalizing s with
  | nil => exact hr.refl _
  | cons b before ih =>
    obtain ⟨-, hrest⟩ := List.forall_mem_cons.1 hcongr
    obtain ⟨hb, hbefore⟩ := List.forall_mem_cons.1 hcomm
    exact hr.trans (ih hrest hbefore (step s b)) (foldl_congr hrest (hb s))

/-- Two orders of the same steps come to the same if any two steps that stand in both
orders can change places. -/
theorem foldl_perm_of_comm (hr : Equivalence r) {R : α → α → Prop} {l l' : List α}
    (hperm : l.Perm l') (hl : l.Pairwise R) (hl' : l'.Pairwise R)
    (hcongr : ∀ a ∈ l, ∀ s t, r s t → r (step s a) (step t a))
    (hcomm : ∀ a ∈ l, ∀ b ∈ l, R a b → R b a → ∀ s, r (step (step s b) a) (step (step s a) b))
    (s : σ) : r (l.foldl step s) (l'.foldl step s) := by
  induction l generalizing l' s with
  | nil => rw [List.perm_nil.1 hperm.symm]; exact hr.refl _
  | cons a l ih =>
    obtain ⟨before, after, rfl⟩ := List.append_of_mem (hperm.subset List.mem_cons_self)
    have hrest : l.Perm (before ++ after) := (hperm.trans List.perm_middle).cons_inv
    obtain ⟨ha, hl⟩ := List.pairwise_cons.1 hl
    obtain ⟨hbefore, hafter, hbetween⟩ := List.pairwise_append.1 hl'
    obtain ⟨-, hafter⟩ := List.pairwise_cons.1 hafter
    have hrest' : (before ++ after).Pairwise R := List.pairwise_append.2
      ⟨hbefore, hafter, fun b hb c hc => hbetween b hb c (List.mem_cons_of_mem _ hc)⟩
    have hmem : ∀ b ∈ before, b ∈ l := fun b hb => hrest.symm.subset (List.mem_append_left _ hb)
    have htail := ih hrest hl hrest' (fun b hb => hcongr b (List.mem_cons_of_mem _ hb))
      (fun b hb c hc => hcomm b (List.mem_cons_of_mem _ hb) c (List.mem_cons_of_mem _ hc))
      (step s a)
    refine hr.trans htail (hr.symm (foldl_append_cons hr (fun b hb => ?_) (fun b hb => ?_) s))
    · exact hcongr b (List.mem_cons_of_mem _ (hrest.symm.subset hb))
    · exact hcomm a List.mem_cons_self b (List.mem_cons_of_mem _ (hmem b hb)) (ha b (hmem b hb))
        (hbetween b hb a List.mem_cons_self)

end Comm

/-! ## Good orders -/

namespace Graph

/-- In a closed list without repetition a node comes before those that depend on
it. -/
theorem Closed.pairwise {g : Graph} {l : List Nat} (h : g.Closed l) (hnodup : l.Nodup) :
    l.Pairwise fun i j => ¬g.Edge j i := by
  induction l with
  | nil => exact .nil
  | cons i l ih =>
    obtain ⟨hi, hnodup⟩ := List.nodup_cons.1 hnodup
    refine List.pairwise_cons.2 ⟨fun j hj hedge => ?_, ih h.2 hnodup⟩
    obtain ⟨after, before, rfl⟩ := List.append_of_mem hj
    exact hi (List.mem_append_right _ (List.mem_cons_of_mem _ (h.2.mem_of_append hedge)))

end Graph

namespace Batch

/-- No node comes before one that it depends on. -/
def Ordered (nodes : List Node) : Prop :=
  nodes.Pairwise fun a b => Graph.dependsOn a.dependencies b.dependencies = false

/-- No two nodes provide the same. -/
def SingleWriter (nodes : List Node) : Prop :=
  nodes.Pairwise fun a b => a.dependencies.provides.Disjoint b.dependencies.provides

variable {nodes : List Node}

theorem edge_iff {i j : Nat} : (graph nodes).Edge i j ↔
    ∃ a b, nodes[i]? = some a ∧ nodes[j]? = some b ∧ j ≠ i ∧
      Graph.dependsOn a.dependencies b.dependencies = true := by
  refine Graph.mem_precedents_ofDependencies.trans ?_
  simp only [List.getElem?_map, Option.map_eq_some_iff]
  constructor
  · rintro ⟨_, _, ⟨a, ha, rfl⟩, ⟨b, hb, rfl⟩, h⟩
    exact ⟨a, b, ha, hb, h⟩
  · rintro ⟨a, b, ha, hb, h⟩
    exact ⟨_, _, ⟨a, ha, rfl⟩, ⟨b, hb, rfl⟩, h⟩

theorem filterMap_range_length (nodes : List Node) :
    (List.range nodes.length).filterMap (fun i => nodes[i]?) = nodes := by
  have hmap : (List.range nodes.length).map (fun i => nodes[i]?) = nodes.map some :=
    List.ext_getElem (by simp) fun i hi hi' => by simp
  calc (List.range nodes.length).filterMap (fun i => nodes[i]?)
      = ((List.range nodes.length).map fun i => nodes[i]?).filterMap id := by
        rw [List.filterMap_map]
        rfl
    _ = (nodes.map some).filterMap id := by rw [hmap]
    _ = nodes := List.filterMap_map.trans List.filterMap_some

/-- A batch that succeeds runs all of its nodes in a good order. -/
theorem ordered_of_walk {order : List Nat} (h : (graph nodes).walk = (order, none)) :
    (order.filterMap fun i => nodes[i]?).Perm nodes ∧
      Ordered (order.filterMap fun i => nodes[i]?) := by
  obtain ⟨hperm, hclosed⟩ := Graph.walk_complete _ h
  have hsize : (graph nodes).size = nodes.length := by
    simp [graph, Graph.size_ofDependencies]
  rw [hsize] at hperm
  constructor
  · exact (hperm.filterMap _).trans (.of_eq (filterMap_range_length nodes))
  · have hnodup : order.Nodup := hperm.nodup_iff.2 List.nodup_range
    have hpairwise := List.pairwise_reverse.1
      (hclosed.pairwise ((List.reverse_perm order).nodup_iff.2 hnodup))
    refine List.pairwise_filterMap.2 ((hpairwise.and hnodup).imp ?_)
    rintro i j ⟨hedge, hne⟩ a ha b hb
    exact Bool.eq_false_iff.2 fun hdepends => hedge (edge_iff.2 ⟨a, b, ha, hb, hne.symm, hdepends⟩)

theorem SingleWriter.perm (h : SingleWriter nodes) {l : List Node} (hperm : nodes.Perm l) :
    SingleWriter l :=
  (hperm.pairwise_iff fun {_ _} (hab : List.Disjoint _ _) _ hs hs' => hab hs' hs).1 h

theorem SingleWriter.disjoint (h : SingleWriter nodes) {i j : Nat} {a b : Node}
    (ha : nodes[i]? = some a) (hb : nodes[j]? = some b) (hne : j ≠ i) :
    a.dependencies.provides.Disjoint b.dependencies.provides := by
  obtain ⟨hi, rfl⟩ := List.getElem?_eq_some_iff.1 ha
  obtain ⟨hj, rfl⟩ := List.getElem?_eq_some_iff.1 hb
  rcases Nat.lt_or_gt_of_ne hne with hlt | hlt
  · exact fun s hs hs' => List.pairwise_iff_getElem.1 h j i hj hi hlt hs' hs
  · exact List.pairwise_iff_getElem.1 h i j hi hj hlt

/-- A batch whose nodes have a good order succeeds if no two of them provide the
same. -/
theorem exists_walk_of_ordered {l : List Node} (hperm : l.Perm nodes) (hl : Ordered l)
    (hsingle : SingleWriter nodes) : ∃ order, (graph nodes).walk = (order, none) := by
  let rank (i : Nat) : Nat := (nodes[i]?.map l.idxOf).getD 0
  have hrank : ∀ i j, (graph nodes).Edge i j → rank j < rank i := by
    intro i j hedge
    obtain ⟨a, b, ha, hb, hne, hdepends⟩ := edge_iff.1 hedge
    obtain ⟨s, -, hs⟩ := List.any_eq_true.1 hdepends
    have hab : a ≠ b := by
      rintro rfl
      exact hsingle.disjoint ha hb hne (List.contains_iff_mem.1 hs) (List.contains_iff_mem.1 hs)
    have hmem := fun {k c} (hk : nodes[k]? = some c) => hperm.symm.subset (List.mem_of_getElem? hk)
    have hlt := fun {k c} (hk : nodes[k]? = some c) => List.idxOf_lt_length_iff.2 (hmem hk)
    simp only [rank, ha, hb, Option.map_some, Option.getD_some]
    by_contra hle
    have hidx : l.idxOf a ≠ l.idxOf b := fun heq => hab ((List.idxOf_inj (hmem ha)).1 heq)
    have hbefore := List.pairwise_iff_getElem.1 hl _ _ (hlt ha) (hlt hb) (by omega)
    rw [List.getElem_idxOf, List.getElem_idxOf, hdepends] at hbefore
    cases hbefore
  exact Graph.exists_walk_of_acyclic (Graph.acyclic_of_rank hrank)

end Batch

end Reckoner
