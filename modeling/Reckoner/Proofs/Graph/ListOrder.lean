import Mathlib.Data.Set.Card
import Mathlib.Order.Interval.Finset.Nat
import Reckoner.Proofs.Graph.Embedding

/-!
# List order

A walk over some roots visits what can be reached from them and nothing else
(`Walk.mem_order_visit_iff`), and a walk over further roots goes on from there. So the
nodes up to one of them, with all that they depend on, come first in a topological order
(`topologicalOrder_prefix`): a node is run before an earlier one of the list only if this
one or one before it depends on it. A list in which every node comes after its precedents
keeps its order (`walk_eq_range`).
-/

namespace Reckoner

open Relation (TransGen ReflTransGen)

namespace Walk

variable {g : Graph}

/-! ## What a walk over roots knows -/

/-- What holds of all nodes that a walk knows, and passes on to precedents, holds of those
that it knows after a move. -/
theorem forall_known_of_advance {P : Nat → Prop} (hP : ∀ i j, P i → g.Edge i j → P j)
    {w w' : Walk g} (h : w.advance = .next w') (hw : ∀ i ∈ w.known, P i) : ∀ i ∈ w'.known, P i := by
  intro n hn
  cases advance_step h with
  | pass hpath hj hv => exact hw n (by simpa [known, hpath] using hn)
  | @enter i k j path hpath hj hv ha =>
    rcases List.mem_cons.1 hn with rfl | hn
    · exact hP i n (hw i (by simp [known, hpath])) (List.mem_of_getElem? hj)
    · exact hw n (by simpa [known, hpath, Walk.enter] using hn)
  | leave hpath hk =>
    refine hw n ?_
    simp only [known, Walk.leave, List.mem_append, List.mem_cons] at hn
    simp only [known, hpath, List.map_cons, List.cons_append, List.mem_cons, List.mem_append]
    exact or_left_comm.1 hn
  | root hpath hi hv => rw [advance_nil hpath] at h; cases h

theorem forall_known_follow {P : Nat → Prop} (hP : ∀ i j, P i → g.Edge i j → P j) {w : Walk g}
    (hw : ∀ i ∈ w.known, P i) : ∀ i ∈ w.follow.1.known, P i := by
  fun_induction follow w with
  | case1 w w' h _ ih => exact ih (forall_known_of_advance hP h hw)
  | case2 w h => exact hw
  | case3 w nodes h => exact hw

theorem forall_known_visit {P : Nat → Prop} (hP : ∀ i j, P i → g.Edge i j → P j) {w : Walk g}
    (hw : ∀ i ∈ w.known, P i) {roots : List Nat} (hroots : ∀ i ∈ roots, P i) :
    ∀ i ∈ (w.visit roots).1.known, P i := by
  induction roots generalizing w with
  | nil => exact hw
  | cons i rest ih =>
    obtain ⟨hi, hrest⟩ := List.forall_mem_cons.1 hroots
    rw [visit]
    split
    · exact ih hw hrest
    · have hfollow : ∀ n ∈ (w.enter i).follow.1.known, P n :=
        forall_known_follow hP (List.forall_mem_cons.2 ⟨hi, hw⟩)
      generalize (w.enter i).follow = result at hfollow
      obtain ⟨w', cycle⟩ := result
      cases cycle with
      | none => exact ih hfollow hrest
      | some nodes => exact hfollow

/-- A walk over roots that meets no cycle visits what can be reached from them. -/
theorem mem_order_visit_iff {roots : List Nat} (hroots : ∀ i ∈ roots, i < g.size)
    (h : ((start g).visit roots).2 = none) {j : Nat} :
    j ∈ ((start g).visit roots).1.order ↔ ∃ i ∈ roots, ReflTransGen g.Edge i j := by
  obtain ⟨hrun, hall, -⟩ := visit_run sound_start rfl hroots
  obtain ⟨hpath, hvisited⟩ := hall h
  constructor
  · intro hj
    rw [← known_eq_order hpath] at hj
    refine forall_known_visit (P := fun j => ∃ i ∈ roots, ReflTransGen g.Edge i j) ?_ ?_ ?_ j hj
    · rintro j k ⟨i, hi, hij⟩ hjk
      exact ⟨i, hi, hij.tail hjk⟩
    · simp [known, start]
    · exact fun i hi => ⟨i, hi, .refl⟩
  · rintro ⟨i, hi, hij⟩
    exact (sound_start.run hrun).closed.mem_of_reachable (hvisited i hi) hij

/-! ## Going on with further roots -/

theorem Step.order_suffix {w w' : Walk g} (h : Step w w') : w.order <:+ w'.order := by
  cases h with
  | leave hpath hk => exact List.suffix_cons _ _
  | _ => exact List.suffix_refl _

theorem order_suffix_of_run {w w' : Walk g} (h : ReflTransGen Step w w') :
    w.order <:+ w'.order := by
  induction h with
  | refl => exact List.suffix_refl _
  | tail _ hstep ih => exact ih.trans hstep.order_suffix

end Walk

namespace Graph

variable {g : Graph}

/-- The nodes up to `i`, and all that they depend on, directly or through others. -/
def reachedUpTo (g : Graph) (i : Nat) : Set Nat := {j | ∃ k ≤ i, ReflTransGen g.Edge k j}

/-- A walk without a failure visits the nodes up to one of them, and all that they depend
on, before the others. -/
theorem exists_prefix_reachedUpTo {order : List Nat} (h : g.walk = (order, none)) {i : Nat}
    (hi : i < g.size) : ∃ first, first <+: order ∧ ∀ j, j ∈ first ↔ j ∈ g.reachedUpTo i := by
  have hrange : List.range g.size =
      List.range (i + 1) ++ (List.range (g.size - (i + 1))).map (i + 1 + ·) := by
    rw [← List.range_add, Nat.add_sub_cancel' hi]
  have hroots : ∀ k ∈ List.range (i + 1), k < g.size := fun k hk => by
    rw [List.mem_range] at hk
    omega
  have hrest : ∀ k ∈ (List.range (g.size - (i + 1))).map (i + 1 + ·), k < g.size := fun k hk => by
    rw [← List.mem_range, hrange]
    exact List.mem_append_right _ hk
  rw [walk_eq, traversal, hrange, Walk.visit_append, Prod.mk.injEq, Option.map_eq_none_iff] at h
  obtain ⟨rfl, hnone⟩ := h
  split at hnone
  · next hfirst =>
    rw [if_pos hfirst]
    obtain ⟨hrun, hall, -⟩ := Walk.visit_run Walk.sound_start rfl hroots
    obtain ⟨hfurther, -, -⟩ :=
      Walk.visit_run (Walk.sound_start.run hrun) (hall hfirst).1 hrest
    refine ⟨((Walk.start g).visit (List.range (i + 1))).1.order.reverse,
      List.reverse_prefix.2 (Walk.order_suffix_of_run hfurther), fun j => ?_⟩
    rw [List.mem_reverse, Walk.mem_order_visit_iff hroots hfirst]
    simp only [List.mem_range, Nat.lt_succ_iff]
    rfl
  · next hfirst => exact absurd hnone hfirst

/-- The first nodes of a topological order, as many as the nodes up to `i` and all that
they depend on are, are these. -/
theorem mem_take_iff {order : List Nat} (h : g.walk = (order, none)) {i : Nat} (hi : i < g.size)
    {j : Nat} : j ∈ order.take (g.reachedUpTo i).ncard ↔ j ∈ g.reachedUpTo i := by
  obtain ⟨first, hprefix, hfirst⟩ := exists_prefix_reachedUpTo h hi
  have hnodup : first.Nodup := by
    obtain ⟨hperm, -⟩ := walk_complete g h
    exact (hperm.nodup_iff.2 List.nodup_range).sublist hprefix.sublist
  have hset : g.reachedUpTo i = first.toFinset := by
    ext k
    rw [List.coe_toFinset]
    exact (hfirst k).symm
  have hcard : (g.reachedUpTo i).ncard = first.length := by
    rw [hset, Set.ncard_coe_finset, List.toFinset_card_of_nodup hnodup]
  rw [hcard, ← List.prefix_iff_eq_take.1 hprefix, hfirst]

/-- If every node comes after its precedents, those up to one of them are all that they
depend on. -/
theorem reachedUpTo_eq (hsorted : ∀ i, ∀ j ∈ g.precedents i, j < i) (i : Nat) :
    g.reachedUpTo i = Set.Iic i := by
  have hle : ∀ {k j}, ReflTransGen g.Edge k j → j ≤ k := by
    intro k j hkj
    induction hkj with
    | refl => exact Nat.le_refl _
    | tail _ hedge ih => exact (hsorted _ _ hedge).le.trans ih
  ext j
  constructor
  · rintro ⟨k, hki, hkj⟩
    exact (hle hkj).trans hki
  · exact fun hj => ⟨j, hj, .refl⟩

theorem eq_range_of_take {order : List Nat} {n : Nat} (hperm : order.Perm (List.range n))
    (h : ∀ i < n, ∀ j, j ∈ order.take (i + 1) ↔ j ≤ i) : order = List.range n := by
  have hlength : order.length = n := by rw [hperm.length_eq, List.length_range]
  have hnodup : order.Nodup := hperm.nodup_iff.2 List.nodup_range
  refine List.ext_getElem (by rw [hlength, List.length_range]) fun i hi hi' => ?_
  rw [List.getElem_range]
  have hle : order[i] ≤ i := by
    refine (h i (hlength ▸ hi) _).1 ?_
    exact List.mem_take_iff_getElem.2 ⟨i, by omega, rfl⟩
  refine hle.antisymm (Nat.le_of_not_lt fun hlt => ?_)
  have hmem : order[i] ∈ order.take (order[i] + 1) := (h _ (by omega) _).2 (Nat.le_refl _)
  obtain ⟨k, hk, heq⟩ := List.mem_take_iff_getElem.1 hmem
  have hki : k = i := (List.Nodup.getElem_inj_iff hnodup).1 heq
  omega

/-- A list in which every node comes after its precedents is in order. -/
theorem walk_eq_range (hsorted : ∀ i, ∀ j ∈ g.precedents i, j < i) :
    g.walk = (List.range g.size, none) := by
  obtain ⟨order, hwalk⟩ := exists_walk_of_acyclic (@acyclic_of_rank g id hsorted)
  obtain ⟨hperm, -⟩ := walk_complete g hwalk
  have hrange : order = List.range g.size := by
    refine eq_range_of_take hperm fun i hi j => ?_
    have hcard : (g.reachedUpTo i).ncard = i + 1 := by
      rw [reachedUpTo_eq hsorted, ← Finset.coe_Iic, Set.ncard_coe_finset, Nat.card_Iic]
    rw [← hcard, mem_take_iff hwalk hi, reachedUpTo_eq hsorted]
    exact Set.mem_Iic
  rw [hwalk, hrange]

/-- A node that comes before an earlier one of the list can be reached from this one or from
one before it. -/
theorem mem_reachedUpTo_of_before {before after : List Nat} {i j : Nat}
    (h : g.walk = (before ++ i :: after, none)) (hj : j ∈ before) : j ∈ g.reachedUpTo i := by
  obtain ⟨hperm, -⟩ := walk_complete g h
  have hi : i < g.size := List.mem_range.1 (hperm.mem_iff.1 (by simp))
  have hnodup : (before ++ i :: after).Nodup := hperm.nodup_iff.2 List.nodup_range
  have hnot : i ∉ before := fun hmem =>
    (List.nodup_append.1 hnodup).2.2 i hmem i List.mem_cons_self rfl
  have htake := (mem_take_iff h hi).2 ⟨i, Nat.le_refl i, .refl⟩
  rw [← mem_take_iff h hi]
  generalize (g.reachedUpTo i).ncard = m at htake
  rw [List.take_append, List.mem_append] at htake ⊢
  rcases htake with htake | htake
  · exact absurd (List.mem_of_mem_take htake) hnot
  · have hm : before.length < m := by
      refine Nat.lt_of_not_le fun hle => ?_
      rw [Nat.sub_eq_zero_of_le hle] at htake
      cases htake
    exact .inl (by rwa [List.take_of_length_le hm.le])

/-- In a topological order, the nodes up to one of them come first, with all that they
depend on. So a later node of the list comes before this one only if this one or one before
it depends on it, and a list in which every node comes after its precedents is in order. -/
theorem topologicalOrder_prefix {order : List Nat} (h : g.topologicalOrder = .ok order) :
    (∀ i < g.size, {j | j ∈ order.take (g.reachedUpTo i).ncard} = g.reachedUpTo i) ∧
      (∀ before i after, order = before ++ i :: after → ∀ j ∈ before, i < j →
        ∃ k ≤ i, TransGen g.Edge k j) ∧
      ((∀ i, ∀ j ∈ g.precedents i, j < i) → order = List.range g.size) := by
  have hwalk := topologicalOrder_eq_ok.1 h
  refine ⟨fun i hi => Set.ext fun j => mem_take_iff hwalk hi, ?_, fun hsorted => ?_⟩
  · rintro before i after rfl j hj hij
    obtain ⟨k, hki, hkj⟩ := mem_reachedUpTo_of_before hwalk hj
    refine ⟨k, hki, (Relation.reflTransGen_iff_eq_or_transGen.1 hkj).resolve_left ?_⟩
    omega
  · rw [walk_eq_range hsorted] at hwalk
    exact (Prod.mk.inj hwalk).1.symm

/-- Four nodes, the first of which depends on the third. -/
def errands : Graph :=
  ofDependencies ["trip", "call", "ticket", "note"]
    [⟨[.value "ticket"], [.value "trip"]⟩, ⟨[], [.value "call"]⟩, ⟨[], [.value "ticket"]⟩,
      ⟨[.value "trip"], [.value "note"]⟩]

/-- The third node comes first, since the first depends on it; the others keep their order. -/
theorem topologicalOrder_errands :
    errands.topologicalOrder = .ok [2, 0, 1, 3] ∧
      {j | j ∈ [2, 0, 1, 3].take (errands.reachedUpTo 1).ncard} = errands.reachedUpTo 1 ∧
      ∃ k ≤ 0, TransGen errands.Edge k 2 := by
  have h : errands.topologicalOrder = .ok [2, 0, 1, 3] :=
    topologicalOrder_eq_ok.2 (by decide +kernel)
  obtain ⟨hreached, hbefore, -⟩ := topologicalOrder_prefix h
  exact ⟨h, hreached 1 (by decide), hbefore [2] 0 [1, 3] rfl 2 (by decide) (by decide)⟩

end Graph

end Reckoner
