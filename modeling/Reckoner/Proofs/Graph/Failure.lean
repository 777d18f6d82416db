import Mathlib.Data.Nat.Find
import Reckoner.Proofs.Graph.Walk

/-!
# Walks that fail

A walk that fails has met a node of its own path. What it reports is the path from
that node on: a cycle of the graph, with more than one node since no node depends
on itself (`walk_reports_cycle`).

The root of the path leads to the cycle, and all roots before it are done
(`Walk.visit_failure`). So the walk has visited all that can be reached from the
nodes before the first one that leads to a cycle (`mem_walk_of_reachable`), and none
that leads to one (`not_leadsToCycle_of_mem_walk`).
-/

namespace Reckoner

open Relation (TransGen ReflTransGen)

/-! ## Paths -/

/-- What is on a path can be reached from its beginning. -/
theorem reflTransGen_of_mem_chain {R : Nat → Nat → Prop} {l : List Nat} {i j : Nat}
    (h : l.IsChain fun a b => R b a) (hlast : l.getLast? = some i) (hj : j ∈ l) :
    ReflTransGen R i j := by
  refine h.backwards_induction (ReflTransGen R i) l (fun a b hba hb => hb.tail hba) ?_ j hj
  intro hne
  rw [List.getLast?_eq_some_getLast hne] at hlast
  rw [Option.some.inj hlast]

/-- The elements from the first occurrence of a member on. -/
theorem exists_idxOf?_dropWhile {l : List Nat} {j : Nat} (h : j ∈ l) :
    ∃ p, l.idxOf? j = some p ∧ l.dropWhile (· != j) = l.drop p := by
  induction l with
  | nil => cases h
  | cons i l ih =>
    by_cases hij : i = j
    · refine ⟨0, ?_, ?_⟩
      · simp [List.idxOf?_cons, hij]
      · simp [hij]
    · have hmem : j ∈ l := List.mem_of_ne_of_mem (Ne.symm hij) h
      obtain ⟨p, hp, hdrop⟩ := ih hmem
      refine ⟨p + 1, ?_, ?_⟩
      · simp [List.idxOf?_cons, hij, hp]
      · simp [hij, hdrop]

namespace Walk

variable {g : Graph}

/-- A walk goes on from the root of its path until it has left it. -/
theorem Step.getLast?_path {w w' : Walk g} (h : Step w w') (hpath : w.path ≠ [])
    (hpath' : w'.path ≠ []) :
    (w'.path.map Prod.fst).getLast? = (w.path.map Prod.fst).getLast? := by
  cases h with
  | pass heq hj hv => simp [heq]
  | enter heq hj hv ha => simp [heq, Walk.enter, List.getLast?_cons_cons]
  | @leave i k path heq hk =>
    have hne : path ≠ [] := hpath'
    obtain ⟨e, path, rfl⟩ := List.exists_cons_of_ne_nil hne
    simp [heq, Walk.leave, List.getLast?_cons_cons]
  | root heq hi hv => exact absurd heq hpath

theorem Step.order_subset {w w' : Walk g} (h : Step w w') : ∀ i ∈ w.order, i ∈ w'.order := by
  intro n hn
  cases h with
  | pass hpath hj hv => exact hn
  | enter hpath hj hv ha => exact hn
  | leave hpath hk => exact List.mem_cons_of_mem _ hn
  | root hpath hi hv => exact hn

theorem order_subset_of_run {w w' : Walk g} (h : ReflTransGen Step w w') :
    ∀ i ∈ w.order, i ∈ w'.order := by
  induction h with
  | refl => exact fun _ hi => hi
  | tail _ hstep ih => exact fun i hi => hstep.order_subset i (ih i hi)

/-- A path that comes to a cycle is still on its root. -/
theorem getLast?_follow (w : Walk g) (h : w.follow.2 ≠ none) :
    (w.follow.1.path.map Prod.fst).getLast? = (w.path.map Prod.fst).getLast? := by
  fun_induction follow w with
  | case1 w w' hnext _ ih =>
    have hpath' : w'.path ≠ [] := by
      intro hnil
      exact h (by rw [follow_finished (advance_nil hnil)])
    have hpath : w.path ≠ [] := by
      intro hnil
      rw [advance_nil hnil] at hnext
      cases hnext
    rw [ih h, (advance_step hnext).getLast?_path hpath hpath']
  | case2 w hfinished => rfl
  | case3 w nodes hcycle => rfl

/-- A walk over roots that comes to a cycle has left all roots before the one that it
is on. -/
theorem visit_failure {w : Walk g} (hw : w.Sound) (hpath : w.path = []) {roots : List Nat}
    (hroots : ∀ i ∈ roots, i < g.size) {nodes : List Nat} (h : (w.visit roots).2 = some nodes) :
    ∃ before root after, roots = before ++ root :: after ∧
      (∀ i ∈ before, i ∈ (w.visit roots).1.order) ∧
      ((w.visit roots).1.path.map Prod.fst).getLast? = some root := by
  induction roots generalizing w with
  | nil => cases h
  | cons i rest ih =>
    have hrest : ∀ j ∈ rest, j < g.size := fun j hj => hroots j (List.mem_cons_of_mem _ hj)
    rw [visit] at h ⊢
    split at h
    · next hv =>
      rw [if_pos hv]
      obtain ⟨before, root, after, rfl, hbefore, hlast⟩ := ih hw hpath hrest h
      have hi := order_subset_of_run (visit_run hw hpath hrest).1 i ((hw.visited_iff i).1 hv)
      exact ⟨i :: before, root, after, rfl, List.forall_mem_cons.2 ⟨hi, hbefore⟩, hlast⟩
    · next hv =>
      rw [if_neg hv]
      have hroot : Step w (w.enter i) :=
        .root hpath (hroots i List.mem_cons_self) (Bool.eq_false_iff.2 hv)
      have hlast := getLast?_follow (w.enter i)
      obtain ⟨hfollow, hend, -⟩ := follow_run (w.enter i)
      generalize (w.enter i).follow = result at h hfollow hend hlast ⊢
      obtain ⟨w', cycle⟩ := result
      cases cycle with
      | some cycle =>
        refine ⟨[], i, rest, rfl, fun _ hj => absurd hj List.not_mem_nil, ?_⟩
        rw [hlast (Option.some_ne_none cycle)]
        simp [enter, hpath]
      | none =>
        have hpath' : w'.path = [] := hend rfl
        have hw' : w'.Sound := hw.run (.head hroot hfollow)
        obtain ⟨before, root, after, rfl, hbefore, hlast⟩ := ih hw' hpath' hrest h
        have hi : i ∈ w'.known := known_subset_of_run hfollow i List.mem_cons_self
        rw [known_eq_order hpath'] at hi
        have hi' := order_subset_of_run (visit_run hw' hpath' hrest).1 i hi
        exact ⟨i :: before, root, after, rfl, List.forall_mem_cons.2 ⟨hi', hbefore⟩, hlast⟩

end Walk

namespace Graph

variable {g : Graph}

/-! ## Where a walk ends -/

/-- The walk over all nodes where it ends, and the cycle that it has met. -/
def traversal (g : Graph) : Walk g × Option (List Nat) :=
  (Walk.start g).visit (List.range g.size)

theorem walk_eq (g : Graph) :
    g.walk = (g.traversal.1.order.reverse, g.traversal.2.map g.cycleFailure) := rfl

/-- The nodes of the path at the end of a walk, from its root on. -/
def finalPath (g : Graph) : List Nat := g.traversal.1.path.reverse.map Prod.fst

theorem traversal_run (g : Graph) : ReflTransGen Walk.Step (Walk.start g) g.traversal.1 :=
  (Walk.visit_run Walk.sound_start rfl fun _ hi => List.mem_range.1 hi).1

theorem traversal_sound (g : Graph) : g.traversal.1.Sound := Walk.sound_start.run g.traversal_run

theorem advance_traversal {nodes : List Nat} (h : g.traversal.2 = some nodes) :
    g.traversal.1.advance = .cycle nodes :=
  (Walk.visit_run Walk.sound_start rfl fun _ hi => List.mem_range.1 hi).2.2 nodes h

/-! ## Reports -/

/-- A node that the walk meets on its path has a place there, and the path from it on
is what is reported. -/
theorem exists_finalPath_drop {nodes : List Nat} (h : g.traversal.2 = some nodes) :
    ∃ j p, g.finalPath.idxOf? j = some p ∧ nodes = g.finalPath.drop p ++ [j] := by
  obtain ⟨i, k, j, path, hpath, hj, ha, rfl⟩ := Walk.advance_cycle (advance_traversal h)
  have hmem : j ∈ g.finalPath := by
    rw [finalPath, List.map_reverse, List.mem_reverse]
    exact (g.traversal_sound.active_iff j).1 ha
  obtain ⟨p, hp, hdrop⟩ := exists_idxOf?_dropWhile hmem
  refine ⟨j, p, hp, ?_⟩
  rw [← hdrop]
  rfl

theorem not_edge_self (labels : List String) (dependencies : List Dependencies) (i : Nat) :
    ¬(ofDependencies labels dependencies).Edge i i := by
  intro h
  obtain ⟨_, _, _, _, hne, _⟩ := mem_precedents_ofDependencies.1 h
  exact hne rfl

/-- A walk over a graph of dependencies that fails reports a cycle: two nodes or more,
each with the next one among its precedents and all of them different until the first
one comes again. They are the path at the end of the walk from the place on that this
node has there. -/
theorem walk_reports_cycle (labels : List String) (dependencies : List Dependencies)
    {order : List Nat} {failure : Failure}
    (h : (ofDependencies labels dependencies).walk = (order, some failure)) :
    ∃ i l p, l ≠ [] ∧ (i :: l).Nodup ∧
      (i :: (l ++ [i])).IsChain (ofDependencies labels dependencies).Edge ∧
      failure = .cycle ((ofDependencies labels dependencies).label i)
        ((i :: (l ++ [i])).map (ofDependencies labels dependencies).label) ∧
      (ofDependencies labels dependencies).finalPath.idxOf? i = some p ∧
      (ofDependencies labels dependencies).finalPath.drop p = i :: l := by
  have hself := not_edge_self labels dependencies
  generalize ofDependencies labels dependencies = g at h hself ⊢
  rw [walk_eq, Prod.mk.injEq, Option.map_eq_some_iff] at h
  obtain ⟨-, nodes, hnodes, rfl⟩ := h
  have hcycle := Walk.isCycle_of_advance g.traversal_sound (advance_traversal hnodes)
  obtain ⟨j, p, hp, rfl⟩ := exists_finalPath_drop hnodes
  obtain ⟨i, l, heq, hnodup⟩ := hcycle.returns
  have hchain := hcycle.chain
  obtain ⟨hdrop, hj⟩ : g.finalPath.drop p = i :: l ∧ [j] = [i] := by
    rw [← List.cons_append] at heq
    exact List.append_inj' heq rfl
  obtain rfl := (List.cons.inj hj).1
  rw [hdrop, List.cons_append] at hchain ⊢
  refine ⟨j, l, p, ?_, hnodup, hchain, rfl, hp, hdrop⟩
  rintro rfl
  exact hself j (List.isChain_cons_cons.1 hchain).1

/-- A node without precedents, and one that leads to a loop of two others. -/
def loopWithTail : List Dependencies :=
  [⟨[], [.value "ok"]⟩, ⟨[.value "a"], [.value "top"]⟩, ⟨[.value "b"], [.value "a"]⟩,
    ⟨[.value "a"], [.value "b"]⟩]

/-- The graph of these nodes. -/
def loopGraph : Graph := ofDependencies ["ok", "top", "a", "b"] loopWithTail

/-- The way to the loop is not reported. -/
theorem walk_loopGraph : loopGraph.walk = ([0], some (.cycle "a" ["a", "b", "a"])) ∧
    ∃ i l p, l ≠ [] ∧ (i :: l).Nodup ∧ (i :: (l ++ [i])).IsChain loopGraph.Edge ∧
      Failure.cycle "a" ["a", "b", "a"] =
        .cycle (loopGraph.label i) ((i :: (l ++ [i])).map loopGraph.label) ∧
      loopGraph.finalPath.idxOf? i = some p ∧ loopGraph.finalPath.drop p = i :: l := by
  have h : loopGraph.walk = ([0], some (.cycle "a" ["a", "b", "a"])) := by decide +kernel
  exact ⟨h, walk_reports_cycle _ _ h⟩

/-! ## What a walk has visited -/

/-- Whether a node depends on itself or, directly or through others, on a node that
does. -/
def LeadsToCycle (g : Graph) (i : Nat) : Prop :=
  ∃ j, ReflTransGen g.Edge i j ∧ TransGen g.Edge j j

theorem not_leadsToCycle_of_acc {i : Nat} (h : Acc (fun j i => g.Edge i j) i) :
    ¬g.LeadsToCycle i := by
  rintro ⟨j, hij, hcycle⟩
  have hacc : Acc (fun j i => g.Edge i j) j := by
    clear hcycle
    induction hij with
    | refl => exact h
    | tail _ hedge ih => exact ih.inv hedge
  exact not_transGen_self_of_acc hacc hcycle

theorem Closed.mem_before {before after : List Nat} {i j : Nat}
    (h : g.Closed (before ++ i :: after).reverse) (hj : g.Edge i j) : j ∈ before := by
  rw [List.reverse_append, List.reverse_cons, List.append_assoc] at h
  exact List.mem_reverse.1 (h.mem_of_append hj)

theorem Closed.mem_of_reachable {l : List Nat} {i j : Nat} (h : g.Closed l) (hi : i ∈ l)
    (hj : ReflTransGen g.Edge i j) : j ∈ l := by
  induction hj with
  | refl => exact hi
  | tail _ hedge ih =>
    obtain ⟨after, before, rfl⟩ := List.append_of_mem ih
    exact List.mem_append_right _ (List.mem_cons_of_mem _ (h.mem_of_append hedge))

theorem walk_closed (g : Graph) : g.Closed g.walk.1.reverse := by
  rw [walk_eq, List.reverse_reverse]
  exact g.traversal_sound.closed

/-- No node is visited twice. -/
theorem walk_nodup (g : Graph) : g.walk.1.Nodup := by
  rw [walk_eq]
  exact (List.reverse_perm _).nodup_iff.2 (List.nodup_append.1 g.traversal_sound.nodup).2.1

theorem not_leadsToCycle_of_mem_walk {i : Nat} (h : i ∈ g.walk.1) : ¬g.LeadsToCycle i :=
  not_leadsToCycle_of_acc (g.walk_closed.acc i (List.mem_reverse.2 h))

/-- The root at which a walk fails leads to the cycle. -/
theorem leadsToCycle_of_traversal {nodes : List Nat} (h : g.traversal.2 = some nodes) {root : Nat}
    (hroot : (g.traversal.1.path.map Prod.fst).getLast? = some root) : g.LeadsToCycle root := by
  have hadvance := advance_traversal h
  have hcycle := Walk.isCycle_of_advance g.traversal_sound hadvance
  obtain ⟨i, k, j, path, hpath, hj, ha, rfl⟩ := Walk.advance_cycle hadvance
  have hmem := (g.traversal_sound.active_iff j).1 ha
  refine ⟨j, reflTransGen_of_mem_chain g.traversal_sound.chain hroot hmem, hcycle.transGen ?_⟩
  rw [Walk.cycleFrom, List.getLast?_concat]

/-- All nodes before that root are visited. -/
theorem exists_root_of_traversal {nodes : List Nat} (h : g.traversal.2 = some nodes) :
    ∃ root < g.size, g.LeadsToCycle root ∧ ∀ i < root, i ∈ g.traversal.1.order := by
  obtain ⟨before, root, after, hrange, hbefore, hroot⟩ :=
    Walk.visit_failure Walk.sound_start rfl (fun _ hi => List.mem_range.1 hi) h
  have hlt : root < g.size := by
    rw [← List.mem_range, hrange]
    exact List.mem_append_right _ List.mem_cons_self
  refine ⟨root, hlt, leadsToCycle_of_traversal h hroot, fun i hi => hbefore i ?_⟩
  rw [List.range_eq_range', List.range'_eq_append_iff] at hrange
  obtain ⟨k, -, rfl, hrest⟩ := hrange
  obtain ⟨hk, -⟩ := List.range'_eq_cons_iff.1 hrest.symm
  rw [List.mem_range'_1]
  omega

/-- A walk that fails goes over a graph with a first node that leads to a cycle. -/
theorem exists_first_leadsToCycle (g : Graph) {failure : Failure} (h : g.walk.2 = some failure) :
    ∃ first < g.size, g.LeadsToCycle first ∧ ∀ i < first, ¬g.LeadsToCycle i := by
  classical
  rw [walk_eq, Option.map_eq_some_iff] at h
  obtain ⟨nodes, hcycle, -⟩ := h
  obtain ⟨root, hlt, hroot, -⟩ := exists_root_of_traversal hcycle
  have hleads : ∃ i, g.LeadsToCycle i := ⟨root, hroot⟩
  refine ⟨Nat.find hleads, ?_, Nat.find_spec hleads, fun i hi => Nat.find_min hleads hi⟩
  exact Nat.lt_of_le_of_lt (Nat.find_min' hleads hroot) hlt

/-- A walk visits all that can be reached from the nodes before the first one that leads
to a cycle. -/
theorem mem_walk_of_reachable {i j : Nat} (hi : i < g.size)
    (hclear : ∀ k ≤ i, ¬g.LeadsToCycle k) (hj : ReflTransGen g.Edge i j) : j ∈ g.walk.1 := by
  have hmem : i ∈ g.traversal.1.order := by
    cases hcycle : g.traversal.2 with
    | none =>
      obtain ⟨hperm, -⟩ := walk_complete g (by rw [walk_eq, hcycle]; rfl)
      exact List.mem_reverse.1 (hperm.mem_iff.2 (List.mem_range.2 hi))
    | some nodes =>
      obtain ⟨root, -, hroot, hvisited⟩ := exists_root_of_traversal hcycle
      exact hvisited i (Nat.lt_of_not_le fun hle => hclear root hle hroot)
  rw [← List.mem_reverse]
  refine g.walk_closed.mem_of_reachable ?_ hj
  rwa [walk_eq, List.reverse_reverse]

end Graph

end Reckoner
