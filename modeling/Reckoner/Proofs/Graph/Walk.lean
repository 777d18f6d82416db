import Mathlib.Data.List.Chain
import Mathlib.Data.List.Perm.Basic
import Mathlib.Logic.Relation
import Reckoner.Graph.Walk

/-!
# What a walk visits

A walk as a relation on its states (`Walk.Step`): passing over a precedent that
is visited, entering one that is not, leaving a node that is done, and entering
a root. What every state satisfies (`Walk.Sound`) is proved once for the start
and once for a step:

* `advance_step`, `advance_cycle`: what a move is;
* `visit_run`: a walk over roots takes steps, and ends with all of them visited
  or with a cycle (`isCycle_of_advance`);
* `topologicalOrder_iff_acyclic`: there is an order exactly if no node depends
  on itself, and then it has every node once, after all of its precedents.
-/

namespace Reckoner

open Relation (TransGen ReflTransGen)

namespace Graph

/-- The second node is a precedent of the first. -/
def Edge (g : Graph) (i j : Nat) : Prop := j ∈ g.precedents i

/-- No node depends on itself, directly or through others. -/
def Acyclic (g : Graph) : Prop := ∀ i, ¬TransGen g.Edge i i

/-- The nodes of a cycle, from one of them back to itself. -/
structure IsCycle (g : Graph) (nodes : List Nat) : Prop where
  chain : nodes.IsChain g.Edge
  returns : ∃ i l, nodes = i :: (l ++ [i]) ∧ (i :: l).Nodup

/-- Each node of a list has its precedents further back in it. -/
def Closed (g : Graph) : List Nat → Prop
  | [] => True
  | i :: rest => (∀ j ∈ g.precedents i, j ∈ rest) ∧ g.Closed rest

/-- The precedents of each node of a path that the walk has passed are `done` or
nearer to the end of the path. -/
def Passed (g : Graph) (done : List Nat) : List (Nat × Nat) → Prop
  | [] => True
  | (i, k) :: path => (∀ j ∈ (g.precedents i).take k, j ∈ done) ∧ g.Passed (i :: done) path

variable {g : Graph}

theorem lt_size_of_edge {i j : Nat} (h : g.Edge i j) : i < g.size := by
  refine Nat.lt_of_not_le fun hi => ?_
  have hnone : g.edges[i]? = none := Array.getElem?_eq_none hi
  simp [Edge, precedents, hnone] at h

theorem Passed.mono {done done' : List Nat} {path : List (Nat × Nat)} (h : g.Passed done path)
    (hsub : ∀ j ∈ done, j ∈ done') : g.Passed done' path := by
  induction path generalizing done done' with
  | nil => trivial
  | cons e path ih =>
    refine ⟨fun j hj => hsub j (h.1 j hj), ih h.2 fun j hj => ?_⟩
    rcases List.mem_cons.1 hj with rfl | hj
    · exact List.mem_cons_self
    · exact List.mem_cons_of_mem _ (hsub j hj)

/-- Nothing that a closed list holds goes round in a cycle, nor leads to one. -/
theorem Closed.acc {l : List Nat} (h : g.Closed l) : ∀ i ∈ l, Acc (fun j i => g.Edge i j) i := by
  induction l with
  | nil => intro i hi; cases hi
  | cons i rest ih =>
    have hrest := ih h.2
    intro j hj
    rcases List.mem_cons.1 hj with rfl | hj
    · exact ⟨_, fun k hk => hrest k (h.1 k hk)⟩
    · exact hrest j hj

theorem Closed.mem_of_append {before after : List Nat} {i j : Nat}
    (h : g.Closed (after ++ i :: before)) (hj : g.Edge i j) : j ∈ before := by
  induction after with
  | nil => exact h.1 j hj
  | cons k after ih => exact ih h.2

theorem not_transGen_self_of_acc {i : Nat} (h : Acc (fun j i => g.Edge i j) i) :
    ¬TransGen g.Edge i i := by
  induction h with
  | intro i _ ih =>
    intro hc
    obtain ⟨j, hj, hji⟩ := TransGen.head'_iff.1 hc
    exact ih j hj (TransGen.tail' hji hj)

/-- Nodes whose precedents rank lower have no cycle. -/
theorem acyclic_of_rank {rank : Nat → Nat} (h : ∀ i j, g.Edge i j → rank j < rank i) :
    g.Acyclic := fun i =>
  not_transGen_self_of_acc (Subrelation.accessible (h _ _) ((measure rank).wf.apply i))

/-- A cycle is a way from the node that it ends with to itself. -/
theorem IsCycle.transGen {nodes : List Nat} (h : g.IsCycle nodes) {i : Nat}
    (hi : nodes.getLast? = some i) : TransGen g.Edge i i := by
  obtain ⟨j, l, rfl, -⟩ := h.returns
  rw [← List.cons_append, List.getLast?_concat] at hi
  obtain rfl := Option.some.inj hi
  have hchain := h.chain
  cases l with
  | nil => exact .single (List.isChain_cons_cons.1 hchain).1
  | cons k l =>
    obtain ⟨hjk, hrest⟩ := List.isChain_cons_cons.1 hchain
    exact .head' hjk (List.relationReflTransGen_of_exists_isChain_cons (l ++ [j]) hrest (by simp))

theorem IsCycle.not_acyclic {nodes : List Nat} (h : g.IsCycle nodes) : ¬g.Acyclic := by
  obtain ⟨i, l, rfl, -⟩ := h.returns
  intro hacyclic
  exact hacyclic i (h.transGen (by rw [← List.cons_append, List.getLast?_concat]))

end Graph

namespace Walk

variable {g : Graph}

/-! ## Steps -/

/-- One step of a walk over roots. -/
inductive Step : Walk g → Walk g → Prop
  | pass {w : Walk g} {i k j : Nat} {path : List (Nat × Nat)} (hpath : w.path = (i, k) :: path)
      (hj : (g.precedents i)[k]? = some j) (hv : w.visited.contains j = true) :
      Step w { w with path := (i, k + 1) :: path }
  | enter {w : Walk g} {i k j : Nat} {path : List (Nat × Nat)} (hpath : w.path = (i, k) :: path)
      (hj : (g.precedents i)[k]? = some j) (hv : w.visited.contains j = false)
      (ha : w.active.contains j = false) :
      Step w ({ w with path := (i, k + 1) :: path }.enter j)
  | leave {w : Walk g} {i k : Nat} {path : List (Nat × Nat)} (hpath : w.path = (i, k) :: path)
      (hk : (g.precedents i)[k]? = none) : Step w (w.leave i path)
  | root {w : Walk g} {i : Nat} (hpath : w.path = []) (hi : i < g.size)
      (hv : w.visited.contains i = false) : Step w (w.enter i)

theorem advance_step {w w' : Walk g} (h : w.advance = .next w') : Step w w' := by
  unfold advance at h
  split at h
  · next i k path hpath =>
    split at h
    · next j hj =>
      simp only at h
      split at h
      · next hv =>
        cases h
        exact .pass hpath hj hv
      · next hv =>
        split at h
        · cases h
        · next ha =>
          cases h
          exact .enter hpath hj (Bool.eq_false_iff.2 hv) (Bool.eq_false_iff.2 ha)
    · next hk =>
      cases h
      exact .leave hpath hk
  · cases h

theorem advance_cycle {w : Walk g} {nodes : List Nat} (h : w.advance = .cycle nodes) :
    ∃ i k j path, w.path = (i, k) :: path ∧ (g.precedents i)[k]? = some j ∧
      w.active.contains j = true ∧ nodes = w.cycleFrom j := by
  unfold advance at h
  split at h
  · next i k path hpath =>
    split at h
    · next j hj =>
      simp only at h
      split at h
      · cases h
      · split at h
        · next ha =>
          cases h
          refine ⟨i, k, j, path, hpath, hj, ha, ?_⟩
          simp [cycleFrom, hpath]
        · cases h
    · cases h
  · cases h

theorem advance_finished {w : Walk g} (h : w.advance = .finished) : w.path = [] := by
  unfold advance at h
  split at h
  · split at h
    · simp only at h
      split at h
      · cases h
      · split at h <;> cases h
    · cases h
  · next hpath => exact hpath

section Moves

variable {w : Walk g} {i k j : Nat} {path : List (Nat × Nat)}

theorem advance_pass (hpath : w.path = (i, k) :: path) (hj : (g.precedents i)[k]? = some j)
    (hv : w.visited.contains j = true) :
    w.advance = .next { w with path := (i, k + 1) :: path } := by
  simp only [advance, hpath, hj, hv, if_true]

theorem advance_enter (hpath : w.path = (i, k) :: path) (hj : (g.precedents i)[k]? = some j)
    (hv : w.visited.contains j = false) (ha : w.active.contains j = false) :
    w.advance = .next ({ w with path := (i, k + 1) :: path }.enter j) := by
  simp only [advance, hpath, hj, hv, ha, Bool.false_eq_true, if_false]

theorem advance_meet (hpath : w.path = (i, k) :: path) (hj : (g.precedents i)[k]? = some j)
    (hv : w.visited.contains j = false) (ha : w.active.contains j = true) :
    w.advance = .cycle (w.cycleFrom j) := by
  simp [advance, hpath, hj, hv, ha, cycleFrom]

theorem advance_leave (hpath : w.path = (i, k) :: path) (hk : (g.precedents i)[k]? = none) :
    w.advance = .next (w.leave i path) := by
  simp only [advance, hpath, hk]

theorem advance_nil (hpath : w.path = []) : w.advance = .finished := by
  simp only [advance, hpath]

end Moves

theorem follow_next {w w' : Walk g} (h : w.advance = .next w') : w.follow = w'.follow := by
  rw [follow]
  split
  · next v hv =>
    rw [h] at hv
    cases hv
    rfl
  · next hv => rw [h] at hv; cases hv
  · next hv => rw [h] at hv; cases hv

theorem follow_finished {w : Walk g} (h : w.advance = .finished) : w.follow = (w, none) := by
  rw [follow]
  split
  · next hv => rw [h] at hv; cases hv
  · rfl
  · next hv => rw [h] at hv; cases hv

theorem follow_cycle {w : Walk g} {nodes : List Nat} (h : w.advance = .cycle nodes) :
    w.follow = (w, some nodes) := by
  rw [follow]
  split
  · next hv => rw [h] at hv; cases hv
  · next hv => rw [h] at hv; cases hv
  · next hv =>
    rw [h] at hv
    cases hv
    rfl

/-- Following a path takes steps, up to its end or to a cycle. -/
theorem follow_run (w : Walk g) :
    ReflTransGen Step w w.follow.1 ∧ (w.follow.2 = none → w.follow.1.path = []) ∧
      ∀ nodes, w.follow.2 = some nodes → w.follow.1.advance = .cycle nodes := by
  fun_induction follow w with
  | case1 w w' h _ ih => exact ⟨.head (advance_step h) ih.1, ih.2⟩
  | case2 w h => exact ⟨.refl, fun _ => advance_finished h, nofun⟩
  | case3 w nodes h => exact ⟨.refl, nofun, fun _ hn => Option.some.inj hn ▸ h⟩

/-! ## What every state satisfies -/

/-- The nodes that a walk has entered, visited or not. -/
def known (w : Walk g) : List Nat := w.path.map Prod.fst ++ w.order

/-- What holds of the nodes of a walk, whatever their places among the precedents
are. -/
structure Marked (w : Walk g) : Prop where
  active_iff : ∀ i, w.active.contains i = true ↔ i ∈ w.path.map Prod.fst
  visited_iff : ∀ i, w.visited.contains i = true ↔ i ∈ w.order
  nodup : w.known.Nodup
  lt_size : ∀ i ∈ w.known, i < g.size
  closed : g.Closed w.order
  chain : (w.path.map Prod.fst).IsChain fun i j => g.Edge j i

/-- What holds of a walk in every state. -/
structure Sound (w : Walk g) : Prop extends Marked w where
  passed : g.Passed w.order w.path

theorem sound_start : Sound (start g) where
  active_iff i := by simp [start, NodeSet.contains_empty]
  visited_iff i := by simp [start, NodeSet.contains_empty]
  nodup := by simp [start, known]
  lt_size i hi := by simp [start, known] at hi
  closed := trivial
  chain := .nil
  passed := trivial

/-- Only the nodes of the path count. -/
theorem Marked.congr {w : Walk g} (hw : w.Marked) {path : List (Nat × Nat)}
    (hnodes : path.map Prod.fst = w.path.map Prod.fst) : Marked { w with path := path } where
  active_iff j := by rw [hnodes]; exact hw.active_iff j
  visited_iff := hw.visited_iff
  nodup := by simpa only [known, hnodes] using hw.nodup
  lt_size := by simpa only [known, hnodes] using hw.lt_size
  closed := hw.closed
  chain := by simpa only [hnodes] using hw.chain

/-- A node that is not known is put at the end of the path, if the path leads
there. -/
theorem Marked.enter {w : Walk g} (hw : w.Marked) {i : Nat} (hi : i < g.size)
    (hv : w.visited.contains i = false) (ha : w.active.contains i = false)
    (hedge : ∀ j ∈ (w.path.map Prod.fst).head?, g.Edge j i) : (w.enter i).Marked where
  active_iff j := by
    rw [Walk.enter, NodeSet.contains_insert _ (Nat.lt_of_lt_of_le hi w.active.le_capacity),
      Bool.or_eq_true, decide_eq_true_eq, hw.active_iff, List.map_cons, List.mem_cons, eq_comm]
  visited_iff := hw.visited_iff
  nodup := by
    refine List.nodup_cons.2 ⟨fun hmem => ?_, hw.nodup⟩
    rcases List.mem_append.1 hmem with h | h
    · rw [(hw.active_iff i).2 h] at ha; cases ha
    · rw [(hw.visited_iff i).2 h] at hv; cases hv
  lt_size j hj := by
    rcases List.mem_cons.1 hj with rfl | hj
    · exact hi
    · exact hw.lt_size j hj
  closed := hw.closed
  chain := hw.chain.cons hedge

/-- The last node of the path is visited, if its precedents are. -/
theorem Marked.leave {w : Walk g} (hw : w.Marked) {i k : Nat} {path : List (Nat × Nat)}
    (hpath : w.path = (i, k) :: path) (hdone : ∀ j ∈ g.precedents i, j ∈ w.order) :
    (w.leave i path).Marked := by
  have hknown : w.known = i :: (path.map Prod.fst ++ w.order) := by simp [known, hpath]
  have hnodup := hw.nodup
  have hi : i < g.size := hw.lt_size i (by rw [hknown]; exact List.mem_cons_self)
  have hcap := Nat.lt_of_lt_of_le hi w.active.le_capacity
  rw [hknown, List.nodup_cons] at hnodup
  have hperm : (w.leave i path).known.Perm w.known := by
    rw [hknown]; exact List.perm_middle
  constructor
  · intro j
    have hj := hw.active_iff j
    rw [hpath, List.map_cons, List.mem_cons] at hj
    simp only [Walk.leave, NodeSet.contains_erase _ hcap, Bool.and_eq_true, Bool.not_eq_true',
      decide_eq_false_iff_not, hj]
    constructor
    · rintro ⟨hne, rfl | hmem⟩
      · exact absurd rfl hne
      · exact hmem
    · intro hmem
      refine ⟨?_, .inr hmem⟩
      rintro rfl
      exact hnodup.1 (List.mem_append_left _ hmem)
  · intro j
    rw [show (w.leave i path).visited = w.visited.insert i from rfl,
      NodeSet.contains_insert w.visited hcap, Bool.or_eq_true, decide_eq_true_eq,
      hw.visited_iff, Walk.leave, List.mem_cons, eq_comm]
  · exact hperm.nodup_iff.2 hw.nodup
  · exact fun j hj => hw.lt_size j (hperm.mem_iff.1 hj)
  · exact ⟨hdone, hw.closed⟩
  · have hchain := hw.chain
    rw [hpath] at hchain
    exact hchain.tail

/-- Passing over one more precedent. -/
theorem passed_succ {done : List Nat} {i k j : Nat} {path : List (Nat × Nat)}
    (h : g.Passed done ((i, k) :: path)) (hj : (g.precedents i)[k]? = some j) :
    g.Passed (j :: done) ((i, k + 1) :: path) := by
  obtain ⟨hk, rfl⟩ := List.getElem?_eq_some_iff.1 hj
  refine ⟨fun n hn => ?_, h.2.mono fun n hn => ?_⟩
  · rw [List.take_succ_eq_append_getElem hk, List.mem_append, List.mem_singleton] at hn
    rcases hn with hn | rfl
    · exact List.mem_cons_of_mem _ (h.1 n hn)
    · exact List.mem_cons_self
  · rcases List.mem_cons.1 hn with rfl | hn
    · exact List.mem_cons_self
    · exact List.mem_cons_of_mem _ (List.mem_cons_of_mem _ hn)

/-- A step keeps what holds of every state. -/
theorem Sound.step {w w' : Walk g} (hw : w.Sound) (h : Step w w') : w'.Sound := by
  have hpassed := hw.passed
  cases h with
  | @pass i k j path hpath hj hv =>
    rw [hpath] at hpassed
    have hdone : j ∈ w.order := (hw.visited_iff j).1 hv
    refine ⟨hw.toMarked.congr (by simp [hpath]), (passed_succ hpassed hj).mono fun n hn => ?_⟩
    rcases List.mem_cons.1 hn with rfl | hn
    · exact hdone
    · exact hn
  | @enter i k j path hpath hj hv ha =>
    rw [hpath] at hpassed
    have hedge : g.Edge i j := List.mem_of_getElem? hj
    refine ⟨(hw.toMarked.congr (by simp [hpath])).enter (g.lt_size_of_mem_precedents hedge) hv ha
      (by simpa using hedge), by simp, passed_succ hpassed hj⟩
  | @leave i k path hpath hk =>
    rw [hpath] at hpassed
    have hall : (g.precedents i).take k = g.precedents i :=
      List.take_of_length_le (List.getElem?_eq_none_iff.1 hk)
    exact ⟨hw.toMarked.leave hpath (hall ▸ hpassed.1), hpassed.2⟩
  | @root i hpath hi hv =>
    have ha : w.active.contains i = false := by
      refine Bool.eq_false_iff.2 fun h => ?_
      have hmem := (hw.active_iff i).1 h
      simp [hpath] at hmem
    refine ⟨hw.toMarked.enter hi hv ha (by simp [hpath]), by simp, ?_⟩
    rw [hpath]
    trivial

theorem Sound.run {w w' : Walk g} (hw : w.Sound) (h : ReflTransGen Step w w') : w'.Sound := by
  induction h with
  | refl => exact hw
  | tail _ hstep ih => exact ih.step hstep

/-- A step forgets no node. -/
theorem Step.known_subset {w w' : Walk g} (h : Step w w') : ∀ i ∈ w.known, i ∈ w'.known := by
  intro n hn
  cases h with
  | pass hpath hj hv => simpa [known, hpath] using hn
  | enter hpath hj hv ha =>
    refine List.mem_cons_of_mem _ ?_
    simpa [known, hpath, Walk.enter] using hn
  | leave hpath hk =>
    simp only [known, hpath, List.map_cons, List.cons_append, List.mem_cons, List.mem_append] at hn
    simp only [known, Walk.leave, List.mem_append, List.mem_cons]
    exact or_left_comm.1 hn
  | root hpath hi hv => exact List.mem_cons_of_mem _ hn

theorem known_subset_of_run {w w' : Walk g} (h : ReflTransGen Step w w') :
    ∀ i ∈ w.known, i ∈ w'.known := by
  induction h with
  | refl => exact fun _ hi => hi
  | tail _ hstep ih => exact fun i hi => hstep.known_subset i (ih i hi)

theorem known_eq_order {w : Walk g} (h : w.path = []) : w.known = w.order := by
  simp [known, h]

/-! ## Whole walks -/

/-- A walk over roots takes steps, up to where all of them are visited or to a
cycle. -/
theorem visit_run {w : Walk g} (hw : w.Sound) (hpath : w.path = []) {roots : List Nat}
    (hroots : ∀ i ∈ roots, i < g.size) :
    ReflTransGen Step w (w.visit roots).1 ∧
      ((w.visit roots).2 = none →
        (w.visit roots).1.path = [] ∧ ∀ i ∈ roots, i ∈ (w.visit roots).1.order) ∧
      ∀ nodes, (w.visit roots).2 = some nodes → (w.visit roots).1.advance = .cycle nodes := by
  induction roots generalizing w with
  | nil => exact ⟨.refl, fun _ => ⟨hpath, nofun⟩, nofun⟩
  | cons i rest ih =>
    have hrest : ∀ j ∈ rest, j < g.size := fun j hj => hroots j (List.mem_cons_of_mem _ hj)
    rw [visit]
    split
    · next hv =>
      obtain ⟨hrun, hall, hcycle⟩ := ih hw hpath hrest
      refine ⟨hrun, fun hnone => ⟨(hall hnone).1, fun j hj => ?_⟩, hcycle⟩
      rcases List.mem_cons.1 hj with rfl | hj
      · have hmem := known_subset_of_run hrun j (List.mem_append_right _ ((hw.visited_iff j).1 hv))
        rwa [known_eq_order (hall hnone).1] at hmem
      · exact (hall hnone).2 j hj
    · next hv =>
      have hroot : Step w (w.enter i) :=
        .root hpath (hroots i List.mem_cons_self) (Bool.eq_false_iff.2 hv)
      obtain ⟨hfollow, hend, hcycle⟩ := follow_run (w.enter i)
      generalize (w.enter i).follow = result at hfollow hend hcycle
      obtain ⟨w', cycle⟩ := result
      have hrun : ReflTransGen Step w w' := .head hroot hfollow
      cases cycle with
      | some nodes => exact ⟨hrun, nofun, fun n hn => hcycle n hn⟩
      | none =>
        have hpath' : w'.path = [] := hend rfl
        have hi : i ∈ w'.known := known_subset_of_run hfollow i List.mem_cons_self
        obtain ⟨hrun', hall, hcycle'⟩ := ih (hw.run hrun) hpath' hrest
        refine ⟨hrun.trans hrun', fun hnone => ⟨(hall hnone).1, fun j hj => ?_⟩, hcycle'⟩
        rcases List.mem_cons.1 hj with rfl | hj
        · have hmem := known_subset_of_run hrun' j hi
          rwa [known_eq_order (hall hnone).1] at hmem
        · exact (hall hnone).2 j hj

/-- The path of a walk, from a node of it on, is a cycle if the current node leads
back there. -/
theorem isCycle_of_advance {w : Walk g} (hw : w.Sound) {nodes : List Nat}
    (h : w.advance = .cycle nodes) : g.IsCycle nodes := by
  obtain ⟨i, k, j, path, hpath, hj, ha, rfl⟩ := advance_cycle h
  have hchain : (w.path.reverse.map Prod.fst).IsChain g.Edge := by
    rw [List.map_reverse, List.isChain_reverse]
    exact hw.chain
  have hnodup : (w.path.reverse.map Prod.fst).Nodup := by
    rw [List.map_reverse]
    exact (List.reverse_perm _).nodup_iff.2 (List.nodup_append.1 hw.nodup).1
  have hlast : (w.path.reverse.map Prod.fst).getLast? = some i := by
    simp [List.getLast?_reverse, hpath]
  have hmem : j ∈ w.path.reverse.map Prod.fst := by
    rw [List.map_reverse, List.mem_reverse]
    exact (hw.active_iff j).1 ha
  obtain ⟨a, b, hsplit, hja⟩ := List.eq_append_cons_of_mem hmem
  rw [hsplit] at hchain hnodup hlast
  have hfrom : w.cycleFrom j = j :: (b ++ [j]) := by
    have hne : ∀ n ∈ a, (n != j) = true := fun n hn => by
      rw [bne_iff_ne]
      rintro rfl
      exact hja hn
    rw [cycleFrom, hsplit, List.dropWhile_append_of_pos hne]
    simp
  refine ⟨?_, j, b, hfrom, (List.nodup_append.1 hnodup).2.1⟩
  rw [hfrom, ← List.cons_append]
  refine hchain.right_of_append.append (.singleton j) fun n hn m hm => ?_
  rw [List.getLast?_append_cons] at hlast
  rw [hlast] at hn
  cases hn
  cases hm
  exact List.mem_of_getElem? hj

end Walk

namespace Graph

variable {g : Graph}

/-- A walk that ends without a failure has visited every node once, and each one
after its precedents. -/
theorem walk_complete (g : Graph) {order : List Nat} (h : g.walk = (order, none)) :
    order.Perm (List.range g.size) ∧ g.Closed order.reverse := by
  have hroots : ∀ i ∈ List.range g.size, i < g.size := fun i hi => List.mem_range.1 hi
  obtain ⟨hrun, hall, -⟩ := Walk.visit_run Walk.sound_start rfl hroots
  unfold walk at h
  generalize (Walk.start g).visit (List.range g.size) = result at h hrun hall
  obtain ⟨w, cycle⟩ := result
  simp only [Prod.mk.injEq, Option.map_eq_none_iff] at h
  obtain ⟨rfl, rfl⟩ := h
  obtain ⟨hpath, hvisited⟩ := hall rfl
  have hw := Walk.sound_start.run hrun
  have hknown := Walk.known_eq_order hpath
  refine ⟨(List.reverse_perm _).trans ?_, by rw [List.reverse_reverse]; exact hw.closed⟩
  refine (List.perm_ext_iff_of_nodup (hknown ▸ hw.nodup) List.nodup_range).2 fun i => ?_
  rw [List.mem_range]
  exact ⟨fun hi => hw.lt_size i (hknown ▸ hi), fun hi => hvisited i (List.mem_range.2 hi)⟩

/-- A walk that fails has met a cycle, and reports it. -/
theorem walk_failure (g : Graph) {order : List Nat} {failure : Failure}
    (h : g.walk = (order, some failure)) :
    ∃ nodes, g.IsCycle nodes ∧ failure = g.cycleFailure nodes := by
  have hroots : ∀ i ∈ List.range g.size, i < g.size := fun i hi => List.mem_range.1 hi
  obtain ⟨hrun, -, hcycle⟩ := Walk.visit_run Walk.sound_start rfl hroots
  unfold walk at h
  generalize (Walk.start g).visit (List.range g.size) = result at h hrun hcycle
  obtain ⟨w, cycle⟩ := result
  simp only [Prod.mk.injEq, Option.map_eq_some_iff] at h
  obtain ⟨-, nodes, rfl, rfl⟩ := h
  exact ⟨nodes, Walk.isCycle_of_advance (Walk.sound_start.run hrun) (hcycle nodes rfl), rfl⟩

/-- A walk without a failure is possible in acyclic graphs only. -/
theorem acyclic_of_walk (g : Graph) {order : List Nat} (h : g.walk = (order, none)) :
    g.Acyclic := by
  obtain ⟨hperm, hclosed⟩ := walk_complete g h
  intro i hi
  obtain ⟨j, hij, -⟩ := TransGen.head'_iff.1 hi
  have hmem : i ∈ order := hperm.mem_iff.2 (List.mem_range.2 (lt_size_of_edge hij))
  exact not_transGen_self_of_acc (hclosed.acc i (List.mem_reverse.2 hmem)) hi

/-- A walk ends without a failure in acyclic graphs. -/
theorem exists_walk_of_acyclic (h : g.Acyclic) : ∃ order, g.walk = (order, none) := by
  match hwalk : g.walk with
  | (order, none) => exact ⟨order, rfl⟩
  | (order, some failure) =>
    obtain ⟨nodes, hcycle, -⟩ := walk_failure g hwalk
    exact absurd h hcycle.not_acyclic

theorem topologicalOrder_eq_ok {order : List Nat} :
    g.topologicalOrder = .ok order ↔ g.walk = (order, none) := by
  unfold topologicalOrder
  split
  · next o h => rw [h, Except.ok.injEq, Prod.mk.injEq, and_iff_left rfl]
  · next o failure h => simp [h]

/-- A graph of dependencies has a topological order exactly if its precedents have
no cycle, and the order has every node once and after all of its precedents. -/
theorem topologicalOrder_iff_acyclic (labels : List String) (dependencies : List Dependencies) :
    ((∃ order, (ofDependencies labels dependencies).topologicalOrder = .ok order) ↔
        (ofDependencies labels dependencies).Acyclic) ∧
      ∀ order, (ofDependencies labels dependencies).topologicalOrder = .ok order →
        order.Perm (List.range (ofDependencies labels dependencies).size) ∧
        ∀ before i after, order = before ++ i :: after →
          ∀ j ∈ (ofDependencies labels dependencies).precedents i, j ∈ before := by
  generalize ofDependencies labels dependencies = g
  refine ⟨⟨?_, fun hacyclic => ?_⟩, fun order h => ?_⟩
  · rintro ⟨order, h⟩
    exact acyclic_of_walk g (topologicalOrder_eq_ok.1 h)
  · obtain ⟨order, hwalk⟩ := exists_walk_of_acyclic hacyclic
    exact ⟨order, topologicalOrder_eq_ok.2 hwalk⟩
  · obtain ⟨hperm, hclosed⟩ := walk_complete g (topologicalOrder_eq_ok.1 h)
    refine ⟨hperm, ?_⟩
    rintro before i after rfl j hj
    rw [List.reverse_append, List.reverse_cons, List.append_assoc] at hclosed
    exact List.mem_reverse.1 (hclosed.mem_of_append hj)

/-- Four nodes, the last of which the first depends on in two ways. -/
def diamond : List Dependencies :=
  [⟨[.value "b", .value "c"], [.value "d"]⟩, ⟨[.value "a"], [.value "b"]⟩,
    ⟨[.value "a"], [.value "c"]⟩, ⟨[], [.value "a"]⟩]

/-- Two ways to one node are not a cycle. -/
theorem topologicalOrder_diamond :
    (ofDependencies ["d", "b", "c", "a"] diamond).topologicalOrder = .ok [3, 1, 2, 0] ∧
      (ofDependencies ["d", "b", "c", "a"] diamond).Acyclic ∧
      ∀ j ∈ (ofDependencies ["d", "b", "c", "a"] diamond).precedents 0, j ∈ [3, 1, 2] := by
  have h : (ofDependencies ["d", "b", "c", "a"] diamond).topologicalOrder = .ok [3, 1, 2, 0] := by
    rw [topologicalOrder_eq_ok, ofDependencies_eq_byAsking]
    decide +kernel
  obtain ⟨hiff, horder⟩ := topologicalOrder_iff_acyclic ["d", "b", "c", "a"] diamond
  exact ⟨h, hiff.1 ⟨_, h⟩, (horder _ h).2 [3, 1, 2] 0 [] rfl⟩

end Graph

end Reckoner
