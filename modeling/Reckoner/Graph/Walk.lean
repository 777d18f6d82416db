import Reckoner.Graph.Basic
import Reckoner.Graph.NodeSet

/-!
# Walking a dependency graph

A walk visits the nodes of a graph, each after all of its precedents, and takes
them in order otherwise. It enters every node that is not visited yet and goes
down a path to the precedents that are not visited either, keeping its place
among the precedents of every node on the path; a node whose precedents are
done is visited and left. If it meets a node of its own path, it ends there with
the cycle.

* `Walk.advance`: one move on a path;
* `work_advance`: every move leaves less to do, so a path comes to an end. From
  the start on there are at most as many moves as nodes and edges;
* `Graph.walk`: the nodes visited and the cycle, if there is one.
-/

namespace Reckoner

/-- A walk under way. -/
structure Walk (g : Graph) where
  /-- The nodes from the current one back to the one that was entered first, each
  with the number of its precedents that are done. -/
  path : List (Nat × Nat)
  /-- The nodes on the path. -/
  active : NodeSet g.size
  visited : NodeSet g.size
  /-- The visited nodes, the last one first. -/
  order : List Nat

namespace Walk

variable {g : Graph}

/-- What follows a move. -/
inductive Move (g : Graph) where
  | next (w : Walk g)
  /-- The path has come to its end. -/
  | finished
  /-- The nodes of a cycle, from the one that was met again to itself. -/
  | cycle (nodes : List Nat)

/-- The walk before its first move. -/
def start (g : Graph) : Walk g :=
  ⟨[], .empty _, .empty _, []⟩

/-- The walk with a node put at the end of the path. -/
def enter (w : Walk g) (i : Nat) : Walk g :=
  { w with path := (i, 0) :: w.path, active := w.active.insert i }

/-- The walk with the last node of the path visited, `path` being the others. -/
def leave (w : Walk g) (i : Nat) (path : List (Nat × Nat)) : Walk g :=
  { w with
    path := path
    active := w.active.erase i
    visited := w.visited.insert i
    order := i :: w.order }

/-- The path from a node of it on, and that node again. -/
def cycleFrom (w : Walk g) (j : Nat) : List Nat :=
  (w.path.reverse.map Prod.fst).dropWhile (· != j) ++ [j]

/-- One move: to a precedent of the last node, or back from it. -/
def advance (w : Walk g) : Move g :=
  match w.path with
  | (i, k) :: path =>
    match (g.precedents i)[k]? with
    | some j =>
      let w := { w with path := (i, k + 1) :: path }
      if w.visited.contains j then .next w
      else if w.active.contains j then .cycle (w.cycleFrom j)
      else .next (w.enter j)
    | none => .next (w.leave i path)
  | [] => .finished

/-! ## What is left to do -/

/-- Whether a node is neither on the path nor visited. -/
def isFresh (w : Walk g) (i : Nat) : Bool :=
  !w.active.contains i && !w.visited.contains i

/-- A node and its precedents. -/
def cost (g : Graph) (i : Nat) : Nat :=
  (g.precedents i).length + 1

/-- The work that the path holds: its nodes, and their precedents that are not
done. -/
def pathWork (g : Graph) (path : List (Nat × Nat)) : Nat :=
  (path.map fun (i, k) => (g.precedents i).length - k + 1).foldr (· + ·) 0

/-- The work that nodes hold which are not begun. -/
def freshWork (w : Walk g) : Nat :=
  (((List.range g.size).filter w.isFresh).map (cost g)).foldr (· + ·) 0

/-- The nodes and precedents that the walk has yet to deal with. -/
def work (w : Walk g) : Nat :=
  pathWork g w.path + w.freshWork

theorem sum_filter_le {l : List Nat} {p q : Nat → Bool} (f : Nat → Nat)
    (h : ∀ i ∈ l, p i = true → q i = true) :
    ((l.filter p).map f).foldr (· + ·) 0 ≤ ((l.filter q).map f).foldr (· + ·) 0 := by
  induction l with
  | nil => simp
  | cons i l ih =>
    have ih := ih fun j hj => h j (List.mem_cons_of_mem _ hj)
    have hi := h i List.mem_cons_self
    by_cases hp : p i = true
    · simp [hp, hi hp]
      omega
    · by_cases hq : q i = true
      · simp [hp, hq]
        omega
      · simp [hp, hq]
        omega

theorem sum_filter_add_le {l : List Nat} {p q : Nat → Bool} (f : Nat → Nat) {j : Nat}
    (hj : j ∈ l) (hq : q j = true) (hp : p j = false) (h : ∀ i ∈ l, p i = true → q i = true) :
    ((l.filter p).map f).foldr (· + ·) 0 + f j ≤ ((l.filter q).map f).foldr (· + ·) 0 := by
  induction l with
  | nil => cases hj
  | cons i l ih =>
    have hsub : ∀ k ∈ l, p k = true → q k = true := fun k hk => h k (List.mem_cons_of_mem _ hk)
    by_cases hij : i = j
    · have := sum_filter_le f hsub
      subst hij
      simp [hp, hq]
      omega
    · have ih := ih (List.mem_of_ne_of_mem (fun he => hij he.symm) hj) hsub
      have hi := h i List.mem_cons_self
      by_cases hpi : p i = true
      · simp [hpi, hi hpi]
        omega
      · by_cases hqi : q i = true
        · simp [hpi, hqi]
          omega
        · simp [hpi, hqi]
          omega

/-- A node that is entered is no longer fresh. -/
theorem freshWork_enter {w : Walk g} {j : Nat} (hj : j < g.size) (hf : w.isFresh j = true) :
    (w.enter j).freshWork + cost g j ≤ w.freshWork := by
  have hcap := Nat.lt_of_lt_of_le hj w.active.le_capacity
  refine sum_filter_add_le (cost g) (List.mem_range.2 hj) hf ?_ fun i _ hi => ?_
  · simp [isFresh, enter, NodeSet.contains_insert _ hcap]
  · simp only [isFresh, enter, NodeSet.contains_insert _ hcap, Bool.and_eq_true,
      Bool.not_eq_true', Bool.or_eq_false_iff] at hi ⊢
    exact ⟨hi.1.2, hi.2⟩

/-- A node that is left does not become fresh. -/
theorem freshWork_leave (w : Walk g) (i : Nat) (path : List (Nat × Nat)) :
    (w.leave i path).freshWork ≤ w.freshWork := by
  refine sum_filter_le (cost g) fun j hj h => ?_
  have hj := List.mem_range.1 hj
  by_cases hi : i < w.active.capacity
  · have hi' : i < w.visited.capacity := hi
    simp only [isFresh, leave, NodeSet.contains_insert _ hi', NodeSet.contains_erase _ hi,
      Bool.and_eq_true, Bool.not_eq_true', Bool.or_eq_false_iff, Bool.and_eq_false_iff,
      Bool.not_eq_false', decide_eq_true_eq, decide_eq_false_iff_not] at h ⊢
    exact ⟨h.1.resolve_left h.2.1, h.2.2⟩
  · have hi := Nat.not_lt.1 hi
    have hi' : w.visited.capacity ≤ i := hi
    simpa only [isFresh, leave, NodeSet.insert, NodeSet.erase, NodeSet.update_of_capacity_le _ hi,
      NodeSet.update_of_capacity_le _ hi'] using h

/-- A node of a path costs less with one more of its precedents done. -/
theorem pathWork_step {i k j : Nat} (h : (g.precedents i)[k]? = some j)
    (path : List (Nat × Nat)) :
    pathWork g ((i, k + 1) :: path) + 1 = pathWork g ((i, k) :: path) := by
  obtain ⟨hk, _⟩ := List.getElem?_eq_some_iff.1 h
  simp only [pathWork, List.map_cons, List.foldr_cons]
  omega

theorem pathWork_enter (w : Walk g) (j : Nat) :
    pathWork g (w.enter j).path = cost g j + pathWork g w.path := by
  simp [pathWork, enter, cost]

/-- A move leaves less work. -/
theorem work_advance {w w' : Walk g} (h : w.advance = .next w') : w'.work < w.work := by
  unfold advance at h
  split at h
  · next i k path hp =>
    split at h
    · next j hj =>
      have hstep := pathWork_step hj path
      have hsize := g.lt_size_of_mem_precedents (List.mem_of_getElem? hj)
      simp only at h
      split at h
      · cases h
        simp only [work, freshWork, hp]
        show pathWork g ((i, k + 1) :: path) + w.freshWork <
          pathWork g ((i, k) :: path) + w.freshWork
        omega
      · next hv =>
        split at h
        · cases h
        · next ha =>
          cases h
          have hfresh : isFresh { w with path := (i, k + 1) :: path } j = true := by
            simp only [isFresh, Bool.and_eq_true, Bool.not_eq_true']
            exact ⟨Bool.not_eq_true _ ▸ ha, Bool.not_eq_true _ ▸ hv⟩
          have hf := freshWork_enter hsize hfresh
          have hw : freshWork { w with path := (i, k + 1) :: path } = w.freshWork := rfl
          simp only [work, pathWork_enter, hp]
          omega
    · cases h
      have := freshWork_leave w i path
      have hpath : pathWork g ((i, k) :: path) =
          (g.precedents i).length - k + 1 + pathWork g path := by
        simp [pathWork]
      show pathWork g path + (w.leave i path).freshWork < pathWork g w.path + w.freshWork
      rw [hp]
      omega
  · cases h

/-- The moves up to the end of the path: the walk then, and the cycle if it met
one. -/
def follow (w : Walk g) : Walk g × Option (List Nat) :=
  match h : w.advance with
  | .next w' =>
    have := work_advance h
    follow w'
  | .finished => (w, none)
  | .cycle nodes => (w, some nodes)
  termination_by w.work

/-- The walk from nodes that are not visited yet, one after another. -/
def visit (w : Walk g) : List Nat → Walk g × Option (List Nat)
  | [] => (w, none)
  | i :: rest =>
    if w.visited.contains i then w.visit rest
    else
      match (w.enter i).follow with
      | (w, none) => w.visit rest
      | (w, some nodes) => (w, some nodes)

end Walk

namespace Graph

/-- The failure that a cycle is: it is named by the node that it begins with. -/
def cycleFailure (g : Graph) (nodes : List Nat) : Failure :=
  .cycle ((nodes.head?.map g.label).getD "") (nodes.map g.label)

/-- The nodes that a walk visits, in order, and the failure that ends it. -/
def walk (g : Graph) : List Nat × Option Failure :=
  let (w, cycle) := (Walk.start g).visit (List.range g.size)
  (w.order.reverse, cycle.map g.cycleFailure)

/-- All nodes in an order with each one after its precedents. -/
def topologicalOrder (g : Graph) : Except Failure (List Nat) :=
  match g.walk with
  | (order, none) => .ok order
  | (_, some failure) => .error failure

end Graph

end Reckoner
