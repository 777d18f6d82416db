import Reckoner.Proofs.Graph.Failure

/-!
# How far a walk goes

A walk that is watched: it counts its moves down from a limit, and it fails if it runs out of them
or uses a place that the edge lists or the bit sets do not have (`Walk.advance?`, `Walk.follow?`,
`Walk.visit?`, `Graph.walkWithin`). Every state of a walk has its nodes within the graph, so a
watched move is a move (`Walk.advance?_eq`), and each move leaves less work, so the work at the
start is limit enough: a move for each node and one for each edge (`Graph.work_start`). With this
limit the watched walk is the walk, over any graph, and nothing is visited twice
(`Graph.walkWithin_eq`).
-/

namespace Reckoner

namespace NodeSet

variable {n : Nat}

/-- The set with a number put in, if there is a word for it. -/
def insert? (s : NodeSet n) (i : Nat) : Option (NodeSet n) :=
  if i / 64 < s.words.size then some (s.insert i) else none

/-- The set with a number taken out, if there is a word for it. -/
def erase? (s : NodeSet n) (i : Nat) : Option (NodeSet n) :=
  if i / 64 < s.words.size then some (s.erase i) else none

theorem word_lt_of_lt (s : NodeSet n) {i : Nat} (hi : i < n) : i / 64 < s.words.size :=
  (s.word_lt_iff i).2 (hi.trans_le s.le_capacity)

theorem insert?_eq (s : NodeSet n) {i : Nat} (hi : i < n) : s.insert? i = some (s.insert i) :=
  if_pos (s.word_lt_of_lt hi)

theorem erase?_eq (s : NodeSet n) {i : Nat} (hi : i < n) : s.erase? i = some (s.erase i) :=
  if_pos (s.word_lt_of_lt hi)

end NodeSet

namespace Walk

variable {g : Graph}

/-! ## Watched moves -/

/-- The walk with a node put at the end of the path, if the set of active nodes has a place for
it. -/
def enter? (w : Walk g) (i : Nat) : Option (Walk g) := do
  let active ← w.active.insert? i
  some { w with path := (i, 0) :: w.path, active := active }

/-- The walk with the last node of the path visited, if both sets have a place for it. -/
def leave? (w : Walk g) (i : Nat) (path : List (Nat × Nat)) : Option (Walk g) := do
  let active ← w.active.erase? i
  let visited ← w.visited.insert? i
  some { path := path, active := active, visited := visited, order := i :: w.order }

/-- One move, if there is an edge list for the last node of the path. -/
def advance? (w : Walk g) : Option (Move g) :=
  match w.path with
  | (i, k) :: path => do
    let edges ← g.edges[i]?
    match edges[k]? with
    | some j =>
      let w := { w with path := (i, k + 1) :: path }
      if w.visited.contains j then some (.next w)
      else if w.active.contains j then some (.cycle (w.cycleFrom j))
      else (w.enter? j).map .next
    | none => (w.leave? i path).map .next
  | [] => some .finished

/-- The moves up to the end of the path, at most `limit`: what is left of the limit, the walk then,
and the cycle if it met one. To find that the path has come to its end is no move. -/
def follow? (limit : Nat) (w : Walk g) : Option (Nat × Walk g × Option (List Nat)) :=
  match limit, w.advance? with
  | limit, some .finished => some (limit, w, none)
  | limit + 1, some (.cycle nodes) => some (limit, w, some nodes)
  | limit + 1, some (.next w') => follow? limit w'
  | _, _ => none

/-- The walk from nodes that are not visited yet, one after another, with at most `limit` moves
in all. -/
def visit? (limit : Nat) (w : Walk g) : List Nat → Option (Nat × Walk g × Option (List Nat))
  | [] => some (limit, w, none)
  | i :: rest =>
    if w.visited.contains i then w.visit? limit rest
    else do
      match ← (← w.enter? i).follow? limit with
      | (limit, w, none) => w.visit? limit rest
      | (limit, w, some nodes) => some (limit, w, some nodes)

/-! ## Watched moves are moves -/

theorem enter?_eq (w : Walk g) {i : Nat} (hi : i < g.size) : w.enter? i = some (w.enter i) := by
  rw [enter?, w.active.insert?_eq hi]
  rfl

theorem leave?_eq (w : Walk g) {i : Nat} (hi : i < g.size) (path : List (Nat × Nat)) :
    w.leave? i path = some (w.leave i path) := by
  rw [leave?, w.active.erase?_eq hi, w.visited.insert?_eq hi]
  rfl

/-- In a state of a walk no place is missing. -/
theorem advance?_eq {w : Walk g} (hw : w.Sound) : w.advance? = some w.advance := by
  cases hpath : w.path with
  | nil => rw [advance_nil hpath, advance?, hpath]
  | cons e path =>
    obtain ⟨i, k⟩ := e
    have hi : i < g.size := hw.lt_size i (by simp [known, hpath])
    have hedges : g.edges[i]? = some (g.precedents i) := by
      rw [Graph.precedents, Array.getElem?_eq_getElem hi, Option.getD_some]
    rw [advance?, hpath]
    simp only [hedges, Option.bind_eq_bind, Option.bind_some]
    cases hj : (g.precedents i)[k]? with
    | none => rw [advance_leave hpath hj, leave?_eq w hi, Option.map_some]
    | some j =>
      have hsize := g.lt_size_of_mem_precedents (List.mem_of_getElem? hj)
      simp only [enter?_eq _ hsize, Option.map_some]
      cases hv : w.visited.contains j with
      | true => rw [advance_pass hpath hj hv, if_pos rfl]
      | false =>
        rw [if_neg Bool.false_ne_true]
        cases ha : w.active.contains j with
        | true =>
          rw [advance_meet hpath hj hv ha, if_pos rfl]
          simp [cycleFrom, hpath]
        | false => rw [advance_enter hpath hj hv ha, if_neg Bool.false_ne_true]

theorem work_pos {w : Walk g} {nodes : List Nat} (h : w.advance = .cycle nodes) : 0 < w.work := by
  obtain ⟨i, k, j, path, hpath, -⟩ := advance_cycle h
  simp only [work, hpath, pathWork, List.map_cons, List.foldr_cons]
  omega

/-- The work of a walk is limit enough to follow its path, and if there is no cycle what is left
of the limit is enough for the work that is left. -/
theorem follow?_eq {limit : Nat} {w : Walk g} (hw : w.Sound) (hlimit : w.work ≤ limit) :
    ∃ rest, w.follow? limit = some (rest, w.follow) ∧
      (w.follow.2 = none → w.follow.1.work ≤ rest) := by
  fun_induction follow w generalizing limit with
  | case1 w w' h _ ih =>
    have hless := work_advance h
    obtain ⟨limit, rfl⟩ := Nat.exists_eq_succ_of_ne_zero (show limit ≠ 0 by omega)
    rw [follow?.eq_def, advance?_eq hw, h]
    exact ih (hw.step (advance_step h)) (by omega)
  | case2 w h =>
    refine ⟨limit, ?_, fun _ => hlimit⟩
    rw [follow?.eq_def, advance?_eq hw, h]
  | case3 w nodes h =>
    have hpos := work_pos h
    obtain ⟨limit, rfl⟩ := Nat.exists_eq_succ_of_ne_zero (show limit ≠ 0 by omega)
    refine ⟨limit, ?_, fun hnone => absurd hnone (Option.some_ne_none nodes)⟩
    rw [follow?.eq_def, advance?_eq hw, h]

/-- A root adds no work: it was among the nodes that are not begun. -/
theorem work_enter {w : Walk g} {i : Nat} (hi : i < g.size) (hf : w.isFresh i = true) :
    (w.enter i).work ≤ w.work := by
  have hfresh := freshWork_enter hi hf
  rw [work, work, pathWork_enter]
  omega

/-- The work of a walk is limit enough for a walk over roots. -/
theorem visit?_eq {limit : Nat} {w : Walk g} (hw : w.Sound) (hpath : w.path = [])
    (hlimit : w.work ≤ limit) {roots : List Nat} (hroots : ∀ i ∈ roots, i < g.size) :
    ∃ rest, w.visit? limit roots = some (rest, w.visit roots) := by
  induction roots generalizing w limit with
  | nil => exact ⟨limit, rfl⟩
  | cons i roots ih =>
    obtain ⟨hi, hrest⟩ := List.forall_mem_cons.1 hroots
    rw [visit?, visit]
    split
    · exact ih hw hpath hlimit hrest
    · next hv =>
      have hv := Bool.eq_false_iff.2 hv
      have hroot : Step w (w.enter i) := .root hpath hi hv
      have ha : w.active.contains i = false := by
        refine Bool.eq_false_iff.2 fun h => ?_
        have hmem := (hw.active_iff i).1 h
        simp [hpath] at hmem
      have hfresh : w.isFresh i = true := by simp [isFresh, ha, hv]
      obtain ⟨rest, hfollow, hleft⟩ :=
        follow?_eq (hw.step hroot) ((work_enter hi hfresh).trans hlimit)
      obtain ⟨hrun, hend, -⟩ := follow_run (w.enter i)
      rw [enter?_eq w hi, Option.bind_eq_bind, Option.bind_some, hfollow, Option.bind_eq_bind,
        Option.bind_some]
      generalize (w.enter i).follow = result at hleft hrun hend ⊢
      obtain ⟨w', cycle⟩ := result
      cases cycle with
      | none => exact ih (hw.run (.head hroot hrun)) (hend rfl) (hleft rfl) hrest
      | some nodes => exact ⟨rest, rfl⟩

end Walk

namespace Graph

/-- The number of edges. -/
def edgeCount (g : Graph) : Nat :=
  (g.edges.toList.map List.length).foldr (· + ·) 0

/-- The walk, unless it takes more than `limit` moves or uses a place that is not there. -/
def walkWithin (g : Graph) (limit : Nat) : Option (List Nat × Option Failure) := do
  let (_, w, cycle) ← (Walk.start g).visit? limit (List.range g.size)
  some (w.order.reverse, cycle.map g.cycleFailure)

theorem map_precedents_range (g : Graph) :
    (List.range g.size).map g.precedents = g.edges.toList := by
  refine List.ext_getElem (by simp [size]) fun i hi _ => ?_
  have hi : i < g.edges.size := by simpa [size] using hi
  simp [precedents, hi]

theorem sum_cost (g : Graph) (l : List Nat) :
    (l.map (Walk.cost g)).foldr (· + ·) 0 =
      l.length + ((l.map g.precedents).map List.length).foldr (· + ·) 0 := by
  induction l with
  | nil => rfl
  | cons i l ih =>
    simp only [List.map_cons, List.foldr_cons, List.length_cons, ih, Walk.cost]
    omega

/-- At the start the work is all nodes and all edges. -/
theorem work_start (g : Graph) : (Walk.start g).work = g.size + g.edgeCount := by
  have hfresh : ∀ i, (Walk.start g).isFresh i = true := fun i => by
    simp [Walk.isFresh, Walk.start, NodeSet.contains_empty]
  have hall : (List.range g.size).filter (Walk.start g).isFresh = List.range g.size :=
    List.filter_eq_self.2 fun i _ => hfresh i
  rw [Walk.work, Walk.freshWork, hall, sum_cost, map_precedents_range, List.length_range,
    edgeCount]
  exact Nat.zero_add _

/-- A walk over any graph, with cycles or without, takes at most one move for each node and one for
each edge, and uses no place that the edge lists or the bit sets do not have. It visits no node
twice. -/
theorem walkWithin_eq (g : Graph) :
    g.walkWithin (g.size + g.edgeCount) = some g.walk ∧ g.walk.1.Nodup := by
  refine ⟨?_, g.walk_nodup⟩
  have hwork : (Walk.start g).work ≤ g.size + g.edgeCount := g.work_start.le
  obtain ⟨rest, hvisit⟩ := Walk.visit?_eq Walk.sound_start rfl hwork
    fun _ hi => List.mem_range.1 hi
  rw [walkWithin, hvisit]
  rfl

end Graph

end Reckoner
