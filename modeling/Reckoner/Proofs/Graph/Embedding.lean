import Reckoner.Proofs.Graph.Failure

/-!
# A graph inside another

The nodes of a graph can be a part of those of another one (`Graph.Embedding`): each
has there its own precedents, and before them only ones that a walk is done with. A
walk over these nodes in the larger graph does the same as one in the smaller
(`Embedding.visit_mirrors`): it passes over the precedents that are done and goes on as
the other one does. So the nodes that are visited are the same, in the same order,
and the cycle that is met.

Dependencies in two parts, the first of which requires nothing of the second, are such
a case twice: the first part is inside the whole from the beginning, and the second
once the first is done. So the walk over the whole is the one over the first part and
then the one over the second (`walk_append`).
-/

namespace Reckoner

namespace Walk

variable {g : Graph}

/-- A walk passes over precedents that are visited. -/
theorem follow_pass {w : Walk g} {i : Nat} {path : List (Nat × Nat)} {before done after : List Nat}
    (hpath : w.path = (i, before.length) :: path)
    (hprecedents : g.precedents i = before ++ done ++ after)
    (hdone : ∀ j ∈ done, w.visited.contains j = true) :
    w.follow =
      follow { w with path := (i, before.length + done.length) :: path } := by
  induction done generalizing w before with
  | nil => rw [List.length_nil, Nat.add_zero, ← hpath]
  | cons j done ih =>
    obtain ⟨hj, hrest⟩ := List.forall_mem_cons.1 hdone
    have hnext : (g.precedents i)[before.length]? = some j := by
      rw [hprecedents]
      simp
    have hlength : (before ++ [j]).length = before.length + 1 := by simp
    rw [follow_next (advance_pass hpath hnext hj), ← hlength,
      @ih { w with path := (i, (before ++ [j]).length) :: path } (before ++ [j]) rfl
        (by rw [hprecedents]; simp) hrest]
    simp only [hlength, List.length_cons, Nat.add_assoc, Nat.add_comm 1]

/-- A walk over more roots goes on from where it is, unless it has met a cycle. -/
theorem visit_append (w : Walk g) (roots rest : List Nat) :
    w.visit (roots ++ rest) =
      if (w.visit roots).2 = none then (w.visit roots).1.visit rest else w.visit roots := by
  induction roots generalizing w with
  | nil => rfl
  | cons i roots ih =>
    rw [List.cons_append, visit, visit]
    by_cases hv : w.visited.contains i = true
    · rw [if_pos hv, if_pos hv]
      exact ih w
    · rw [if_neg hv, if_neg hv]
      generalize (w.enter i).follow = result
      obtain ⟨w, cycle⟩ := result
      cases cycle with
      | none => exact ih w
      | some nodes => rfl

end Walk

namespace Graph

/-- A graph inside another one: node `i` is `place i` there, and its precedents there
are its own and before them some that are `done`. -/
structure Embedding (g g' : Graph) (done : List Nat) where
  place : Nat → Nat
  place_injective : ∀ {i j}, place i = place j → i = j
  place_lt : ∀ {i}, i < g.size → place i < g'.size
  before : Nat → List Nat
  before_subset : ∀ {i}, i < g.size → ∀ j ∈ before i, j ∈ done
  precedents_place : ∀ {i}, i < g.size →
    g'.precedents (place i) = before i ++ (g.precedents i).map place

namespace Embedding

variable {g g' : Graph} {done : List Nat}

theorem place_inj (e : Embedding g g' done) {i j : Nat} : e.place i = e.place j ↔ i = j :=
  ⟨e.place_injective, congrArg e.place⟩

/-- An entry of a path in the larger graph: the precedents that come before are passed. -/
def entry (e : Embedding g g' done) : Nat × Nat → Nat × Nat
  | (i, k) => (e.place i, (e.before i).length + k)

/-- A walk in the larger graph is where one in the smaller is, after it was done with the
nodes that are `done`. -/
structure Mirrors (e : Embedding g g' done) (w : Walk g) (w' : Walk g') : Prop where
  path : w'.path = w.path.map e.entry
  active : ∀ i < g.size, w'.active.contains (e.place i) = w.active.contains i
  visited : ∀ i < g.size, w'.visited.contains (e.place i) = w.visited.contains i
  visited_done : ∀ j ∈ done, w'.visited.contains j = true
  order : w'.order = w.order.map e.place ++ done

variable {e : Embedding g g' done} {w : Walk g} {w' : Walk g'}

/-- A walk that is done with some nodes has not begun with the others. -/
theorem mirrors_start (hw' : w'.Sound) (hpath : w'.path = [])
    (e : Embedding g g' w'.order) (h : ∀ i < g.size, e.place i ∉ w'.order) :
    e.Mirrors (Walk.start g) w' where
  path := by rw [hpath]; rfl
  active i _ := by
    have hnone : ¬w'.active.contains (e.place i) = true := fun ha => by
      simpa [hpath] using (hw'.active_iff _).1 ha
    simpa [Walk.start, NodeSet.contains_empty] using hnone
  visited i hi := by
    have hnone : ¬w'.visited.contains (e.place i) = true := fun hv =>
      h i hi ((hw'.visited_iff _).1 hv)
    simpa [Walk.start, NodeSet.contains_empty] using hnone
  visited_done j hj := (hw'.visited_iff j).2 hj
  order := by simp [Walk.start]

theorem Mirrors.path_nodes (h : e.Mirrors w w') :
    w'.path.map Prod.fst = (w.path.map Prod.fst).map e.place := by
  rw [h.path, List.map_map, List.map_map]
  rfl

/-- What a walk would report is the same in both graphs. -/
theorem Mirrors.cycleFrom (h : e.Mirrors w w') (j : Nat) :
    w'.cycleFrom (e.place j) = (w.cycleFrom j).map e.place := by
  have hne : (fun i => e.place i != e.place j) = (fun i => i != j) := by
    funext i
    rw [Bool.eq_iff_iff, bne_iff_ne, bne_iff_ne, ne_eq, e.place_inj]
  rw [Walk.cycleFrom, Walk.cycleFrom, List.map_reverse, List.map_reverse, h.path_nodes,
    ← List.map_reverse, List.dropWhile_map, List.map_append, List.map_singleton]
  show List.map e.place (List.dropWhile (fun i => e.place i != e.place j) _) ++ _ = _
  rw [hne]

/-- Entering a node, and passing over those of its precedents that are done. -/
theorem Mirrors.enter (h : e.Mirrors w w') {i : Nat} (hi : i < g.size) :
    ∃ v', e.Mirrors (w.enter i) v' ∧ (w'.enter (e.place i)).follow = v'.follow := by
  refine ⟨{ w'.enter (e.place i) with
    path := (e.place i, (e.before i).length) :: w'.path }, ⟨?_, ?_, ?_, ?_, ?_⟩, ?_⟩
  · show _ = (e.place i, (e.before i).length + 0) :: _
    rw [← h.path]
    rfl
  · intro j hj
    have hcap := Nat.lt_of_lt_of_le hi w.active.le_capacity
    have hcap' := Nat.lt_of_lt_of_le (e.place_lt hi) w'.active.le_capacity
    simp only [Walk.enter, NodeSet.contains_insert _ hcap, NodeSet.contains_insert _ hcap',
      e.place_inj, h.active j hj]
  · exact h.visited
  · exact h.visited_done
  · exact h.order
  · have hpass := @Walk.follow_pass g' (w'.enter (e.place i)) (e.place i) w'.path [] (e.before i)
      ((g.precedents i).map e.place) rfl (e.precedents_place hi)
      fun j hj => h.visited_done j (e.before_subset hi j hj)
    rw [hpass]
    simp only [List.length_nil, Nat.zero_add]

/-- Leaving a node. -/
theorem Mirrors.leave (h : e.Mirrors w w') {i : Nat} (hi : i < g.size) (path : List (Nat × Nat)) :
    e.Mirrors (w.leave i path) (w'.leave (e.place i) (path.map e.entry)) := by
  have hcap := Nat.lt_of_lt_of_le hi w.active.le_capacity
  have hcap' := Nat.lt_of_lt_of_le (e.place_lt hi) w'.active.le_capacity
  refine ⟨rfl, fun j hj => ?_, fun j hj => ?_, fun j hj => ?_, ?_⟩
  · simp only [Walk.leave, NodeSet.contains_erase _ hcap, NodeSet.contains_erase _ hcap',
      e.place_inj, h.active j hj]
  · show (w'.visited.insert (e.place i)).contains (e.place j) = (w.visited.insert i).contains j
    rw [NodeSet.contains_insert w.visited hcap, NodeSet.contains_insert w'.visited hcap',
      h.visited j hj]
    simp only [e.place_inj]
  · show (w'.visited.insert (e.place i)).contains j = true
    rw [NodeSet.contains_insert w'.visited hcap', h.visited_done j hj, Bool.or_true]
  · show e.place i :: w'.order = _
    rw [h.order]
    rfl

/-- Going on to the next precedent. -/
theorem Mirrors.next (h : e.Mirrors w w') (i k : Nat) (path : List (Nat × Nat)) :
    e.Mirrors { w with path := (i, k + 1) :: path }
      { w' with path := (e.place i, (e.before i).length + k + 1) :: path.map e.entry } :=
  ⟨rfl, h.active, h.visited, h.visited_done, h.order⟩

theorem Mirrors.path_cons (h : e.Mirrors w w') {i k : Nat} {path : List (Nat × Nat)}
    (hpath : w.path = (i, k) :: path) :
    w'.path = (e.place i, (e.before i).length + k) :: path.map e.entry := by
  rw [h.path, hpath]
  rfl

theorem getElem?_precedents_place {i : Nat} (hi : i < g.size) (k : Nat) :
    (g'.precedents (e.place i))[(e.before i).length + k]? = (g.precedents i)[k]?.map e.place := by
  rw [e.precedents_place hi, List.getElem?_append_right (Nat.le_add_right _ _),
    Nat.add_sub_cancel_left, List.getElem?_map]

/-- A move in the smaller graph is one in the larger, and there may be others after it. -/
theorem Mirrors.advance (h : e.Mirrors w w') (hw : w.Sound) {v : Walk g}
    (hnext : w.advance = .next v) : ∃ v', e.Mirrors v v' ∧ w'.follow = v'.follow := by
  have hsize : ∀ i k path, w.path = (i, k) :: path → i < g.size := fun i k path hpath =>
    hw.lt_size i (List.mem_append_left _ (by simp [hpath]))
  cases Walk.advance_step hnext with
  | @pass i k j path hpath hj hv =>
    have hj' := getElem?_precedents_place (e := e) (hsize i k path hpath) k
    rw [hj, Option.map_some] at hj'
    have hv' := h.visited j (g.lt_size_of_mem_precedents (List.mem_of_getElem? hj))
    rw [hv] at hv'
    exact ⟨_, h.next i k path, Walk.follow_next (Walk.advance_pass (h.path_cons hpath) hj' hv')⟩
  | @enter i k j path hpath hj hv ha =>
    have hlt := g.lt_size_of_mem_precedents (List.mem_of_getElem? hj)
    have hj' := getElem?_precedents_place (e := e) (hsize i k path hpath) k
    rw [hj, Option.map_some] at hj'
    have hv' := h.visited j hlt
    have ha' := h.active j hlt
    rw [hv] at hv'
    rw [ha] at ha'
    -- the node is entered with the same move, and then passes over what is done
    obtain ⟨v', hmirrors, hfollow⟩ := (h.next i k path).enter hlt
    refine ⟨v', hmirrors, ?_⟩
    rw [← hfollow]
    exact Walk.follow_next (Walk.advance_enter (h.path_cons hpath) hj' hv' ha')
  | @leave i k path hpath hk =>
    have hi := hsize i k path hpath
    have hk' := getElem?_precedents_place (e := e) hi k
    rw [hk, Option.map_none] at hk'
    exact ⟨_, h.leave hi path, Walk.follow_next (Walk.advance_leave (h.path_cons hpath) hk')⟩
  | root hpath hi hv =>
    rw [Walk.advance_nil hpath] at hnext
    cases hnext

/-- A cycle that is met in the smaller graph is met in the larger. -/
theorem Mirrors.advance_cycle (h : e.Mirrors w w') (hw : w.Sound) {nodes : List Nat}
    (hcycle : w.advance = .cycle nodes) : w'.advance = .cycle (nodes.map e.place) := by
  obtain ⟨i, k, j, path, hpath, hj, ha, rfl⟩ := Walk.advance_cycle hcycle
  have hi : i < g.size := hw.lt_size i (List.mem_append_left _ (by simp [hpath]))
  have hlt := g.lt_size_of_mem_precedents (List.mem_of_getElem? hj)
  have hv : w.visited.contains j = false := by
    refine Bool.eq_false_iff.2 fun hv => ?_
    rw [Walk.advance_pass hpath hj hv] at hcycle
    cases hcycle
  have hj' := getElem?_precedents_place (e := e) hi k
  rw [hj, Option.map_some] at hj'
  rw [← h.visited j hlt] at hv
  rw [← h.active j hlt] at ha
  rw [← h.cycleFrom]
  exact Walk.advance_meet (h.path_cons hpath) hj' hv ha

/-- The walk in the larger graph follows the one in the smaller. -/
theorem follow_mirrors (hw : w.Sound) (h : e.Mirrors w w') :
    e.Mirrors w.follow.1 w'.follow.1 ∧ w'.follow.2 = w.follow.2.map (List.map e.place) := by
  fun_induction Walk.follow w generalizing w' with
  | case1 w v hnext _ ih =>
    obtain ⟨v', hmirrors, heq⟩ := h.advance hw hnext
    rw [heq]
    exact ih (hw.step (Walk.advance_step hnext)) hmirrors
  | case2 w hfinished =>
    have hpath' : w'.path = [] := by
      rw [h.path, Walk.advance_finished hfinished]
      rfl
    rw [Walk.follow_finished (Walk.advance_nil hpath')]
    exact ⟨h, rfl⟩
  | case3 w nodes hcycle =>
    rw [Walk.follow_cycle (h.advance_cycle hw hcycle)]
    exact ⟨h, rfl⟩

/-- So does a walk over roots. -/
theorem visit_mirrors (hw : w.Sound) (hpath : w.path = []) (h : e.Mirrors w w') {roots : List Nat}
    (hroots : ∀ i ∈ roots, i < g.size) :
    e.Mirrors (w.visit roots).1 (w'.visit (roots.map e.place)).1 ∧
      (w'.visit (roots.map e.place)).2 = (w.visit roots).2.map (List.map e.place) := by
  induction roots generalizing w w' with
  | nil => exact ⟨h, rfl⟩
  | cons i rest ih =>
    obtain ⟨hi, hrest⟩ := List.forall_mem_cons.1 hroots
    rw [List.map_cons, Walk.visit, Walk.visit, h.visited i hi]
    split
    · exact ih hw hpath h hrest
    · next hv =>
      have hroot : Walk.Step w (w.enter i) := .root hpath hi (Bool.eq_false_iff.2 hv)
      obtain ⟨v', hmirrors, hfollow⟩ := h.enter hi
      obtain ⟨hmirrors, hcycle⟩ := follow_mirrors (hw.step hroot) hmirrors
      obtain ⟨hrun, hend, -⟩ := Walk.follow_run (w.enter i)
      rw [hfollow]
      generalize (w.enter i).follow = result at hmirrors hcycle hrun hend ⊢
      generalize v'.follow = result' at hmirrors hcycle ⊢
      obtain ⟨w, cycle⟩ := result
      obtain ⟨w', cycle'⟩ := result'
      obtain rfl : cycle' = cycle.map (List.map e.place) := hcycle
      cases cycle with
      | none => exact ih (hw.run (.head hroot hrun)) (hend rfl) hmirrors hrest
      | some nodes => exact ⟨hmirrors, rfl⟩

end Embedding

/-! ## Dependencies in two parts -/

section Append

variable {ds es : List Dependencies} {labels : List String}

theorem providers_eq (ds : List Dependencies) (d : Dependencies) (i : Nat) : providers ds d i =
    (ds.zipIdx.filter fun p => p.2 != i && dependsOn d p.1).map Prod.snd := rfl

/-- What a first part requires is provided there, if it is not in the second. -/
theorem providers_append_left {d : Dependencies} (h : ∀ e ∈ es, dependsOn d e = false) (i : Nat) :
    providers (ds ++ es) d i = providers ds d i := by
  have hnone : (es.zipIdx (0 + ds.length)).filter (fun p => p.2 != i && dependsOn d p.1) = [] := by
    refine List.filter_eq_nil_iff.2 fun p hp => ?_
    simp [h p.1 (List.fst_mem_of_mem_zipIdx hp)]
  rw [providers_eq, providers_eq, List.zipIdx_append, List.filter_append, hnone, List.append_nil]

/-- What a second part requires is provided in the first, and then in the second. -/
theorem providers_append_right (ds es : List Dependencies) (d : Dependencies) (i : Nat) :
    providers (ds ++ es) d (ds.length + i) =
      providers ds d (ds.length + i) ++ (providers es d i).map (ds.length + ·) := by
  have hshift : es.zipIdx (0 + ds.length) = es.zipIdx.map (Prod.map id (ds.length + ·)) := by
    rw [Nat.zero_add, List.zipIdx_eq_map_add]
    rfl
  have hkept : (fun p : Dependencies × Nat => p.2 != ds.length + i && dependsOn d p.1) ∘
      Prod.map id (ds.length + ·) = fun p => p.2 != i && dependsOn d p.1 := by
    funext p
    have hne : (ds.length + p.2 != ds.length + i) = (p.2 != i) := by
      rw [Bool.eq_iff_iff]
      simp
    show (ds.length + p.2 != ds.length + i && dependsOn d p.1) = _
    rw [hne]
  rw [providers_eq, providers_eq, providers_eq, List.zipIdx_append, hshift, List.filter_append,
    List.map_append, List.filter_map, hkept, List.map_map, List.map_map]
  rfl

theorem mem_providers_lt {d : Dependencies} {i j : Nat} (h : j ∈ providers ds d i) :
    j < ds.length := by
  obtain ⟨e, he, -⟩ := mem_providers.1 h
  exact (List.getElem?_eq_some_iff.1 he).1

/-- The first part is a graph inside the whole, whatever is done. -/
def embedFirst (labels labels₁ : List String) (done : List Nat)
    (h : ∀ d ∈ ds, ∀ e ∈ es, dependsOn d e = false) :
    Embedding (ofDependencies labels₁ ds) (ofDependencies labels (ds ++ es)) done where
  place i := i
  place_injective h := h
  place_lt hi := by
    rw [size_ofDependencies] at hi ⊢
    rw [List.length_append]
    omega
  before _ := []
  before_subset _ _ hj := by cases hj
  precedents_place {i} hi := by
    rw [size_ofDependencies] at hi
    have hd : ds[i]? = some ds[i] := List.getElem?_eq_getElem hi
    rw [precedents_ofDependencies, precedents_ofDependencies, List.getElem?_append_left hi, hd,
      List.map_id', List.nil_append]
    exact providers_append_left (h _ (List.getElem_mem hi)) i

/-- The second part is a graph inside the whole, after the nodes of the first part. -/
def embedSecond (labels labels₂ : List String) (es : List Dependencies) {done : List Nat}
    (h : ∀ j < ds.length, j ∈ done) :
    Embedding (ofDependencies labels₂ es) (ofDependencies labels (ds ++ es)) done where
  place i := ds.length + i
  place_injective h := Nat.add_left_cancel h
  place_lt hi := by
    rw [size_ofDependencies] at hi ⊢
    rw [List.length_append]
    omega
  before i := (es[i]?.map fun d => providers ds d (ds.length + i)).getD []
  before_subset {i} hi j hj := by
    rw [size_ofDependencies] at hi
    rw [List.getElem?_eq_getElem hi] at hj
    exact h j (mem_providers_lt hj)
  precedents_place {i} hi := by
    rw [size_ofDependencies] at hi
    have hd : es[i]? = some es[i] := List.getElem?_eq_getElem hi
    rw [precedents_ofDependencies, precedents_ofDependencies,
      List.getElem?_append_right (Nat.le_add_right _ _), Nat.add_sub_cancel_left, hd]
    exact providers_append_right ds es es[i] i

/-- The nodes of the first part are visited as if there was no second. -/
theorem visit_first (labels labels₁ : List String)
    (h : ∀ d ∈ ds, ∀ e ∈ es, dependsOn d e = false) :
    ((Walk.start (ofDependencies labels (ds ++ es))).visit (List.range ds.length)).1.order =
        (ofDependencies labels₁ ds).traversal.1.order ∧
      ((Walk.start (ofDependencies labels (ds ++ es))).visit (List.range ds.length)).2 =
        (ofDependencies labels₁ ds).traversal.2 := by
  have hroots : ∀ i ∈ List.range ds.length, i < (ofDependencies labels₁ ds).size := by
    simp [size_ofDependencies]
  obtain ⟨e, hplace⟩ : ∃ e : Embedding (ofDependencies labels₁ ds)
      (ofDependencies labels (ds ++ es)) (Walk.start _).order, e.place = id :=
    ⟨embedFirst labels labels₁ _ h, rfl⟩
  obtain ⟨hmirrors, hcycle⟩ := Embedding.visit_mirrors Walk.sound_start rfl
    (Embedding.mirrors_start Walk.sound_start rfl e fun _ _ => List.not_mem_nil) hroots
  have horder := hmirrors.order
  rw [hplace, List.map_id] at horder hcycle
  rw [traversal, size_ofDependencies, horder, hcycle, List.map_id_fun, Option.map_id]
  exact ⟨List.append_nil _, rfl⟩

/-- The nodes of the second part are visited as if there was no first, once this is
done. -/
theorem visit_second (labels₂ : List String) {w : Walk (ofDependencies labels (ds ++ es))}
    (hw : w.Sound) (hpath : w.path = []) (hdone : ∀ j, j ∈ w.order ↔ j < ds.length) :
    (w.visit ((List.range es.length).map (ds.length + ·))).1.order =
        (ofDependencies labels₂ es).traversal.1.order.map (ds.length + ·) ++ w.order ∧
      (w.visit ((List.range es.length).map (ds.length + ·))).2 =
        (ofDependencies labels₂ es).traversal.2.map (List.map (ds.length + ·)) := by
  have hroots : ∀ i ∈ List.range es.length, i < (ofDependencies labels₂ es).size := by
    simp [size_ofDependencies]
  have hmirrors := Embedding.mirrors_start hw hpath
    (embedSecond labels labels₂ es fun j hj => (hdone j).2 hj) fun i _ hmem => by
      have hlt : ds.length + i < ds.length := (hdone _).1 hmem
      omega
  obtain ⟨hmirrors, hcycle⟩ := Embedding.visit_mirrors Walk.sound_start rfl hmirrors hroots
  rw [traversal, size_ofDependencies]
  exact ⟨hmirrors.order, hcycle⟩

/-- Two parts, the first of which requires nothing of the second, are walked over one after
the other, and the second only if the walk over the first does not fail. -/
theorem walk_append (labels labels₁ labels₂ : List String)
    (h : ∀ d ∈ ds, ∀ e ∈ es, dependsOn d e = false) :
    ((ofDependencies labels₁ ds).walk.2 = none →
      (ofDependencies labels (ds ++ es)).walk.1 = (ofDependencies labels₁ ds).walk.1 ++
          (ofDependencies labels₂ es).walk.1.map (ds.length + ·) ∧
        ((ofDependencies labels (ds ++ es)).walk.2 = none ↔
          (ofDependencies labels₂ es).walk.2 = none)) ∧
    ((ofDependencies labels₁ ds).walk.2 ≠ none →
      (ofDependencies labels (ds ++ es)).walk.1 = (ofDependencies labels₁ ds).walk.1 ∧
        (ofDependencies labels (ds ++ es)).walk.2 ≠ none) := by
  have hroots : ∀ i ∈ List.range ds.length, i < (ofDependencies labels (ds ++ es)).size := by
    intro i hi
    rw [size_ofDependencies, List.length_append]
    have hlt := List.mem_range.1 hi
    omega
  obtain ⟨horder, hcycle⟩ := visit_first labels labels₁ h
  obtain ⟨hrun, hend, -⟩ := Walk.visit_run Walk.sound_start rfl hroots
  have hlt : ∀ j ∈ (ofDependencies labels₁ ds).traversal.1.order, j < ds.length := by
    intro j hj
    rw [← size_ofDependencies labels₁ ds]
    exact (traversal_sound _).lt_size j (List.mem_append_right _ hj)
  -- the roots of the whole are those of the first part and then those of the second
  have htraversal : (ofDependencies labels (ds ++ es)).traversal =
      (Walk.start (ofDependencies labels (ds ++ es))).visit
        (List.range ds.length ++ (List.range es.length).map (ds.length + ·)) := by
    rw [traversal, size_ofDependencies, List.length_append, List.range_add]
  simp only [walk_eq, htraversal, Option.map_eq_none_iff, ne_eq]
  rw [← horder] at hlt
  rw [← horder, ← hcycle]
  refine ⟨fun hnone => ?_, fun hsome => ?_⟩
  · obtain ⟨hpath, hvisited⟩ := hend hnone
    obtain ⟨horder, hcycle⟩ := visit_second labels₂ (Walk.sound_start.run hrun) hpath
      fun j => ⟨hlt j, fun hj => hvisited j (List.mem_range.2 hj)⟩
    rw [Walk.visit_append, if_pos hnone, horder, hcycle, List.reverse_append, List.map_reverse,
      Option.map_eq_none_iff]
    exact ⟨rfl, Iff.rfl⟩
  · rw [Walk.visit_append, if_neg hsome]
    exact ⟨rfl, hsome⟩

end Append

end Graph

end Reckoner
