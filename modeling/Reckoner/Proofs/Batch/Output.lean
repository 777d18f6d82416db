import Mathlib.Data.Finset.Card
import Reckoner.Batch.Json
import Reckoner.Proofs.Batch.Failure
import Reckoner.Proofs.Json.Document

/-!
# What an output holds

An output is an ordered map: whatever is inserted into it, a name stands once, in the place of
its first insertion and with the value of its last one (`BatchOutput.Holds`). It may be kept with
an index, which is asked for the position of a name among the values (`IndexedOutput`): no
position is ever out of bounds, and the lookups are the same (`IndexedOutput.InStep`). A batch
inserts what its named nodes evaluate to, in the order in which it executes them
(`Batch.committed`).
-/

namespace Reckoner

namespace BatchOutput

/-- The names that have a value, in order. -/
def names (o : BatchOutput) : List String :=
  o.values.map Prod.fst

/-- Insertions one after another. -/
def insertAll (o : BatchOutput) (l : List (String × Float)) : BatchOutput :=
  l.foldl (fun o e => o.insert e.1 e.2) o

theorem insertAll_append (o : BatchOutput) (l m : List (String × Float)) :
    o.insertAll (l ++ m) = (o.insertAll l).insertAll m :=
  List.foldl_append

theorem insertAll_concat (o : BatchOutput) (l : List (String × Float)) (name : String) (x : Float) :
    o.insertAll (l ++ [(name, x)]) = (o.insertAll l).insert name x := by
  rw [insertAll_append]
  rfl

/-! ## Names -/

theorem map_fst_put_of_mem {name : String} {l : List (String × Float)} (h : name ∈ l.map Prod.fst)
    (x : Float) : (put name x l).map Prod.fst = l.map Prod.fst := by
  induction l with
  | nil => cases h
  | cons e l ih =>
    obtain ⟨n, y⟩ := e
    rw [put]
    split
    · rfl
    · next hne =>
      rw [List.map_cons, List.map_cons, ih ((List.mem_cons.1 h).resolve_left hne)]

/-- A name that is new comes last, and one that is not stays where it is. -/
theorem names_insert (o : BatchOutput) (name : String) (x : Float) :
    (o.insert name x).names = if name ∈ o.names then o.names else o.names ++ [name] := by
  split
  · next h => exact map_fst_put_of_mem h x
  · next h => rw [names, insert, put_of_notMem h x, List.map_append]; rfl

theorem nodup_names_insert {o : BatchOutput} (h : o.names.Nodup) (name : String) (x : Float) :
    (o.insert name x).names.Nodup := by
  rw [names_insert]
  split
  · exact h
  · next hnew => exact List.concat_eq_append ▸ h.concat hnew

theorem nodup_names_insertAll {o : BatchOutput} (h : o.names.Nodup) (l : List (String × Float)) :
    (o.insertAll l).names.Nodup := by
  induction l generalizing o with
  | nil => exact h
  | cons e l ih => exact ih (nodup_names_insert h e.1 e.2)

theorem nodup_names_insertAll_empty (l : List (String × Float)) :
    (empty.insertAll l).names.Nodup :=
  nodup_names_insertAll (show empty.names.Nodup from List.nodup_nil) l

/-- The names of the insertions, the repeated ones left out. -/
theorem names_insertAll_empty (l : List (String × Float)) :
    (empty.insertAll l).names = (l.map Prod.fst).eraseDups := by
  induction l using List.reverseRecOn with
  | nil => rfl
  | append_singleton l e ih =>
    obtain ⟨name, x⟩ := e
    rw [insertAll_concat, names_insert, ih, List.map_append, List.eraseDups_append]
    by_cases h : name ∈ l.map Prod.fst
    · simp [h, List.removeAll]
    · simp [h, List.removeAll, List.eraseDups_cons]

/-! ## Values -/

/-- A name has the value that was inserted last. -/
theorem get?_insertAll_empty (l : List (String × Float)) (name : String) :
    (empty.insertAll l).get? name = l.reverse.lookup name := by
  induction l using List.reverseRecOn with
  | nil => rfl
  | append_singleton l e ih =>
    obtain ⟨other, x⟩ := e
    rw [insertAll_concat, List.reverse_append, List.reverse_singleton, List.singleton_append,
      List.lookup_cons]
    by_cases h : name = other
    · subst h
      rw [get?_insert_self, beq_self_eq_true]
    · rw [get?_insert_of_ne _ h, ih, beq_false_of_ne h]

theorem lookup_reverse_eq_some_iff {l : List (String × Float)} {name : String} {x : Float} :
    l.reverse.lookup name = some x ↔
      ∃ before after, l = before ++ (name, x) :: after ∧ name ∉ after.map Prod.fst := by
  rw [List.lookup_eq_some_iff]
  constructor
  · rintro ⟨after, before, heq, hafter⟩
    refine ⟨before.reverse, after.reverse, ?_, ?_⟩
    · rw [← List.reverse_reverse l, heq]
      simp
    · rintro hmem
      obtain ⟨e, he, rfl⟩ := List.mem_map.1 hmem
      exact absurd rfl (bne_iff_ne.1 (hafter e (List.mem_reverse.1 he)))
  · rintro ⟨before, after, rfl, hafter⟩
    refine ⟨after.reverse, before.reverse, by simp, fun e he => bne_iff_ne.2 ?_⟩
    rintro rfl
    exact hafter (List.mem_map_of_mem (List.mem_reverse.1 he))

theorem mem_iff_lookup_eq_some {l : List (String × Float)} (h : (l.map Prod.fst).Nodup)
    {name : String} {x : Float} : (name, x) ∈ l ↔ l.lookup name = some x := by
  induction l with
  | nil => simp
  | cons e l ih =>
    obtain ⟨n, y⟩ := e
    obtain ⟨hn, hl⟩ := List.nodup_cons.1 h
    rw [List.mem_cons, Prod.mk.injEq, List.lookup_cons, ih hl]
    by_cases hname : name = n
    · subst hname
      have hnone : l.lookup name ≠ some x := fun hsome =>
        hn (List.mem_map.2 ⟨_, (ih hl).2 hsome, rfl⟩)
      rw [beq_self_eq_true]
      simp [hnone, eq_comm]
    · rw [beq_false_of_ne hname]
      simp [hname]

/-- The value of a name is the one that stands next to it. -/
theorem mem_values_iff {o : BatchOutput} (h : o.names.Nodup) (name : String) (x : Float) :
    (name, x) ∈ o.values ↔ o.get? name = some x :=
  mem_iff_lookup_eq_some h

theorem isSome_get?_iff (o : BatchOutput) (name : String) :
    (o.get? name).isSome ↔ name ∈ o.names := by
  rw [get?, List.lookup_isSome_iff, names, List.mem_map]
  simp only [beq_iff_eq, eq_comm (a := name)]

theorem size_insertAll_empty (l : List (String × Float)) :
    (empty.insertAll l).size = (l.map Prod.fst).toFinset.card := by
  have hnodup := nodup_names_insertAll_empty l
  have hset : (l.map Prod.fst).toFinset = (empty.insertAll l).names.toFinset := by
    ext name
    rw [names_insertAll_empty, List.mem_toFinset, List.mem_toFinset, List.mem_eraseDups]
  rw [hset, List.toFinset_card_of_nodup hnodup, names, List.length_map, size]

/-! ## Text -/

/-- A member of the text of an output. -/
def memberText (e : String × Float) : List Char :=
  Json.Quoted.quote e.1.toList ++ ':' :: (Json.ofFloat e.2).write.toList

/-- The text lists the pairs in order. -/
theorem toList_write_toJson (o : BatchOutput) :
    o.toJson.write.toList = '\x7b' :: [','].intercalate (o.values.map memberText) ++ ['\x7d'] := by
  rw [toJson, Json.toList_write_object, List.map_map]
  rfl

end BatchOutput

/-! ## An index of positions -/

/-- An output with an index: next to the values, the position of each name among them. -/
structure IndexedOutput where
  values : List (String × Float)
  positions : List (String × Nat)

namespace IndexedOutput

/-- The output of no insertion. -/
def empty : IndexedOutput := ⟨[], []⟩

/-- The value at the position of a name, if the name has one. A position out of bounds fails the
lookup. -/
def get? (o : IndexedOutput) (name : String) : Option (Option Float) :=
  match o.positions.lookup name with
  | some i => o.values[i]?.map fun e => some e.2
  | none => some none

/-- The output with a value for a name, at the position of the name or at the end. A position
out of bounds fails the insertion. -/
def insert? (o : IndexedOutput) (name : String) (x : Float) : Option IndexedOutput :=
  match o.positions.lookup name with
  | some i => o.values[i]?.map fun e => { o with values := o.values.set i (e.1, x) }
  | none => some ⟨o.values ++ [(name, x)], (name, o.values.length) :: o.positions⟩

/-- Insertions one after another, as long as none of them fails. -/
def insertAll? (o : IndexedOutput) (l : List (String × Float)) : Option IndexedOutput :=
  l.foldlM (fun o e => o.insert? e.1 e.2) o

/-- The first position of a name. -/
def position? (name : String) (l : List (String × Float)) : Option Nat :=
  l.findIdx? fun e => e.1 == name

/-- The index has the position of every name, and the values are those of an output without an
index. -/
structure InStep (o : IndexedOutput) (plain : BatchOutput) : Prop where
  lookup_positions (name : String) : o.positions.lookup name = position? name o.values
  values_eq : o.values = plain.values

theorem position?_cons (name : String) (e : String × Float) (l : List (String × Float)) :
    position? name (e :: l) =
      if e.1 = name then some 0 else (position? name l).map (· + 1) := by
  simp [position?, List.findIdx?_cons]

theorem position?_concat (name other : String) (x : Float) (l : List (String × Float)) :
    position? name (l ++ [(other, x)]) =
      (position? name l).or (if other = name then some l.length else none) := by
  simp only [position?, List.findIdx?_append, List.findIdx?_singleton, beq_iff_eq]
  split <;> simp

theorem position?_eq_none_iff {name : String} {l : List (String × Float)} :
    position? name l = none ↔ name ∉ l.map Prod.fst := by
  simp only [position?, List.findIdx?_eq_none_iff, beq_eq_false_iff_ne, List.mem_map, not_exists,
    not_and]

/-- What stands at the position of a name is its value. -/
theorem getElem?_of_position? {name : String} {l : List (String × Float)} {i : Nat}
    (h : position? name l = some i) : ∃ x, l[i]? = some (name, x) ∧ l.lookup name = some x := by
  induction l generalizing i with
  | nil => cases h
  | cons e l ih =>
    obtain ⟨n, y⟩ := e
    rw [position?_cons] at h
    split at h
    · next hn =>
      obtain rfl : n = name := hn
      cases h
      exact ⟨y, rfl, List.lookup_cons_self⟩
    · next hn =>
      obtain ⟨j, hj, rfl⟩ := Option.map_eq_some_iff.1 h
      obtain ⟨x, hget, hlookup⟩ := ih hj
      refine ⟨x, hget, ?_⟩
      rw [List.lookup_cons, beq_false_of_ne (Ne.symm hn), hlookup]

theorem put_eq_set {name : String} {l : List (String × Float)} {i : Nat}
    (h : position? name l = some i) (x : Float) :
    BatchOutput.put name x l = l.set i (name, x) := by
  induction l generalizing i with
  | nil => cases h
  | cons e l ih =>
    obtain ⟨n, y⟩ := e
    rw [position?_cons] at h
    split at h
    · next hn =>
      obtain rfl : n = name := hn
      cases h
      rw [BatchOutput.put, if_pos rfl, List.set_cons_zero]
    · next hn =>
      obtain ⟨j, hj, rfl⟩ := Option.map_eq_some_iff.1 h
      rw [BatchOutput.put, if_neg (Ne.symm hn), ih hj, List.set_cons_succ]

theorem position?_set {name : String} {l : List (String × Float)} {i : Nat}
    (h : position? name l = some i) (x : Float) (other : String) :
    position? other (l.set i (name, x)) = position? other l := by
  induction l generalizing i with
  | nil => cases h
  | cons e l ih =>
    rw [position?_cons] at h
    split at h
    · next hn =>
      cases h
      rw [List.set_cons_zero, position?_cons, position?_cons, hn]
    · obtain ⟨j, hj, rfl⟩ := Option.map_eq_some_iff.1 h
      rw [List.set_cons_succ, position?_cons, position?_cons, ih hj]

variable {o : IndexedOutput} {plain : BatchOutput}

theorem inStep_empty : empty.InStep .empty :=
  ⟨fun _ => rfl, rfl⟩

theorem InStep.get?_eq (h : o.InStep plain) (name : String) :
    o.get? name = some (plain.get? name) := by
  unfold get?
  rw [h.lookup_positions, BatchOutput.get?, ← h.values_eq]
  cases hposition : position? name o.values with
  | none =>
    have hlookup : o.values.lookup name = none := by
      rw [List.lookup_eq_none_iff]
      rintro e he
      refine bne_iff_ne.2 ?_
      rintro rfl
      exact position?_eq_none_iff.1 hposition (List.mem_map_of_mem he)
    rw [hlookup]
  | some i =>
    obtain ⟨x, hget, hlookup⟩ := getElem?_of_position? hposition
    simp only [hget, hlookup, Option.map_some]

/-- An insertion finds the position of the name in bounds, and the index stays in step. -/
theorem InStep.insert? (h : o.InStep plain) (name : String) (x : Float) :
    ∃ o', o.insert? name x = some o' ∧ o'.InStep (plain.insert name x) := by
  unfold IndexedOutput.insert?
  rw [h.lookup_positions]
  cases hposition : position? name o.values with
  | none =>
    have hput := BatchOutput.put_of_notMem (position?_eq_none_iff.1 hposition) x
    refine ⟨_, rfl, fun other => ?_, ?_⟩
    · show List.lookup other ((name, o.values.length) :: o.positions) =
        position? other (o.values ++ [(name, x)])
      rw [List.lookup_cons, position?_concat, h.lookup_positions]
      by_cases hother : other = name
      · subst hother
        simp [hposition]
      · rw [beq_false_of_ne hother, if_neg (Ne.symm hother), Option.or_none]
    · rw [BatchOutput.insert, ← h.values_eq, hput]
  | some i =>
    obtain ⟨y, hget, -⟩ := getElem?_of_position? hposition
    simp only [hget, Option.map_some]
    refine ⟨_, rfl, fun other => ?_, ?_⟩
    · rw [h.lookup_positions, position?_set hposition]
    · rw [BatchOutput.insert, ← h.values_eq, put_eq_set hposition]

/-- However often names are repeated, no insertion fails. -/
theorem InStep.insertAll? (h : o.InStep plain) (l : List (String × Float)) :
    ∃ o', o.insertAll? l = some o' ∧ o'.InStep (plain.insertAll l) := by
  induction l generalizing o plain with
  | nil => exact ⟨o, rfl, h⟩
  | cons e l ih =>
    obtain ⟨next, hnext, hstep⟩ := h.insert? e.1 e.2
    obtain ⟨o', hrest, hfinal⟩ := ih hstep
    refine ⟨o', ?_, hfinal⟩
    rw [IndexedOutput.insertAll?, List.foldlM_cons, hnext]
    exact hrest

end IndexedOutput

namespace BatchOutput

/-- What an output holds after these insertions, from none on. -/
structure Holds (o : BatchOutput) (l : List (String × Float)) : Prop where
  nodup_names : o.names.Nodup
  /-- Names stand in the order of first insertion. -/
  names_eq : o.names = (l.map Prod.fst).eraseDups
  /-- A name has the value that was inserted last under it. -/
  get?_eq_some_iff (name : String) (x : Float) : o.get? name = some x ↔
    ∃ before after, l = before ++ (name, x) :: after ∧ name ∉ after.map Prod.fst
  isSome_get?_iff (name : String) : (o.get? name).isSome ↔ name ∈ l.map Prod.fst
  /-- The pairs listed are the names with their values. -/
  mem_values_iff (name : String) (x : Float) : (name, x) ∈ o.values ↔ o.get? name = some x
  size_eq : o.size = (l.map Prod.fst).toFinset.card
  /-- The text lists the same pairs in the same order. -/
  toList_write_toJson :
    o.toJson.write.toList = '\x7b' :: [','].intercalate (o.values.map memberText) ++ ['\x7d']
  /-- With an index, the same insertions never fail, and no lookup after them does. -/
  indexed : ∃ indexed, IndexedOutput.empty.insertAll? l = some indexed ∧
    indexed.values = o.values ∧ ∀ name, indexed.get? name = some (o.get? name)

theorem holds_insertAll_empty (l : List (String × Float)) : (empty.insertAll l).Holds l where
  nodup_names := nodup_names_insertAll_empty l
  names_eq := names_insertAll_empty l
  get?_eq_some_iff name x := by rw [get?_insertAll_empty, lookup_reverse_eq_some_iff]
  isSome_get?_iff name := by
    rw [BatchOutput.isSome_get?_iff, names_insertAll_empty, List.mem_eraseDups]
  mem_values_iff := BatchOutput.mem_values_iff (nodup_names_insertAll_empty l)
  size_eq := size_insertAll_empty l
  toList_write_toJson := BatchOutput.toList_write_toJson _
  indexed := by
    obtain ⟨indexed, hinsert, hstep⟩ := IndexedOutput.inStep_empty.insertAll? l
    exact ⟨indexed, hinsert, hstep.values_eq, hstep.get?_eq⟩

/-- The second value of a name takes the place of the first. -/
example (x y z : Float) : (empty.insertAll [("fee", x), ("tax", y), ("fee", z)]).values =
    [("fee", z), ("tax", y)] :=
  rfl

/-- Only the values count. -/
theorem Holds.congr {o o' : BatchOutput} {l : List (String × Float)} (h : o.Holds l)
    (hvalues : o'.values = o.values) : o'.Holds l := by
  obtain ⟨values, evaluated⟩ := o'
  obtain rfl : values = o.values := hvalues
  exact ⟨h.nodup_names, h.names_eq, h.get?_eq_some_iff, h.isSome_get?_iff, h.mem_values_iff,
    h.size_eq, h.toList_write_toJson, h.indexed⟩

end BatchOutput

/-! ## What a batch commits -/

namespace Batch

variable {scope : Scope} {nodes : List Node}

/-- The values that these nodes commit, one after another: a node with a name commits what its
expression evaluates to. -/
def committed (scope : Scope) (nodes : List Node) : List Nat → State → List (String × Float)
  | [], _ => []
  | i :: rest, state =>
    match nodes[i]? with
    | some node =>
      let x := (Reckoner.evaluate (text scope state.output node) state.registers).1
      (node.name.map (·, x)).toList ++ committed scope nodes rest (step scope state node)
    | none => committed scope nodes rest state

theorem committed_cons {i : Nat} {node : Node} (hi : nodes[i]? = some node) (rest : List Nat)
    (state : State) : committed scope nodes (i :: rest) state =
      (node.name.map (·, (Reckoner.evaluate (text scope state.output node) state.registers).1)).toList
        ++ committed scope nodes rest (step scope state node) := by
  simp only [committed, hi]

theorem committed_cons_none {i : Nat} (hi : nodes[i]? = none) (rest : List Nat) (state : State) :
    committed scope nodes (i :: rest) state = committed scope nodes rest state := by
  simp only [committed, hi]

theorem values_record (o : BatchOutput) (name : Option String) (x : Float) :
    (o.record name x).values = (o.insertAll (name.map (·, x)).toList).values := by
  cases name <;> rfl

theorem values_insertAll_congr {o o' : BatchOutput} (h : o.values = o'.values)
    (l : List (String × Float)) : (o.insertAll l).values = (o'.insertAll l).values := by
  induction l generalizing o o' with
  | nil => exact h
  | cons e l ih => exact ih (congrArg (BatchOutput.put e.1 e.2) h)

/-- Running nodes inserts what they commit. -/
theorem values_steps (order : List Nat) (state : State) :
    (steps scope nodes order state).output.values =
      (state.output.insertAll (committed scope nodes order state)).values := by
  induction order generalizing state with
  | nil => rfl
  | cons i rest ih =>
    cases hi : nodes[i]? with
    | none => rw [steps_cons_none hi, committed_cons_none hi, ih]
    | some node =>
      rw [steps_cons hi, committed_cons hi, ih, BatchOutput.insertAll_append]
      exact values_insertAll_congr (values_record _ _ _) _

/-- The named nodes among those that are executed commit, in their order. -/
theorem map_fst_committed (order : List Nat) (state : State) :
    (committed scope nodes order state).map Prod.fst =
      (executed scope nodes order state).filterMap fun e => nodes[e.1]?.bind Node.name := by
  induction order generalizing state with
  | nil => rfl
  | cons i rest ih =>
    cases hi : nodes[i]? with
    | none => rw [committed_cons_none hi, executed_cons_none hi, ih]
    | some node =>
      rw [committed_cons hi, executed_cons hi, List.map_append, ih]
      cases hname : node.name with
      | none => simp [hi, hname]
      | some name => simp [hi, hname]

theorem map_fst_executed {order : List Nat} (h : ∀ i ∈ order, i < nodes.length) (state : State) :
    (executed scope nodes order state).map Prod.fst = order := by
  induction order generalizing state with
  | nil => rfl
  | cons i rest ih =>
    obtain ⟨hlt, hrest⟩ := List.forall_mem_cons.1 h
    rw [executed_cons (List.getElem?_eq_getElem hlt), List.map_cons, ih hrest]

/-- An output holds what is inserted into it, whatever that is. A batch begun on a new output
has executed the nodes of its walk, whether it fails or not; it has inserted what the named ones
evaluate to, so their names stand in the order of execution, and has counted all of them. -/
theorem holds_committed :
    (∀ l : List (String × Float), (BatchOutput.empty.insertAll l).Holds l) ∧
      ∀ (scope : Scope) (nodes : List Node) (r : Registers),
        let order := (graph nodes).walk.1
        let ran := executed scope nodes order ⟨r, .empty⟩
        let o := (evaluateInto scope nodes ⟨r, .empty⟩).1.output
        ran.map Prod.fst = order ∧
          o.Holds (committed scope nodes order ⟨r, .empty⟩) ∧
          o.names = (ran.filterMap fun e => nodes[e.1]?.bind Node.name).eraseDups ∧
          o.evaluated = ran.length := by
  refine ⟨BatchOutput.holds_insertAll_empty, ?_⟩
  intro scope nodes r order ran o
  have hran : ran.map Prod.fst = order := map_fst_executed (fun _ => lt_length_of_mem_walk) _
  have hholds : o.Holds (committed scope nodes order ⟨r, .empty⟩) :=
    (BatchOutput.holds_insertAll_empty _).congr (values_steps order ⟨r, .empty⟩)
  have hevaluated : o.evaluated = 0 + order.length :=
    (runs_evaluateInto scope nodes ⟨r, .empty⟩).evaluated
  refine ⟨hran, hholds, ?_, ?_⟩
  · rw [hholds.names_eq, map_fst_committed]
  · rw [hevaluated, ← hran, List.length_map, Nat.zero_add]

end Batch

end Reckoner
