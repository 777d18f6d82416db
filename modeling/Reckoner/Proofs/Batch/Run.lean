import Reckoner.Proofs.Dependency.Values
import Reckoner.Proofs.Graph.Walk
import Reckoner.Proofs.Reference.Substitution
import Reckoner.Batch.Basic

/-!
# Running a batch

What the nodes of a batch have executed (`Batch.executed`), in the order of the
walk, and what each of them sees of the others:

* `registers_steps`: the registers in the end are those of the executed
  expressions, one after another;
* `get?_steps`: a node changes the value of its own name only;
* `executed_iff_final_text`: a node executes the expression that it would execute
  with the final values in place, and the machine is given these expressions.
-/

namespace Reckoner

namespace Batch

variable {nodes : List Node}

/-- How the graph of closed nodes is computed. -/
theorem graph_eq_byAsking (nodes : List Node) : graph nodes =
    Graph.byAsking (nodes.zipIdx.map fun (node, index) => node.label index)
      (nodes.map Node.dependencies) := by
  rw [graph, Graph.ofDependencies_eq_byAsking]

/-- A node that refers to the value of another one depends on it. -/
theorem edge_of_reference {i j : Nat} {node other : Node} {name : String}
    (hi : nodes[i]? = some node) (hj : nodes[j]? = some other) (hne : j ≠ i)
    (href : name ∈ referenceNames node.expression) (hname : other.name = some name) :
    (graph nodes).Edge i j := by
  refine Graph.mem_precedents_ofDependencies.2
    ⟨node.dependencies, other.dependencies, by simp [hi], by simp [hj], hne, ?_⟩
  rw [Graph.dependsOn, List.any_eq_true]
  exact ⟨_, Dependencies.value_mem_requires.2 href,
    List.contains_iff_mem.2 (Dependencies.value_mem_provides.2 hname)⟩

/-- The nodes with these positions, with the expressions that they execute one
after another. -/
def executed (scope : Scope) (nodes : List Node) : List Nat → State → List (Nat × String)
  | [], _ => []
  | i :: rest, state =>
    match nodes[i]? with
    | some node =>
      (i, text scope state.output node) :: executed scope nodes rest (step scope state node)
    | none => executed scope nodes rest state

variable {scope : Scope}

theorem steps_cons {i : Nat} {node : Node} (hi : nodes[i]? = some node) (rest : List Nat)
    (state : State) :
    steps scope nodes (i :: rest) state = steps scope nodes rest (step scope state node) := by
  simp [steps, hi]

theorem steps_cons_none {i : Nat} (hi : nodes[i]? = none) (rest : List Nat) (state : State) :
    steps scope nodes (i :: rest) state = steps scope nodes rest state := by
  simp [steps, hi]

theorem steps_append (before after : List Nat) (state : State) :
    steps scope nodes (before ++ after) state =
      steps scope nodes after (steps scope nodes before state) := by
  simp [steps]

theorem executed_cons {i : Nat} {node : Node} (hi : nodes[i]? = some node) (rest : List Nat)
    (state : State) :
    executed scope nodes (i :: rest) state =
      (i, text scope state.output node) :: executed scope nodes rest (step scope state node) := by
  simp only [executed, hi]

theorem executed_cons_none {i : Nat} (hi : nodes[i]? = none) (rest : List Nat) (state : State) :
    executed scope nodes (i :: rest) state = executed scope nodes rest state := by
  simp only [executed, hi]

/-- What has been executed is what the registers come from. -/
theorem registers_steps (order : List Nat) (state : State) :
    (steps scope nodes order state).registers =
      (executed scope nodes order state).foldl (fun r e => (Reckoner.evaluate e.2 r).2)
        state.registers := by
  induction order generalizing state with
  | nil => rfl
  | cons i rest ih =>
    cases hi : nodes[i]? with
    | none => rw [steps_cons_none hi, executed_cons_none hi, ih]
    | some node => rw [steps_cons hi, executed_cons hi, ih]; rfl

theorem executed_append (before after : List Nat) (state : State) :
    executed scope nodes (before ++ after) state =
      executed scope nodes before state ++
        executed scope nodes after (steps scope nodes before state) := by
  induction before generalizing state with
  | nil => rfl
  | cons i rest ih =>
    rw [List.cons_append]
    cases hi : nodes[i]? with
    | none => rw [executed_cons_none hi, executed_cons_none hi, steps_cons_none hi, ih]
    | some node =>
      rw [executed_cons hi, executed_cons hi, steps_cons hi, List.cons_append, ih]

theorem mem_of_mem_executed {order : List Nat} {state : State} {i : Nat} {t : String}
    (h : (i, t) ∈ executed scope nodes order state) : i ∈ order := by
  induction order generalizing state with
  | nil => cases h
  | cons j rest ih =>
    cases hj : nodes[j]? with
    | none => exact List.mem_cons_of_mem _ (ih (executed_cons_none hj _ _ ▸ h))
    | some node =>
      rw [executed_cons hj, List.mem_cons, Prod.mk.injEq] at h
      rcases h with ⟨rfl, -⟩ | h
      · exact List.mem_cons_self
      · exact List.mem_cons_of_mem _ (ih h)

theorem get?_record_of_ne {o : BatchOutput} {name : Option String} {other : String}
    (h : name ≠ some other) (x : Float) : (o.record name x).get? other = o.get? other := by
  cases name with
  | none => rfl
  | some name => exact BatchOutput.get?_insert_of_ne _ (fun he => h (by rw [he])) x

/-- Nodes commit to their own names only. -/
theorem get?_steps {order : List Nat} {name : String}
    (h : ∀ i ∈ order, ∀ node, nodes[i]? = some node → node.name ≠ some name) (state : State) :
    (steps scope nodes order state).output.get? name = state.output.get? name := by
  induction order generalizing state with
  | nil => rfl
  | cons i rest ih =>
    have hrest := fun j hj => h j (List.mem_cons_of_mem _ hj)
    cases hi : nodes[i]? with
    | none => rw [steps_cons_none hi, ih hrest]
    | some node =>
      rw [steps_cons hi, ih hrest]
      exact get?_record_of_ne (h i List.mem_cons_self node hi) _

/-- Only the values that a node refers to count for the expression that it
executes. -/
theorem text_congr {node : Node} {o o' : BatchOutput}
    (h : ∀ name ∈ referenceNames node.expression, o.get? name = o'.get? name) :
    text scope o node = text scope o' node := by
  simp only [text, substitute_overlay_congr scope.inner h]

/-- A batch whose walk ends runs its nodes in the order of the walk. -/
theorem evaluate_of_walk {order : List Nat} (h : (graph nodes).walk = (order, none))
    (r : Registers) : evaluate scope nodes r =
      (.ok (steps scope nodes order ⟨r, .empty⟩).output,
        (steps scope nodes order ⟨r, .empty⟩).registers) := by
  rw [evaluate, evaluateInto, h]

/-- A batch that succeeds has run all of its nodes in an order of the walk. -/
theorem evaluate_eq_ok {r : Registers} {o : BatchOutput} (h : (evaluate scope nodes r).1 = .ok o) :
    ∃ order, (graph nodes).walk = (order, none) ∧
      o = (steps scope nodes order ⟨r, .empty⟩).output := by
  unfold evaluate evaluateInto at h
  match hwalk : (graph nodes).walk with
  | (order, none) =>
    rw [hwalk] at h
    exact ⟨order, rfl, (Except.ok.inj h).symm⟩
  | (order, some failure) =>
    rw [hwalk] at h
    cases h

/-- From its turn on, no node commits to a name that a node refers to, if it does not refer to its
own. -/
theorem name_ne_of_mem_rest {before after : List Nat} {i : Nat} {node : Node}
    (hwalk : (graph nodes).walk = (before ++ i :: after, none)) (hi : nodes[i]? = some node)
    (hself : ∀ name, node.name = some name → name ∉ referenceNames node.expression) :
    ∀ name ∈ referenceNames node.expression, ∀ j ∈ i :: after, ∀ other,
      nodes[j]? = some other → other.name ≠ some name := by
  obtain ⟨hperm, hclosed⟩ := Graph.walk_complete _ hwalk
  obtain ⟨-, -, hdisjoint⟩ := List.nodup_append.1 (hperm.nodup_iff.2 List.nodup_range)
  intro name href j hj other hother hname
  by_cases hji : j = i
  · subst hji
    cases hi.symm.trans hother
    exact hself name hname href
  · have hedge := edge_of_reference hi hother hji href hname
    rw [List.reverse_append, List.reverse_cons, List.append_assoc] at hclosed
    exact hdisjoint j (List.mem_reverse.1 (hclosed.mem_of_append hedge)) j hj rfl

/-- In a batch that succeeds, the machine evaluates the executed expressions one after another,
and a node that does not refer to its own value executes one of them: its own with the final
values in place of its references. -/
theorem executed_iff_final_text (scope : Scope) {r : Registers} {o : BatchOutput}
    (h : (evaluate scope nodes r).1 = .ok o) {i : Nat} {node : Node} (hi : nodes[i]? = some node)
    (hself : ∀ name, node.name = some name → name ∉ referenceNames node.expression) :
    (evaluate scope nodes r).2 = (executed scope nodes (graph nodes).walk.1 ⟨r, .empty⟩).foldl
        (fun r e => (Reckoner.evaluate e.2 r).2) r ∧
      ∀ t, (i, t) ∈ executed scope nodes (graph nodes).walk.1 ⟨r, .empty⟩ ↔
        t = text scope o node := by
  obtain ⟨order, hwalk, rfl⟩ := evaluate_eq_ok h
  refine ⟨by rw [evaluate_of_walk hwalk, registers_steps, hwalk], fun t => ?_⟩
  have hperm := (Graph.walk_complete _ hwalk).1
  have hmem : i ∈ order := by
    refine hperm.mem_iff.2 (List.mem_range.2 ?_)
    obtain ⟨hlt, -⟩ := List.getElem?_eq_some_iff.1 hi
    simpa [graph, Graph.size_ofDependencies] using hlt
  obtain ⟨before, after, rfl⟩ := List.append_of_mem hmem
  obtain ⟨-, hafter, hdisjoint⟩ := List.nodup_append.1 (hperm.nodup_iff.2 List.nodup_range)
  have hbefore : i ∉ before := fun hb => hdisjoint i hb i List.mem_cons_self rfl
  have htext : text scope (steps scope nodes before ⟨r, .empty⟩).output node =
      text scope (steps scope nodes (before ++ i :: after) ⟨r, .empty⟩).output node := by
    refine text_congr fun name href => ?_
    rw [steps_append, get?_steps (name_ne_of_mem_rest hwalk hi hself name href)]
  rw [hwalk, executed_append, executed_cons hi, List.mem_append, List.mem_cons, Prod.mk.injEq,
    htext]
  constructor
  · rintro (hb | ⟨-, ht⟩ | ha)
    · exact absurd (mem_of_mem_executed hb) hbefore
    · exact ht
    · exact absurd (mem_of_mem_executed ha) (List.nodup_cons.1 hafter).1
  · exact fun ht => .inr (.inl ⟨rfl, ht⟩)

/-- A batch whose first node depends on its second. -/
def sheet : List Node := [⟨some "total", "$net 1 +"⟩, ⟨some "net", "2"⟩]

theorem evaluate_sheet : (evaluate ⟨.empty, none⟩ sheet Registers.new).1 =
    .ok ⟨[("net", Number.ofNat 2), ("total", Number.ofNat 3)], 2⟩ := by
  have hwalk : (graph sheet).walk = ([1, 0], none) := by decide +kernel
  unfold evaluate evaluateInto
  rw [hwalk]
  exact congrArg Except.ok (by decide +kernel)

/-- The first node is run last, on the value of the second. -/
theorem executed_sheet :
    (0, "2 1 +") ∈ executed ⟨.empty, none⟩ sheet (graph sheet).walk.1 ⟨Registers.new, .empty⟩ :=
  ((executed_iff_final_text _ evaluate_sheet (i := 0) rfl (by decide)).2 _).2 (by decide +kernel)

end Batch

end Reckoner
