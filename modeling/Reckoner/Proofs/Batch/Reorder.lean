import Reckoner.Proofs.Batch.Order
import Reckoner.Proofs.Dependency.Scan
import Reckoner.Proofs.Reference.Expansion

/-!
# Reordering a batch

What a node of a well-formed batch touches is what the dependency scan finds in its
expression, whatever its references are replaced by (`Node.WellFormed.footprint`). So
two nodes that do not depend on each other can change places (`Batch.step_comm`), and
a batch comes to the same in every order of its nodes (`Batch.evaluate_perm`).
-/

namespace Reckoner

open Program (Tidy LoadsNoReserved Expansion)
open Registers (isReserved)

namespace Node

/-- A node whose references stand alone, and whose expression says in words without a
reference which registers it uses, and loads none of the machine's. -/
structure WellFormed (node : Node) : Prop where
  separate : Reference.Separate (Text.words node.expression)
  tidy : Tidy (fun token => '$' ∉ token.toList) (Text.words node.expression)
  loadsNoReserved : LoadsNoReserved (Text.words node.expression)

instance (node : Node) : Decidable node.WellFormed :=
  decidable_of_iff (_ ∧ _ ∧ _) ⟨fun h => ⟨h.1, h.2.1, h.2.2⟩, fun h => ⟨h.1, h.2, h.3⟩⟩

variable {node : Node}

/-- The words that a node executes are an expansion of its own. -/
theorem exists_expansion (h : Reference.Separate (Text.words node.expression))
    (scope : Batch.Scope) (output : BatchOutput) :
    ∃ f, Expansion (fun token => '$' ∉ token.toList) f ∧
      Text.words (Batch.text scope output node) = (Text.words node.expression).flatMap f := by
  have hinner := h.words_substitute (scope.inner.overlay output.get?)
  unfold Batch.text
  cases scope.outer with
  | none => exact ⟨_, Reference.expansion_expand _, hinner⟩
  | some source =>
    refine ⟨_, (Reference.expansion_expand (scope.inner.overlay output.get?)).comp
      (Reference.expansion_expand source), ?_⟩
    have hseparate := h.expand (scope.inner.overlay output.get?)
    rw [← hinner] at hseparate
    rw [hseparate.words_substitute, hinner, List.flatMap_assoc]

/-- A node touches what the scan finds in its own expression, besides the machine's
registers, which it only writes. -/
theorem WellFormed.footprint (h : node.WellFormed) (scope : Batch.Scope) (output : BatchOutput) :
    Footprint
      (fun name => .register name ∈ node.dependencies.requires ∧ isReserved name = false)
      (fun name => .register name ∈ node.dependencies.provides ∨ isReserved name = true)
      (evaluate (Batch.text scope output node)) := by
  obtain ⟨f, hf, hwords⟩ := exists_expansion h.separate scope output
  have htidy : Tidy (fun _ => True) (Text.words (Batch.text scope output node)) :=
    hwords ▸ h.tidy.flatMap hf
  refine htidy.run_footprint (fun w => Text.isWord_of_mem_words) (fun name hname => ?_)
    (fun name hname => ?_) []
  · rw [hwords] at hname
    have hreads := hname.of_flatMap h.tidy hf
    have hreserved := h.loadsNoReserved.not_isReserved hreads
    exact ⟨Dependencies.mem_requires h.tidy _ hreads hreserved, hreserved⟩
  · cases hreserved : isReserved name with
    | true => exact .inr rfl
    | false =>
      rw [hreserved, hwords] at hname
      exact .inl (Dependencies.mem_provides _
        ((hname.resolve_right nofun).of_flatMap h.tidy hf) hreserved)

end Node

namespace Batch

variable {scope : Scope} {nodes : List Node}

/-- States with the same values and the same in all registers but the machine's. -/
structure State.Alike (s t : State) : Prop where
  registers : ∀ name, isReserved name = false → s.registers.get? name = t.registers.get? name
  output : ∀ name, s.output.get? name = t.output.get? name

theorem State.alike_equivalence : Equivalence State.Alike where
  refl _ := ⟨fun _ _ => rfl, fun _ => rfl⟩
  symm h := ⟨fun name hname => (h.registers name hname).symm, fun name => (h.output name).symm⟩
  trans h h' := ⟨fun name hname => (h.registers name hname).trans (h'.registers name hname),
    fun name => (h.output name).trans (h'.output name)⟩

theorem get?_record (o : BatchOutput) (name : Option String) (x : Float) (other : String) :
    (o.record name x).get? other = if name = some other then some x else o.get? other := by
  split
  · next h =>
    rw [h]
    exact BatchOutput.get?_insert_self _ _ _
  · next h => exact get?_record_of_ne h x

theorem registers_step (s : State) (a : Node) : (step scope s a).registers =
    (Reckoner.evaluate (text scope s.output a) s.registers).2 := rfl

theorem output_step (s : State) (a : Node) : (step scope s a).output =
    s.output.record a.name (Reckoner.evaluate (text scope s.output a) s.registers).1 := rfl

theorem step_congr {a : Node} (ha : a.WellFormed) {s t : State} (h : s.Alike t) :
    (step scope s a).Alike (step scope t a) := by
  have htext : text scope s.output a = text scope t.output a :=
    text_congr fun name _ => h.output name
  have hfoot := ha.footprint scope t.output
  have hresult := hfoot.result_eq fun name hname => h.registers name hname.2
  refine ⟨fun name hname => ?_, fun name => ?_⟩
  · simp only [step, htext]
    exact hfoot.get?_congr (fun name hname => h.registers name hname.2) (h.registers name hname)
  · simp only [step, htext, get?_record, hresult, h.output]

theorem notMem_provides {d e : Dependencies} (h : Graph.dependsOn d e = false) {s : Symbol}
    (hs : s ∈ d.requires) : s ∉ e.provides := by
  intro he
  have hdepends : Graph.dependsOn d e = true :=
    List.any_eq_true.2 ⟨s, hs, List.contains_iff_mem.2 he⟩
  rw [h] at hdepends
  cases hdepends

/-- A node reads nothing that another one writes unless it depends on it. -/
theorem not_reads_of_writes {a b : Node}
    (h : Graph.dependsOn b.dependencies a.dependencies = false) (name : String)
    (hwrites : .register name ∈ a.dependencies.provides ∨ isReserved name = true) :
    ¬(.register name ∈ b.dependencies.requires ∧ isReserved name = false) := by
  rintro ⟨hrequires, hown⟩
  rcases hwrites with hprovides | hmachine
  · exact notMem_provides h hrequires hprovides
  · rw [hown] at hmachine
    cases hmachine

/-- A node executes the same before and after one that it does not depend on. -/
theorem text_step {a b : Node} (h : Graph.dependsOn a.dependencies b.dependencies = false)
    (s : State) : text scope (step scope s b).output a = text scope s.output a := by
  refine text_congr fun name hname => get?_record_of_ne (fun hb => ?_) _
  exact notMem_provides h (Dependencies.value_mem_requires.2 hname)
    (Dependencies.value_mem_provides.2 hb)

/-- Two nodes that do not depend on each other can change places. -/
theorem step_comm {a b : Node} (ha : a.WellFormed) (hb : b.WellFormed)
    (hab : Graph.dependsOn a.dependencies b.dependencies = false)
    (hba : Graph.dependsOn b.dependencies a.dependencies = false)
    (hdisjoint : a.dependencies.provides.Disjoint b.dependencies.provides) (s : State) :
    (step scope (step scope s b) a).Alike (step scope (step scope s a) b) := by
  have hf := ha.footprint scope s.output
  have hg := hb.footprint scope s.output
  obtain ⟨hresultb, hresulta, hregisters⟩ := hf.comm hg (not_reads_of_writes hba)
    (not_reads_of_writes hab) s.registers
  refine ⟨fun name hname => ?_, fun name => ?_⟩
  · rw [registers_step (step scope s b), registers_step (step scope s a), text_step hab,
      text_step hba]
    refine (hregisters name ?_).symm
    rintro ⟨hwrites, hwrites'⟩
    rw [hname] at hwrites hwrites'
    exact hdisjoint (hwrites.resolve_right nofun) (hwrites'.resolve_right nofun)
  · rw [output_step (step scope s b), output_step (step scope s a), text_step hab, text_step hba,
      registers_step s, registers_step s, hresulta, hresultb, output_step s, output_step s]
    simp only [get?_record]
    by_cases hname : a.name = some name
    · have hother : b.name ≠ some name := fun h =>
        hdisjoint (Dependencies.value_mem_provides.2 hname) (Dependencies.value_mem_provides.2 h)
      rw [if_pos hname, if_neg hother, if_pos hname]
    · rw [if_neg hname, if_neg hname]

/-! ## Whole batches -/

/-- Good orders of the same nodes come to the same. -/
theorem steps_perm {l l' : List Node} (hperm : l.Perm l') (hl : Ordered l) (hl' : Ordered l')
    (hsingle : SingleWriter l) (hwf : ∀ node ∈ l, node.WellFormed) (s : State) :
    (l.foldl (step scope) s).Alike (l'.foldl (step scope) s) := by
  refine foldl_perm_of_comm State.alike_equivalence hperm (List.Pairwise.and hl hsingle)
    (List.Pairwise.and hl' (hsingle.perm hperm)) (fun a ha _ _ => step_congr (hwf a ha)) ?_ s
  exact fun a ha b hb hab hba => step_comm (hwf a ha) (hwf b hb) hab.1 hba.1 hab.2

/-- A batch whose nodes can be brought into the order of one that succeeds succeeds. -/
theorem exists_ok_of_perm {nodes' : List Node} (hperm : nodes.Perm nodes')
    (hsingle : SingleWriter nodes') {r r' : Registers} {o : BatchOutput}
    (h : (evaluate scope nodes r).1 = .ok o) : ∃ o', (evaluate scope nodes' r').1 = .ok o' := by
  obtain ⟨order, hwalk, -⟩ := evaluate_eq_ok h
  obtain ⟨hran, hordered⟩ := ordered_of_walk hwalk
  obtain ⟨order', hwalk'⟩ := exists_walk_of_ordered (hran.trans hperm) hordered hsingle
  exact ⟨_, congrArg Prod.fst (evaluate_of_walk hwalk' r')⟩

/-- Nodes with different names that provide no common register provide nothing in
common. -/
theorem singleWriter_of_nodup (hnames : (nodes.filterMap Node.name).Nodup)
    (hregisters : nodes.Pairwise fun a b => ∀ name,
      .register name ∈ a.dependencies.provides → .register name ∉ b.dependencies.provides) :
    SingleWriter nodes := by
  refine ((List.pairwise_filterMap.1 hnames).and hregisters).imp ?_
  rintro a b ⟨hname, hregister⟩ symbol ha hb
  cases symbol with
  | register name => exact hregister name ha hb
  | value name =>
    exact hname name (Dependencies.value_mem_provides.1 ha) name
      (Dependencies.value_mem_provides.1 hb) rfl

/-- A batch of well-formed nodes with different names, each register provided by one
of them at most, comes to the same in every order of its nodes: it succeeds in all
or in none, and commits the same values and leaves the same in all registers but the
machine's. -/
theorem evaluate_perm {nodes' : List Node} (hperm : nodes.Perm nodes')
    (hwf : ∀ node ∈ nodes, node.WellFormed) (hnames : (nodes.filterMap Node.name).Nodup)
    (hregisters : nodes.Pairwise fun a b => ∀ name,
      .register name ∈ a.dependencies.provides → .register name ∉ b.dependencies.provides)
    (scope : Scope) (r : Registers) :
    ((∃ o, (evaluate scope nodes r).1 = .ok o) ↔ ∃ o, (evaluate scope nodes' r).1 = .ok o) ∧
      ∀ o o', (evaluate scope nodes r).1 = .ok o → (evaluate scope nodes' r).1 = .ok o' →
        (∀ name, o.get? name = o'.get? name) ∧
          ∀ name, isReserved name = false → (evaluate scope nodes r).2.get? name =
            (evaluate scope nodes' r).2.get? name := by
  have hsingle := singleWriter_of_nodup hnames hregisters
  have hsingle' : SingleWriter nodes' := hsingle.perm hperm
  refine ⟨⟨fun ⟨o, h⟩ => exists_ok_of_perm hperm hsingle' h,
    fun ⟨o, h⟩ => exists_ok_of_perm hperm.symm hsingle h⟩, fun o o' h h' => ?_⟩
  obtain ⟨order, hwalk, rfl⟩ := evaluate_eq_ok h
  obtain ⟨order', hwalk', rfl⟩ := evaluate_eq_ok h'
  obtain ⟨hran, hordered⟩ := ordered_of_walk hwalk
  obtain ⟨hran', hordered'⟩ := ordered_of_walk hwalk'
  have halike : (steps scope nodes order ⟨r, .empty⟩).Alike
      (steps scope nodes' order' ⟨r, .empty⟩) :=
    steps_perm (hran.trans (hperm.trans hran'.symm)) hordered hordered'
      (hsingle.perm hran.symm) (fun node hnode => hwf node (hran.subset hnode)) _
  rw [evaluate_of_walk hwalk, evaluate_of_walk hwalk']
  exact ⟨halike.output, halike.registers⟩

/-- A batch whose first node depends on its second, by a value and by a register. -/
def ledger : List Node := [⟨some "total", "$net ~rate ldr +"⟩, ⟨some "net", "3 ~rate str"⟩]

theorem evaluate_ledger : (evaluate ⟨.empty, none⟩ ledger Registers.new).1 =
    .ok ⟨[("net", Number.ofNat 3), ("total", Number.ofNat 6)], 2⟩ := by
  have hwalk : (graph ledger).walk = ([1, 0], none) := by
    rw [graph_eq_byAsking]
    decide +kernel
  rw [evaluate_of_walk hwalk]
  exact congrArg Except.ok (by decide +kernel)

/-- The nodes come to the same in the other order. -/
theorem evaluate_reverse_ledger : ∃ o,
    (evaluate ⟨.empty, none⟩ ledger.reverse Registers.new).1 = .ok o ∧
      o.get? "total" = some (Number.ofNat 6) := by
  have hdisjoint : ledger.Pairwise fun a b =>
      ∀ s ∈ a.dependencies.provides, s ∉ b.dependencies.provides := by decide +kernel
  obtain ⟨hok, hsame⟩ := evaluate_perm (List.reverse_perm ledger).symm (by decide +kernel)
    (by decide +kernel) (hdisjoint.imp fun h name => h (.register name)) ⟨.empty, none⟩
    Registers.new
  obtain ⟨o, ho⟩ := hok.1 ⟨_, evaluate_ledger⟩
  refine ⟨o, ho, ?_⟩
  rw [← (hsame _ o evaluate_ledger ho).1 "total"]
  decide

end Batch

end Reckoner
