import Reckoner.Proofs.Batch.Reorder

/-!
# Repeating a batch

A session keeps its registers from one evaluation of a batch to the next. A node of a
well-formed batch reads only registers that no node writes from it on, if it does not
write them itself. So each node finds in them what it found the first time: what the
nodes before it have written, and where they have written nothing, what was there in
the beginning and therefore in the end (`Batch.foldl_step_replay`). A second
evaluation comes to the same output and leaves the same registers
(`Batch.evaluate_repeat`).
-/

namespace Reckoner

open Registers (isReserved)

namespace Node

/-- A node that provides no register which it requires. -/
def KeepsReads (node : Node) : Prop :=
  ∀ name, .register name ∈ node.dependencies.requires →
    .register name ∉ node.dependencies.provides

end Node

namespace Batch

variable {scope : Scope} {nodes : List Node}

/-- Nodes leave a register as it is that none of them provides. -/
theorem get?_foldl_step {l : List Node} (hwf : ∀ node ∈ l, node.WellFormed) {name : String}
    (hown : isReserved name = false)
    (h : ∀ node ∈ l, .register name ∉ node.dependencies.provides) (s : State) :
    (l.foldl (step scope) s).registers.get? name = s.registers.get? name := by
  induction l generalizing s with
  | nil => rfl
  | cons a l ih =>
    obtain ⟨ha, hl⟩ := List.forall_mem_cons.1 hwf
    obtain ⟨hname, hrest⟩ := List.forall_mem_cons.1 h
    have hwrites : ¬(.register name ∈ a.dependencies.provides ∨ isReserved name = true) := by
      simp [hname, hown]
    rw [List.foldl_cons, ih hl hrest, registers_step]
    exact (ha.footprint scope s.output).unchanged s.registers hwrites

/-- Nodes in a good order come to the same from two states with the same output if each
register holds in the second what it holds in the first, or what they leave in it from
there. -/
theorem foldl_step_replay {l : List Node} (hwf : ∀ node ∈ l, node.WellFormed)
    (hordered : Ordered l) (hkeeps : ∀ node ∈ l, node.KeepsReads) {s t : State}
    (houtput : t.output = s.output)
    (hregisters : ∀ name, t.registers.get? name = s.registers.get? name ∨
      t.registers.get? name = (l.foldl (step scope) s).registers.get? name) :
    l.foldl (step scope) t = l.foldl (step scope) s := by
  induction l generalizing s t with
  | nil =>
    obtain ⟨r, o⟩ := s
    obtain ⟨r', o'⟩ := t
    obtain rfl : r' = r := Registers.ext_get? fun name => (hregisters name).elim id id
    exact congrArg (State.mk r') houtput
  | cons a l ih =>
    obtain ⟨ha, hl⟩ := List.forall_mem_cons.1 hwf
    obtain ⟨hafter, hordered⟩ := List.pairwise_cons.1 hordered
    obtain ⟨hown, hkeeps'⟩ := List.forall_mem_cons.1 hkeeps
    have hfoot := ha.footprint scope s.output
    simp only [List.foldl_cons] at hregisters ⊢
    -- what the node reads is not written from it on
    have hagree : ∀ name, .register name ∈ a.dependencies.requires ∧ isReserved name = false →
        t.registers.get? name = s.registers.get? name := by
      rintro name ⟨hrequires, hreserved⟩
      have hkept : ((a :: l).foldl (step scope) s).registers.get? name = s.registers.get? name :=
        get?_foldl_step hwf hreserved (List.forall_mem_cons.2
          ⟨hown name hrequires, fun b hb => notMem_provides (hafter b hb) hrequires⟩) s
      rw [List.foldl_cons] at hkept
      rcases hregisters name with h | h
      · exact h
      · exact h.trans hkept
    have hresult := hfoot.result_eq hagree
    refine ih hl hordered hkeeps' ?_ fun name => ?_
    · rw [output_step, output_step, houtput, hresult]
    · rw [registers_step, registers_step, houtput]
      rcases hfoot.unchanged_or_eq hagree name with ⟨ht, hs⟩ | heq
      · rw [ht, hs]
        exact hregisters name
      · exact .inl heq

/-- A batch of well-formed nodes, none of which provides a register that it requires,
that succeeds on some registers succeeds on those that it leaves, with the same output,
and leaves them as they are. -/
theorem evaluate_repeat (scope : Scope) (hwf : ∀ node ∈ nodes, node.WellFormed)
    (hkeeps : ∀ node ∈ nodes, node.KeepsReads) {r : Registers} {o : BatchOutput}
    (h : (evaluate scope nodes r).1 = .ok o) :
    evaluate scope nodes (evaluate scope nodes r).2 = (.ok o, (evaluate scope nodes r).2) := by
  obtain ⟨order, hwalk, rfl⟩ := evaluate_eq_ok h
  obtain ⟨hran, hordered⟩ := ordered_of_walk hwalk
  rw [evaluate_of_walk hwalk, evaluate_of_walk hwalk]
  have hreplay : steps scope nodes order ⟨(steps scope nodes order ⟨r, .empty⟩).registers, .empty⟩ =
      steps scope nodes order ⟨r, .empty⟩ :=
    foldl_step_replay (fun node hnode => hwf node (hran.subset hnode)) hordered
      (fun node hnode => hkeeps node (hran.subset hnode)) rfl fun _ => .inr rfl
  rw [hreplay]

/-- A batch in which two nodes write the register that the first one reads, the second
of them if nothing is late. -/
def tariff : List Node :=
  [⟨some "fee", "~rate ldr 2 *"⟩, ⟨none, "7 ~rate str"⟩,
    ⟨none, "~late ldr ~reduce jmpnz 5 ~rate str \x7d"⟩]

/-- Registers by which something is late. -/
def lateRegisters : Registers := Registers.new.set "late" (Number.ofNat 1)

theorem evaluate_tariff : (evaluate ⟨.empty, none⟩ tariff lateRegisters).1 =
    .ok ⟨[("fee", Number.ofNat 14)], 3⟩ := by
  have hwalk : (graph tariff).walk = ([1, 2, 0], none) := by
    rw [graph_eq_byAsking]
    decide +kernel
  rw [evaluate_of_walk hwalk]
  exact congrArg Except.ok (by decide +kernel)

/-- The second evaluation begins with a rate, and comes to the same. -/
theorem evaluate_tariff_again :
    evaluate ⟨.empty, none⟩ tariff (evaluate ⟨.empty, none⟩ tariff lateRegisters).2 =
      (.ok ⟨[("fee", Number.ofNat 14)], 3⟩, (evaluate ⟨.empty, none⟩ tariff lateRegisters).2) := by
  have hkeeps : ∀ node ∈ tariff, ∀ s ∈ node.dependencies.requires,
      s ∉ node.dependencies.provides := by decide +kernel
  exact evaluate_repeat _ (by decide +kernel) (fun node hnode name => hkeeps node hnode _)
    evaluate_tariff

end Batch

end Reckoner
