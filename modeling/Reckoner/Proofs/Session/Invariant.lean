import Reckoner.Proofs.Machine.Times
import Reckoner.Proofs.Session.Operation
import Reckoner.Registers.Json

/-!
# What holds throughout a session

Whatever the operations on a session are, the registers of the machine are always there, every
evaluation returns a number and leaves it as the last result, and no register goes away from one
time to a later one without a `reset` (`Session.sound_of_built`).
-/

namespace Reckoner

open Registers (Stable Carries)

/-! ## Stores -/

namespace Registers

/-- The stores that a session can begin with: a new one, one with some numbers, and one that is
read from a document. -/
inductive Built : Registers → Prop where
  | new : Built Registers.new
  | ofList (l : List (String × Float)) : Built (Registers.ofList l)
  | read {room : Nat} {v : Json} {r : Registers} (h : shape room v = some r) : Built r

theorem hasReserved_ofList (l : List (String × Float)) : (ofList l).HasReserved := by
  unfold ofList
  induction l using List.reverseRecOn with
  | nil => exact hasReserved_new
  | append_singleton l e ih =>
    rw [List.foldl_append]
    exact stable_hasReserved _ e.1 e.2 ih

theorem Built.hasReserved {r : Registers} (h : r.Built) : r.HasReserved := by
  cases h with
  | new => exact hasReserved_new
  | ofList l => exact hasReserved_ofList l
  | @read room v r h =>
    unfold shape at h
    split at h
    · cases h
    · obtain ⟨l, -, rfl⟩ := Option.map_eq_some_iff.1 h
      exact hasReserved_ofList l
    · cases h

/-- No register of a store is missing in another one. -/
def Keeps (r s : Registers) : Prop :=
  ∀ name, r.contains name = true → s.contains name = true

end Registers

namespace Session

/-! ## Operations -/

namespace Operation

/-- A `reset` is executed in an evaluation, or it is the operation. -/
def Resets (s : Session) (op : Operation) : Prop :=
  op = .reset ∨ ∃ c ∈ op.calls s, c.Resets

/-- The registers at a time during an operation: before it, during one of its evaluations or
after it, and in the end. -/
def During (s : Session) (op : Operation) (r : Registers) : Prop :=
  r = s.registers ∨ (∃ c ∈ op.calls s, c.During r ∨ r = c.run.2) ∨ r = (s.perform op).registers

/-- The registers at all times during an operation, in order. -/
def times (s : Session) (op : Operation) : List Registers :=
  s.registers :: ((op.calls s).flatMap (Call.times 2) ++ [(s.perform op).registers])

variable {s : Session} {op : Operation}

theorem perform_mem_times (op : Operation) (s : Session) : (s.perform op).registers ∈ op.times s :=
  List.mem_cons_of_mem _ (List.mem_append_right _ (List.mem_singleton_self _))

/-- No time is left out. -/
theorem During.mem_times {r : Registers} (h : op.During s r) : r ∈ op.times s := by
  rcases h with rfl | ⟨c, hc, h⟩ | rfl
  · exact List.mem_cons_self
  · refine List.mem_cons_of_mem _ (List.mem_append_left _ (List.mem_flatMap.2 ⟨c, hc, ?_⟩))
    rcases h with h | rfl
    · exact h.mem_times
    · exact c.run_mem_times
  · exact op.perform_mem_times s

variable {P : Registers → Prop} (hP : Stable P) (hreset : op.Resets s → P Registers.new)

include hP hreset

theorem preserved_write {r : Registers} (hr : P r) : P (op.write r) := by
  cases op with
  | setRegister name x => exact hP r name x hr
  | copyRegister source destination => exact hP r destination _ hr
  | reset => exact hreset (.inl rfl)
  | evaluate | evaluateWith | evaluateBatch | calculate | recalculateLedger => exact hr

/-- What holds of registers at some time, however they are written, holds at all later ones. -/
theorem pairwise_times : (op.times s).Pairwise fun r t => P r → P t := by
  have hcalls : Carries P s.registers ((op.calls s).flatMap (Call.times 2))
      (evaluateAll (op.texts s) s.registers) :=
    Call.carries_inTurn fun c hc => .of_stable hP fun h => hreset (.inr ⟨c, hc, h⟩)
  have hperform := hcalls.append (.nil (preserved_write hP hreset))
  rw [List.append_nil, ← registers_perform] at hperform
  exact hperform.pairwise

theorem holds_of_mem_times (hs : P s.registers) {r : Registers} (hr : r ∈ op.times s) : P r := by
  rcases List.mem_cons.1 hr with rfl | hr
  · exact hs
  · exact (List.pairwise_cons.1 (pairwise_times hP hreset)).1 r hr hs

end Operation

/-- What holds of an operation on a session. -/
structure Operation.Sound (s : Session) (op : Operation) : Prop where
  /-- It is a number of evaluations one after another, and possibly a write. -/
  evaluations : (s.perform op).registers = op.write (evaluateAll (op.texts s) s.registers)
  /-- No time is left out of the list of them. -/
  times : ∀ r, op.During s r → r ∈ op.times s
  /-- The registers of the machine are always there. -/
  reserved : ∀ r ∈ op.times s, r.HasReserved
  /-- Every evaluation returns a number. -/
  number : ∀ c ∈ op.calls s, c.run.1.isNaN = false
  /-- It is the last result after the evaluation. -/
  last : ∀ c ∈ op.calls s, c.run.2.get? Registers.lastName = some c.run.1
  /-- The numbers in the answer are what the evaluations return. -/
  answers : op.Answers ((op.calls s).map fun c => c.run.1) s
  /-- No register that is there at some time is missing at a later one without a `reset`. -/
  kept : ¬op.Resets s → (op.times s).Pairwise Registers.Keeps

theorem pairwise_keeps_times {s : Session} {op : Operation} (hreset : ¬op.Resets s) :
    (op.times s).Pairwise Registers.Keeps := by
  refine List.pairwise_iff_forall_sublist.2 fun hsublist name => ?_
  have htimes : (op.times s).Pairwise fun r t => r.contains name = true → t.contains name = true :=
    Operation.pairwise_times (Registers.stable_contains name) fun h => absurd h hreset
  exact List.pairwise_iff_forall_sublist.1 htimes hsublist

theorem hasReserved_of_mem_times {s : Session} (hs : s.registers.HasReserved) {op : Operation}
    {r : Registers} (hr : r ∈ op.times s) : r.HasReserved :=
  Operation.holds_of_mem_times Registers.stable_hasReserved (fun _ => Registers.hasReserved_new)
    hs hr

theorem sound_of_hasReserved {s : Session} (hs : s.registers.HasReserved) (op : Operation) :
    op.Sound s where
  evaluations := registers_perform s op
  times _ h := h.mem_times
  reserved _ := hasReserved_of_mem_times hs
  number c _ := c.isNaN_run
  last c _ := c.get?_last_run
  answers := answers_perform s op
  kept := pairwise_keeps_times

theorem hasReserved_foldl {s : Session} (hs : s.registers.HasReserved) (ops : List Operation) :
    (ops.foldl perform s).registers.HasReserved := by
  induction ops generalizing s with
  | nil => exact hs
  | cons op ops ih => exact ih (hasReserved_of_mem_times hs (op.perform_mem_times s))

/-- Whatever the operations on a session were that began with a store as it can be built, any
further one is sound. -/
theorem sound_of_built {r : Registers} (hr : r.Built) (earlier : List Operation)
    (op : Operation) : op.Sound (earlier.foldl perform ⟨r⟩) :=
  sound_of_hasReserved (hasReserved_foldl hr.hasReserved earlier) op

/-- A session in which a register has been written. -/
def till : Session := [Operation.evaluate "5 ~x str"].foldl perform ⟨Registers.new⟩

/-- An expression that writes the last result itself and keeps the register. -/
theorem sound_till :
    (Operation.evaluate "7 ~LAST str ~x ldr +").Sound till ∧
      (till.perform (.evaluate "7 ~LAST str ~x ldr +")).registers.contains "x" = true := by
  have hsound : (Operation.evaluate "7 ~LAST str ~x ldr +").Sound till :=
    sound_of_built .new [.evaluate "5 ~x str"] (.evaluate "7 ~LAST str ~x ldr +")
  have hwords : ∀ token ∈ Text.words "7 ~LAST str ~x ldr +", Opcode.ofToken token ≠ .reset := by
    decide +kernel
  have hresets : ¬(Operation.evaluate "7 ~LAST str ~x ldr +").Resets till := by
    rintro (heq | ⟨c, hc, hreset⟩)
    · cases heq
    · rw [List.mem_singleton.1 hc] at hreset
      exact Call.not_resets hwords hreset
  have hx : till.registers.contains "x" = true := by decide +kernel
  refine ⟨hsound, (List.pairwise_cons.1 (hsound.kept hresets)).1 _ ?_ "x" hx⟩
  exact List.mem_append_right _ (List.mem_singleton_self _)

end Session

end Reckoner
