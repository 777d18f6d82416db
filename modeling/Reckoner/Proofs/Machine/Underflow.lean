import Reckoner.Proofs.Program.Keyword
import Reckoner.Proofs.Machine.Calls

/-!
# Below the bottom of the stack

A machine finds undefined values below the bottom of its stack, so it does not tell a stack from
one with undefined values added below (`Machine.Under`). Every instruction keeps this
(`Machine.Under.perform`) but the reductions, which take the whole stack. So an expression without
one has the same result on both, and leaves the same registers (`evaluateOn_append_undefined`).
-/

namespace Reckoner

namespace Opcode

/-- The words that reduce the whole stack. -/
def reductions : List String := ["sum", "avg", "min", "max", "count"]

/-- Whether an opcode takes the whole stack. -/
def isReduction : Opcode → Bool
  | .reduce _ => true
  | _ => false

/-- Only the words of reductions take the whole stack. -/
theorem isReduction_ofToken {token : String} (h : token ∉ reductions) :
    (ofToken token).isReduction = false := by
  have hkeywords : ∀ k ∈ keywords, k.2.isReduction = true → k.1 ∈ reductions := by decide
  cases hop : ofToken token with
  | reduce r => exact absurd (hkeywords _ (mem_keywords_of_ofToken hop rfl) rfl) h
  | _ => rfl

end Opcode

namespace Machine

/-- The second machine is the first with undefined values below its stack. -/
structure Under (m m' : Machine) : Prop where
  stack : ∃ k, m'.stack = m.stack ++ List.replicate k .undefined
  mode : m'.mode = m.mode
  registers : m'.registers = m.registers

namespace Under

variable {m m' : Machine} {fold : Fold}

/-- The value on top is the same, an undefined one if the first stack is empty. -/
theorem pop (h : Under m m') : m'.pop.1 = m.pop.1 ∧ Under m.pop.2 m'.pop.2 := by
  obtain ⟨stack, mode, r⟩ := m
  obtain ⟨_, _, _⟩ := m'
  obtain ⟨⟨k, hstack⟩, hmode, hregisters⟩ := h
  simp only at hstack hmode hregisters
  subst hstack hmode hregisters
  cases stack with
  | cons v rest => exact ⟨rfl, ⟨k, rfl⟩, rfl, rfl⟩
  | nil =>
    cases k with
    | zero => exact ⟨rfl, ⟨0, rfl⟩, rfl, rfl⟩
    | succ k => exact ⟨rfl, ⟨k, rfl⟩, rfl, rfl⟩

theorem push (h : Under m m') (v : Value) : Under (m.push v) (m'.push v) where
  stack := h.stack.imp fun _ hk => congrArg (v :: ·) hk
  mode := h.mode
  registers := h.registers

theorem popNumber (h : Under m m') :
    m'.popNumber.1 = m.popNumber.1 ∧ Under m.popNumber.2 m'.popNumber.2 :=
  ⟨congrArg Value.toFloat h.pop.1, h.pop.2⟩

theorem withRegisters (h : Under m m') (r : Registers) :
    Under (m.withRegisters r) (m'.withRegisters r) :=
  ⟨h.stack, h.mode, rfl⟩

theorem withMode (h : Under m m') (mode : Mode) :
    Under { m with mode := mode } { m' with mode := mode } :=
  ⟨h.stack, rfl, h.registers⟩

theorem setIntermediate (h : Under m m') (x : Float) :
    Under (m.setIntermediate x) (m'.setIntermediate x) := by
  rw [Machine.setIntermediate, Machine.setIntermediate, h.registers]
  exact h.withRegisters _

theorem binary (h : Under m m') (f : Float → Float → Float) :
    Under (m.binary f) (m'.binary f) := by
  obtain ⟨hy, h⟩ := h.popNumber
  obtain ⟨hx, h⟩ := h.popNumber
  simp only [Machine.binary, hx, hy]
  exact h.push _

theorem binaryWithSide (h : Under m m') (f : Float → Float → Float × Float) :
    Under (m.binaryWithSide f) (m'.binaryWithSide f) := by
  obtain ⟨hy, h⟩ := h.popNumber
  obtain ⟨hx, h⟩ := h.popNumber
  simp only [Machine.binaryWithSide, hx, hy]
  exact (h.setIntermediate _).push _

/-- A jump goes by a condition that is undefined where there is none. -/
theorem jump (h : Under m m') (onZero : Bool) : Under (m.jump onZero) (m'.jump onZero) := by
  obtain ⟨-, h⟩ := h.pop
  obtain ⟨hcondition, h⟩ := h.pop
  simp only [Machine.jump, hcondition]
  split
  · exact h.withMode _
  · exact h.push _

/-- An opcode that does not take the whole stack does not tell the machines apart. -/
theorem perform (h : Under m m') {op : Opcode} (hop : op.isReduction = false) :
    Under (m.perform fold op) (m'.perform fold op) := by
  cases op with
  | number x => exact h.push _
  | name s | blockOpen s => exact h.push _
  | unknown token => exact h.push _
  | binary op => exact h.binary _
  | unary f =>
    obtain ⟨hx, h⟩ := h.popNumber
    simp only [Machine.perform, hx]
    exact h.push _
  | constant c => exact h.push _
  | reduce r => cases hop
  | percent => exact h.binary _
  | percentAdd => exact h.binaryWithSide fun x y => (x + Number.percent x y, Number.percent x y)
  | percentSub => exact h.binaryWithSide fun x y => (x - Number.percent x y, Number.percent x y)
  | mround => exact h.binaryWithSide Number.mround
  | fix => exact h.binaryWithSide Number.fix
  | root => exact h.binary _
  | swap =>
    obtain ⟨hv, h⟩ := h.pop
    obtain ⟨hw, h⟩ := h.pop
    simp only [Machine.perform, hv, hw]
    exact (h.push _).push _
  | copy =>
    obtain ⟨hv, h⟩ := h.pop
    simp only [Machine.perform, hv]
    exact (h.push _).push _
  | pop => exact h.pop.2
  | load =>
    obtain ⟨hv, h⟩ := h.pop
    simp only [Machine.perform, hv, h.registers]
    exact h.push _
  | store =>
    obtain ⟨hv, h⟩ := h.pop
    obtain ⟨hx, h⟩ := h.popNumber
    simp only [Machine.perform, hv, hx, h.registers]
    exact (h.withRegisters _).push _
  | copyRegister =>
    obtain ⟨hdestination, h⟩ := h.pop
    obtain ⟨hsource, h⟩ := h.pop
    simp only [Machine.perform, hdestination, hsource, h.registers]
    exact h.withRegisters _
  | reset => exact h.withRegisters _
  | jumpIfZero => exact h.jump true
  | jumpIfNotZero => exact h.jump false
  | blockClose => exact h
  | capture => exact h.withMode _
  | eachRegister =>
    obtain ⟨hv, h⟩ := h.pop
    simp only [Machine.perform, hv, h.registers]
    exact (h.withRegisters _).push _
  | debug => exact h

theorem advance (h : Under m m') {i : Instruction} (hop : i.op.isReduction = false) :
    Under (m.advance fold i) (m'.advance fold i) := by
  unfold Machine.advance
  rw [h.mode]
  split
  · split
    · exact (h.withMode _).push _
    · exact h.withMode _
  · split
    · exact h.withMode _
    · exact h
  · exact h.perform hop

/-- A program without reductions does not tell the machines apart. -/
theorem foldl_advance {program : Program} (hops : ∀ i ∈ program, i.op.isReduction = false)
    (h : Under m m') :
    Under (program.foldl (Machine.advance fold) m) (program.foldl (Machine.advance fold) m') := by
  induction program generalizing m m' with
  | nil => exact h
  | cons i program ih =>
    obtain ⟨hop, hops⟩ := List.forall_mem_cons.1 hops
    exact ih hops (h.advance hop)

theorem result (h : Under m m') : m'.result = m.result := by
  rw [Machine.result, Machine.result, h.pop.1]

end Under

end Machine

/-- A program without reductions has the same result on a stack with undefined values added
below, whatever folds mean, and it leaves the same registers. -/
theorem runWith_append_undefined {fold : Fold} {program : Program}
    (hops : ∀ i ∈ program, i.op.isReduction = false) (stack : List Value) (r : Registers)
    (k : Nat) :
    runWith fold program (stack ++ List.replicate k .undefined) r =
      runWith fold program stack r := by
  have hstart : Machine.Under (Machine.start stack r)
      (Machine.start (stack ++ List.replicate k .undefined) r) := ⟨⟨k, rfl⟩, rfl, rfl⟩
  have hend : Machine.Under (program.foldl (Machine.advance fold) _)
      (program.foldl (Machine.advance fold) _) := hstart.foldl_advance hops
  simp only [runWith, hend.result, hend.registers]

/-- Stack underflow is uniform: an expression that holds no word of a reduction has the same
result, and leaves the same registers, whether operands are missing or undefined. -/
theorem evaluateOn_append_undefined {expression : String}
    (h : ∀ w ∈ Text.words expression, w ∉ Opcode.reductions) (stack : List Value) (r : Registers)
    (k : Nat) :
    evaluateOn expression (stack ++ List.replicate k .undefined) r =
      evaluateOn expression stack r := by
  refine runWith_append_undefined (List.forall_mem_map.2 fun token htoken => ?_) stack r k
  exact Opcode.isReduction_ofToken (h token htoken)

/-- Operations of all kinds that want for operands. -/
def short : String := "+ ~total str swap %+ ~l jmpz 1 \x7d cpr | R 1 2 0 + | eachreg fix"

theorem evaluateOn_append_undefined_short :
    (∀ w ∈ Text.words short, w ∉ Opcode.reductions) ∧
      evaluateOn short ([.number 2] ++ List.replicate 3 .undefined) Registers.new =
        evaluateOn short [.number 2] Registers.new := by
  have hwords : ∀ w ∈ Text.words short, w ∉ Opcode.reductions := by decide +kernel
  exact ⟨hwords, evaluateOn_append_undefined hwords _ _ _⟩

/-- A reduction tells how many values there are. -/
example : (evaluateOn "count" [] Registers.new).1 ≠
    (evaluateOn "count" [.undefined] Registers.new).1 := by decide +kernel

end Reckoner
