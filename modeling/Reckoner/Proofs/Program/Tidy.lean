import Reckoner.Dependency
import Reckoner.Proofs.Program.Words

/-!
# Tidy programs

A program is tidy (`Program.Tidy`) if it says which registers it uses: every
register operation has its operands written directly before it, and every fold
its template. What a tidy program reads and writes can be told from its words
(`Program.Reads`, `Program.Writes`).

The words of a template that ends with a bar count as a part of the program
around it, since a fold runs them.
-/

namespace Reckoner

namespace Program

/-- The number of bars. -/
def bars (before : List String) : Nat := before.countP isBar

/-- The words of the template that ends with the last word. -/
def template (before : List String) : List String := sinceBar before.dropLast

/-- The words that the operands of an opcode are among: those before it, and in a
template only those of the expression that it holds. -/
def scope (before after : List String) : List String :=
  if bars before % 2 = 1 ∧ 0 < bars after then (sinceBar before).drop 4 else before

/-- The number of operands of an opcode that name registers. -/
def operandCount : Opcode → Nat
  | .load | .store => 1
  | .copyRegister => 2
  | _ => 0

/-- Words that end with `n` literal operands. -/
def HasOperands (literal : String → Prop) (n : Nat) (ws : List String) : Prop :=
  n ≤ ws.length ∧ ∀ x ∈ ws.rtake n, (operand? x).isSome ∧ literal x

/-- Words that end with a template of few registers, named by literals. -/
def HasTemplate (literal : String → Prop) (before : List String) : Prop :=
  before.getLast?.any isBar = true ∧ bars before % 2 = 0 ∧
    (∀ x ∈ (template before).take 3, literal x) ∧
      ∀ range ∈ RegisterRange.ofFields? (template before), range.size ≤ Dependencies.maxTracked

/-- A word between others that says which registers it uses. -/
def Placed (literal : String → Prop) (before : List String) (token : String)
    (after : List String) : Prop :=
  Opcode.ofToken token ≠ .reset ∧
    HasOperands literal (operandCount (Opcode.ofToken token)) (scope before after) ∧
      (Opcode.ofToken token = .eachRegister → HasTemplate literal before)

/-- A program that does not reset the registers and says where it uses one which one
that is, in words that are literal. -/
def Tidy (literal : String → Prop) (tokens : List String) : Prop :=
  ∀ i, (h : i < tokens.length) → Placed literal (tokens.take i) tokens[i] (tokens.drop (i + 1))

instance (literal : String → Prop) [DecidablePred literal] (tokens : List String) :
    Decidable (Tidy literal tokens) := by
  unfold Tidy Placed HasOperands HasTemplate
  infer_instance

variable {literal : String → Prop} {tokens before after : List String} {token : String}

theorem Tidy.placed (h : Tidy literal tokens) (heq : tokens = before ++ token :: after) :
    Placed literal before token after := by
  subst heq
  simpa using h before.length (by simp)

theorem tidy_iff : Tidy literal tokens ↔ ∀ before token after,
    tokens = before ++ token :: after → Placed literal before token after := by
  refine ⟨fun h _ _ _ => h.placed, fun h i hi => h _ _ _ ?_⟩
  rw [← List.drop_eq_getElem_cons hi, List.take_append_drop]

theorem hasOperands_zero (ws : List String) : HasOperands literal 0 ws := by
  refine ⟨Nat.zero_le _, fun x hx => ?_⟩
  rw [List.rtake_zero] at hx
  cases hx

theorem HasOperands.exists_append {n : Nat} {ws : List String} (h : HasOperands literal n ws) :
    ∃ left xs, ws = left ++ xs ∧ xs.length = n ∧ ∀ x ∈ xs, (operand? x).isSome ∧ literal x := by
  refine ⟨ws.rdrop n, ws.rtake n, (List.take_append_drop _ _).symm, ?_, h.2⟩
  rw [List.rtake, List.length_drop]
  have := h.1
  omega

theorem hasOperands_append {n : Nat} (left : List String) {xs : List String} (hn : xs.length = n)
    (h : ∀ x ∈ xs, (operand? x).isSome ∧ literal x) : HasOperands literal n (left ++ xs) := by
  have htake : (left ++ xs).rtake n = xs := by simp [List.rtake, hn]
  refine ⟨by rw [List.length_append]; omega, ?_⟩
  rw [htake]
  exact h

theorem HasOperands.append_left {n : Nat} {ws : List String} (h : HasOperands literal n ws)
    (left : List String) : HasOperands literal n (left ++ ws) := by
  obtain ⟨left', xs, rfl, hn, hxs⟩ := h.exists_append
  rw [← List.append_assoc]
  exact hasOperands_append _ hn hxs

theorem HasOperands.length_le {n : Nat} {ws : List String} (h : HasOperands literal n ws) :
    n ≤ (operandsBefore ws).length := by
  obtain ⟨left, xs, rfl, rfl, hxs⟩ := h.exists_append
  have hoperands := fun x hx => (hxs x hx).1
  rw [operandsBefore_append left hoperands, List.length_append, List.length_reverse,
    length_filterMap_operand? hoperands]
  exact Nat.le_add_right _ _

theorem HasTemplate.exists_append (h : HasTemplate literal before) :
    ∃ left bar, before = left ++ [bar] ∧ isBar bar = true := by
  rcases List.eq_nil_or_concat before with rfl | ⟨left, bar, rfl⟩
  · exact absurd h.1 nofun
  · refine ⟨left, bar, List.concat_eq_append, ?_⟩
    simpa using h.1

theorem scope_suffix (before after : List String) : scope before after <:+ before := by
  unfold scope
  split
  · exact (List.drop_suffix _ _).trans (List.rtakeWhile_suffix _ _)
  · exact List.suffix_refl _

theorem bars_append_bar (left : List String) {bar : String} (h : isBar bar = true) :
    bars (left ++ [bar]) = bars left + 1 := by
  simp [bars, h]

theorem bars_append (left : List String) {ws : List String} (h : ∀ w ∈ ws, isBar w = false) :
    bars (left ++ ws) = bars left := by
  have hws : ws.countP isBar = 0 := List.countP_eq_zero.2 fun w hw => by simp [h w hw]
  rw [bars, List.countP_append, hws]
  rfl

theorem Placed.hasOperands_before (h : Placed literal before token after) :
    HasOperands literal (operandCount (Opcode.ofToken token)) before := by
  obtain ⟨outer, hbefore⟩ := scope_suffix before after
  exact hbefore ▸ h.2.1.append_left outer

/-! ## What a tidy program uses -/

/-- The register that an opcode loads after some words. -/
def loadedAt (before : List String) : Opcode → Option String
  | .load => (operandsBefore before)[0]?.map Value.toName
  | .copyRegister => (operandsBefore before)[1]?.map Value.toName
  | _ => none

/-- The register that an opcode writes after some words. -/
def storedAt (before : List String) : Opcode → Option String
  | .store | .copyRegister => (operandsBefore before)[0]?.map Value.toName
  | _ => none

/-- The registers that an opcode goes through after some words. -/
def foldedAt (before : List String) : Opcode → List String
  | .eachRegister =>
    match RegisterRange.ofFields? (template before) with
    | some range => range.registers
    | none => []
  | _ => []

/-- The registers that a program reads. -/
def Reads (tokens : List String) (name : String) : Prop :=
  ∃ before token after, tokens = before ++ token :: after ∧
    (loadedAt before (Opcode.ofToken token) = some name ∨
      name ∈ foldedAt before (Opcode.ofToken token))

/-- The registers that a program writes. -/
def Writes (tokens : List String) (name : String) : Prop :=
  ∃ before token after, tokens = before ++ token :: after ∧
    storedAt before (Opcode.ofToken token) = some name

/-! ## The machine's registers -/

/-- No instruction loads one of the machine's registers. -/
def LoadsNoReserved (tokens : List String) : Prop :=
  ∀ i, (h : i < tokens.length) → ∀ name ∈ loadedAt (tokens.take i) (Opcode.ofToken tokens[i]),
    Registers.isReserved name = false

instance (tokens : List String) : Decidable (LoadsNoReserved tokens) := by
  unfold LoadsNoReserved
  infer_instance

/-- A register of a range ends with a digit, so it is not one of the machine's. -/
theorem isReserved_register (range : RegisterRange) (index : Int) :
    Registers.isReserved (range.register index) = false := by
  obtain ⟨left, n, hname⟩ :
      ∃ left n, (range.register index).toList = left ++ Nat.toDigits 10 n := by
    rw [RegisterRange.register, String.toList_append]
    cases index with
    | ofNat n => exact ⟨_, n, congrArg _ Nat.toList_repr⟩
    | negSucc n =>
      refine ⟨range.base.toList ++ ['-'], n + 1, ?_⟩
      rw [Int.repr, String.toList_append, Nat.toList_repr, List.append_assoc]
      rfl
  have hlast : (range.register index).toList.getLast?.any Char.isDigit = true := by
    rw [hname, List.getLast?_append, List.getLast?_eq_some_getLast Nat.toDigits_ne_nil,
      Option.some_or]
    exact Nat.isDigit_of_mem_toDigits (by decide) (by decide) (List.getLast_mem _)
  cases hreserved : Registers.isReserved (range.register index) with
  | false => rfl
  | true =>
    rw [Registers.isReserved, Bool.or_eq_true, beq_iff_eq, beq_iff_eq] at hreserved
    rcases hreserved with h | h
    · rw [h] at hlast
      exact absurd hlast (by decide)
    · rw [h] at hlast
      exact absurd hlast (by decide)

/-- A program that loads none of the machine's registers reads none of them. -/
theorem LoadsNoReserved.not_isReserved (h : LoadsNoReserved tokens) {name : String}
    (hname : Reads tokens name) : Registers.isReserved name = false := by
  obtain ⟨before, token, after, rfl, hloaded | hfolded⟩ := hname
  · refine h before.length (by simp) name ?_
    rw [List.take_left, List.getElem_append_right (Nat.le_refl _)]
    simpa using hloaded
  · cases hop : Opcode.ofToken token with
    | eachRegister =>
      rw [hop, foldedAt] at hfolded
      split at hfolded
      · next range _ =>
        obtain ⟨k, -, rfl⟩ := List.mem_map.1 hfolded
        exact isReserved_register range _
      · cases hfolded
    | _ => rw [hop] at hfolded; cases hfolded

end Program

end Reckoner
