import Mathlib.Data.List.DropRight
import Reckoner.Machine.Template
import Reckoner.Machine.Value

/-!
# The words before a word

What stands before a word of a program, as far as the machine and the
dependency scan go by it: the operands that are written directly before it
(`Program.operandsBefore`), and the words since the last bar
(`Program.sinceBar`).
-/

namespace Reckoner

namespace Program

/-- Whether a word is a bar. -/
def isBar (token : String) : Bool := decide (Opcode.ofToken token = .capture)

/-- The words after the last bar. -/
def sinceBar (before : List String) : List String := before.rtakeWhile fun token => !isBar token

/-- What a name or a number puts on the stack; other words are no operands. -/
def operand? (token : String) : Option Value :=
  match Opcode.ofToken token with
  | .name s => some (.text s)
  | .number x => some (.number x)
  | _ => none

/-- The operands at the end of some words, the last one first. -/
def operandsBefore (before : List String) : List Value :=
  ((before.reverse.map operand?).takeWhile Option.isSome).filterMap id

theorem isBar_iff {token : String} : isBar token = true ↔ Opcode.ofToken token = .capture :=
  decide_eq_true_iff

theorem isBar_eq_false_iff {token : String} :
    isBar token = false ↔ Opcode.ofToken token ≠ .capture :=
  decide_eq_false_iff_not

theorem sinceBar_append_bar (before : List String) {token : String} (h : isBar token = true) :
    sinceBar (before ++ [token]) = [] :=
  List.rtakeWhile_concat_neg _ _ _ (by simp [h])

theorem sinceBar_append_word (before : List String) {token : String} (h : isBar token = false) :
    sinceBar (before ++ [token]) = sinceBar before ++ [token] :=
  List.rtakeWhile_concat_pos _ _ _ (by simp [h])

theorem operandsBefore_append_operand (before : List String) {token : String} {v : Value}
    (h : operand? token = some v) :
    operandsBefore (before ++ [token]) = v :: operandsBefore before := by
  simp [operandsBefore, h]

theorem operandsBefore_append_other (before : List String) {token : String}
    (h : operand? token = none) : operandsBefore (before ++ [token]) = [] := by
  simp [operandsBefore, h]

/-- Words further to the left only add operands below. -/
theorem operandsBefore_prefix (left before : List String) :
    operandsBefore before <+: operandsBefore (left ++ before) := by
  induction before using List.reverseRecOn with
  | nil => exact List.nil_prefix
  | append_singleton before token ih =>
    rw [← List.append_assoc]
    cases h : operand? token with
    | none =>
      rw [operandsBefore_append_other _ h]
      exact List.nil_prefix
    | some v =>
      rw [operandsBefore_append_operand _ h, operandsBefore_append_operand _ h]
      exact List.cons_prefix_cons.2 ⟨rfl, ih⟩

/-- Operands at the end come first. -/
theorem operandsBefore_append (left : List String) {xs : List String}
    (h : ∀ x ∈ xs, (operand? x).isSome) :
    operandsBefore (left ++ xs) = (xs.filterMap operand?).reverse ++ operandsBefore left := by
  induction xs using List.reverseRecOn with
  | nil => simp
  | append_singleton xs x ih =>
    obtain ⟨v, hv⟩ := Option.isSome_iff_exists.1 (h x (by simp))
    rw [← List.append_assoc, operandsBefore_append_operand _ hv,
      ih fun y hy => h y (List.mem_append_left _ hy), List.filterMap_append]
    simp [hv]

theorem length_filterMap_operand? {xs : List String} (h : ∀ x ∈ xs, (operand? x).isSome) :
    (xs.filterMap operand?).length = xs.length := by
  rw [List.length_filterMap_eq_countP]
  exact List.countP_eq_length.2 h

/-- Operands are words at the end. -/
theorem exists_of_operandsBefore {before : List String} {k : Nat} {v : Value}
    (h : (operandsBefore before)[k]? = some v) :
    ∃ token, before.reverse[k]? = some token ∧ operand? token = some v := by
  induction before using List.reverseRecOn generalizing k with
  | nil => cases h
  | append_singleton before token ih =>
    rw [List.reverse_append, List.reverse_singleton, List.singleton_append]
    cases hw : operand? token with
    | none => rw [operandsBefore_append_other _ hw] at h; cases h
    | some w =>
      rw [operandsBefore_append_operand _ hw] at h
      cases k with
      | zero => exact ⟨token, rfl, hw.trans h⟩
      | succ k => exact ih h

theorem isBar_of_mem_sinceBar {before : List String} {token : String}
    (h : token ∈ sinceBar before) : isBar token = false := by
  simpa using List.mem_rtakeWhile_imp h

theorem sinceBar_subset (before : List String) : sinceBar before ⊆ before :=
  (List.rtakeWhile_suffix _ _).subset

/-- Words without a bar are words since the last one. -/
theorem sinceBar_append (before : List String) {ws : List String}
    (h : ∀ w ∈ ws, isBar w = false) : sinceBar (before ++ ws) = sinceBar before ++ ws := by
  induction ws using List.reverseRecOn with
  | nil => simp
  | append_singleton ws w ih =>
    rw [← List.append_assoc, sinceBar_append_word _ (h w (by simp)),
      ih fun v hv => h v (List.mem_append_left _ hv), List.append_assoc]

/-- The words up to the last bar, and those after it. -/
theorem exists_append_sinceBar (before : List String) :
    ∃ left, before = left ++ sinceBar before ∧ sinceBar left = [] := by
  refine ⟨before.rdropWhile fun token => !isBar token, ?_, ?_⟩
  · exact List.rdropWhile_append_rtakeWhile.symm
  · exact List.rtakeWhile_eq_nil_iff.2 fun hne => List.rdropWhile_last_not _ _ hne

end Program

end Reckoner
