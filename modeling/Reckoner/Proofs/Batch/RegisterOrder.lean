import Reckoner.Proofs.Batch.Text
import Reckoner.Proofs.Batch.Turn
import Reckoner.Proofs.Dependency.Scan
import Reckoner.Proofs.Machine.Calls
import Reckoner.Proofs.Program.Keyword
import Reckoner.Values.Table

/-!
# Writers of a register before its readers

A node that stores in a register is run before one that loads from it, if both operands
are written directly before the operation and no value is filled in for either
(`Batch.mem_earlier_of_uses`).

A reference before an operation names a register if it has no value, and the scan takes
it for one. With a value it names the register with that number, which the scan does not
know of (`Batch.notMem_earlier_slots`).
-/

namespace Reckoner

open Program (operand?)
open Registers (isReserved)
open Reference (Marked)

namespace Call

/-- In a call or one of its folds, an operation on registers is executed with an operand
directly before it that names a register. -/
def Uses (top : Call) (op : Opcode) (name : String) : Prop :=
  ∃ depth c before operand token, Reaches top depth c ∧
    c.Executes depth (before ++ [operand]) token ∧ Opcode.ofToken token = op ∧
      (operand? operand).map Value.toName = some name

/-- The operand and the operation are neighbours in the expression. -/
theorem Uses.exists_words {expression : String} {r : Registers} {op : Opcode} {name : String}
    (h : (ofExpression expression r).Uses op name) :
    ∃ before operand token after, Text.words expression = before ++ operand :: token :: after ∧
      Opcode.ofToken token = op ∧ (operand? operand).map Value.toName = some name := by
  obtain ⟨depth, c, before, operand, token, hreaches, hexec, hop, hname⟩ := h
  obtain ⟨left, right, heq⟩ := hreaches.tokens_infix
  obtain ⟨after, hafter⟩ := hexec.exists_after
  refine ⟨left ++ before, operand, token, after ++ right, ?_, hop, hname⟩
  rw [← heq, hafter]
  simp

end Call

namespace Opcode

/-- The words for a load and a store have no mark. -/
theorem not_marked_of_ofToken {token : String} {op : Opcode} (h : ofToken token = op)
    (hop : op = .load ∨ op = .store) : ¬Marked token.toList := by
  have hkeywords : ∀ k ∈ keywords, k.2 = .load ∨ k.2 = .store → ¬Marked k.1.toList := by decide
  have hwritten : op.isWritten = false := by
    rcases hop with rfl | rfl
    · rfl
    · rfl
  exact hkeywords _ (mem_keywords_of_ofToken h hwritten) hop

end Opcode

/-- A register that is named directly before an operation is the operand on top. -/
theorem Program.head_operandsBefore (before : List String) {operand name : String}
    (h : (operand? operand).map Value.toName = some name) :
    (operandsBefore (before ++ [operand]))[0]?.map Value.toName = some name := by
  obtain ⟨v, hv, rfl⟩ := Option.map_eq_some_iff.1 h
  rw [operandsBefore_append_operand _ hv]
  rfl

theorem mem_zip_tail {α : Type} (before : List α) (a b : α) (after : List α) :
    (a, b) ∈ (before ++ a :: b :: after).zip (before ++ a :: b :: after).tail := by
  induction before with
  | nil => exact List.mem_cons_self
  | cons c before ih =>
    cases before with
    | nil => exact List.mem_cons_of_mem _ ih
    | cons d before => exact List.mem_cons_of_mem _ ih

/-- Nothing is filled in for a word directly before an operation. -/
def Node.Keeps (scope : Batch.Scope) (output : BatchOutput) (op : Opcode) (node : Node) : Prop :=
  ∀ pair ∈ (Text.words node.expression).zip (Text.words node.expression).tail,
    Opcode.ofToken pair.2 = op → Text.words (Batch.filled scope output pair.1) = [pair.1]

instance (scope : Batch.Scope) (output : BatchOutput) (op : Opcode) (node : Node) :
    Decidable (node.Keeps scope output op) :=
  inferInstanceAs (Decidable (∀ _ ∈ _, _ → _))

namespace Batch

variable {scope : Scope} {nodes : List Node} {r : Registers} {o : BatchOutput}

/-- The operand and the operation are neighbours in the node's own expression, if nothing is
filled in for the operand. -/
theorem exists_words_of_uses {node : Node} {output : BatchOutput} {op : Opcode} {name : String}
    (hop : op = .load ∨ op = .store) (hkeeps : node.Keeps scope output op)
    (h : (Call.ofExpression (text scope output node) r).Uses op name) :
    ∃ before operand token after,
      Text.words node.expression = before ++ operand :: token :: after ∧
        Opcode.ofToken token = op ∧ (operand? operand).map Value.toName = some name := by
  obtain ⟨before', operand, token, after', hwords, htoken, hname⟩ := h.exists_words
  rw [text_eq_filled, words_filled, ← List.singleton_append, ← List.append_assoc] at hwords
  obtain ⟨before, w, after, left, right, heq, hw, hbefore, -⟩ :=
    Program.exists_of_flatMap_eq hwords
  have hmem : w ∈ Text.words node.expression := by
    rw [heq]
    simp
  obtain ⟨rfl, hself⟩ := eq_of_mem_words_filled (Text.isWord_of_mem_words hmem)
    (Opcode.not_marked_of_ofToken htoken hop) (by rw [hw]; simp)
  obtain ⟨rfl, -⟩ : left = [] ∧ right = [] := by
    rw [hself] at hw
    simpa [List.append_eq_singleton_iff] using hw.symm
  rcases List.eq_nil_or_concat' before with rfl | ⟨before, v, rfl⟩
  · simp at hbefore
  · rw [List.append_assoc, List.singleton_append] at heq
    have hkept := hkeeps (v, w) (heq ▸ mem_zip_tail before v w after) htoken
    rw [List.append_nil, List.flatMap_append, List.flatMap_singleton, hkept] at hbefore
    obtain ⟨-, rfl⟩ := Machine.append_singleton_inj hbefore
    exact ⟨before, operand, w, after, heq, htoken, hname⟩

/-- The call that a node makes at its turn. -/
def turn (scope : Scope) (nodes : List Node) (r : Registers) (i : Nat) (node : Node) : Call :=
  Call.ofExpression (text scope (stateBefore scope nodes r i).output node)
    (stateBefore scope nodes r i).registers

/-- In a batch that succeeds, a node that stores in a register is run before another one
that loads from it, if nothing is filled in for the operands that name the register. -/
theorem mem_earlier_of_uses (h : (evaluate scope nodes r).1 = .ok o) {i j : Nat} (hne : i ≠ j)
    {a b : Node} (ha : nodes[i]? = some a) (hb : nodes[j]? = some b) {name : String}
    (hname : isReserved name = false)
    (hstores : (turn scope nodes r i a).Uses .store name)
    (hloads : (turn scope nodes r j b).Uses .load name)
    (hstored : a.Keeps scope (stateBefore scope nodes r i).output .store)
    (hloaded : b.Keeps scope (stateBefore scope nodes r j).output .load) :
    i ∈ earlier nodes j := by
  have hprovides : .register name ∈ a.dependencies.provides := by
    obtain ⟨before, operand, token, after, heq, hop, hoperand⟩ :=
      exists_words_of_uses (.inr rfl) hstored hstores
    rw [← List.singleton_append, ← List.append_assoc] at heq
    refine Dependencies.mem_provides _ ⟨before ++ [operand], token, after, heq, ?_⟩ hname
    rw [hop]
    exact Program.head_operandsBefore before hoperand
  have hrequires : .register name ∈ b.dependencies.requires := by
    obtain ⟨before, operand, token, after, heq, hop, hoperand⟩ :=
      exists_words_of_uses (.inl rfl) hloaded hloads
    rw [← List.singleton_append, ← List.append_assoc] at heq
    refine Dependencies.mem_requires_of_loadedAt _ heq ?_ hname
    rw [hop]
    exact Program.head_operandsBefore before hoperand
  refine mem_earlier_of_edge h (edge_iff.2 ⟨b, a, hb, ha, hne, ?_⟩)
  exact List.any_eq_true.2 ⟨_, hrequires, List.contains_iff_mem.2 hprovides⟩

/-- Values that are there from the start. -/
def given : Scope :=
  ⟨((ValueTable.empty.insert "price" (.ofText "7")).insert "slot" (.ofText "5")).toSource, none⟩

/-- A node that loads what a later one stores. -/
def fees : List Node := [⟨some "total", "~fee ldr 1 +"⟩, ⟨none, "$price 2 * ~fee str"⟩]

theorem evaluate_fees : (evaluate given fees Registers.new).1 =
    .ok ⟨[("total", Number.ofNat 15)], 2⟩ := by
  have hwalk : (graph fees).walk = ([1, 0], none) := by decide +kernel
  unfold evaluate evaluateInto
  rw [hwalk]
  exact congrArg Except.ok (by decide +kernel)

theorem mem_earlier_fees : 1 ∈ earlier fees 0 := by
  have hstores :
      (turn given fees Registers.new 1 ⟨none, "$price 2 * ~fee str"⟩).Uses .store "fee" :=
    ⟨2, _, ["7", "2", "*"], "~fee", "str", .top, by decide +kernel, by decide, by decide⟩
  have hloads : (turn given fees Registers.new 0 ⟨some "total", "~fee ldr 1 +"⟩).Uses .load "fee" :=
    ⟨2, _, [], "~fee", "ldr", .top, by decide +kernel, by decide, by decide⟩
  exact mem_earlier_of_uses evaluate_fees (i := 1) (j := 0) (by decide) rfl rfl (by decide) hstores
    hloads (by decide +kernel) (by decide +kernel)

/-- A node that loads what a later one stores, in a register whose number is a value. -/
def slots : List Node := [⟨some "reader", "5 ldr"⟩, ⟨none, "9 $slot str"⟩]

/-- The second node is run last, although it stores in the register that the first one loads. -/
theorem notMem_earlier_slots :
    (∃ o, (evaluate given slots Registers.new).1 = .ok o) ∧ (1 : Nat) ≠ 0 ∧
      slots[1]? = some ⟨none, "9 $slot str"⟩ ∧ slots[0]? = some ⟨some "reader", "5 ldr"⟩ ∧
        isReserved "5" = false ∧
          (turn given slots Registers.new 1 ⟨none, "9 $slot str"⟩).Uses .store "5" ∧
            (turn given slots Registers.new 0 ⟨some "reader", "5 ldr"⟩).Uses .load "5" ∧
              1 ∉ earlier slots 0 := by
  have hwalk : (graph slots).walk = ([0, 1], none) := by decide +kernel
  refine ⟨?_, by decide, rfl, rfl, by decide, ?_, ?_, ?_⟩
  · unfold evaluate evaluateInto
    rw [hwalk]
    exact ⟨_, rfl⟩
  · exact ⟨2, _, ["9"], "5", "str", .top, by decide +kernel, by decide +kernel, by decide +kernel⟩
  · exact ⟨2, _, [], "5", "ldr", .top, by decide +kernel, by decide +kernel, by decide +kernel⟩
  · rw [earlier, hwalk]
    decide

end Batch

end Reckoner
