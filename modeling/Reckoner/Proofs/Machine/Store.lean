import Reckoner.Proofs.Machine.Calls
import Reckoner.Proofs.Number.RoundTrip
import Reckoner.Proofs.Reference.Expansion

/-!
# Storing a number and loading it

An expression of a written number, a name with a tilde and `str` stores the number that is read
from the text (`evaluate_store`). A name with a tilde and `ldr` load what the register holds when
they are executed (`Call.pop_after_load`).
-/

namespace Reckoner

open Text (IsWord)
open Machine (advance start)
open Program (instruction operand?)

/-- A tilde begins a name. -/
theorem Opcode.ofToken_tilde (name : String) : ofToken ("~" ++ name) = .name name := by
  have htoken : ("~" ++ name).toList = '~' :: name.toList := by
    rw [String.toList_append]
    rfl
  have hheads : ∀ k ∈ keywords, k.1.toList.head? ≠ some '~' := by decide
  have hkeyword : keywords.lookup ("~" ++ name) = none := by
    refine List.lookup_eq_none_iff.2 fun k hk => bne_iff_ne.2 fun heq => hheads k hk ?_
    rw [← heq, htoken, List.head?_cons]
  rw [ofToken, hkeyword, Option.getD_none, ofWord, htoken]
  simp only [String.ofList_toList]

/-- A written number puts the number on the stack that is read from it. -/
theorem Machine.advance_format {fold : Fold} (stack : List Value) (r : Registers) (x : Float) :
    advance fold ⟨stack, .running, r⟩ (instruction (Number.format x)) =
      ⟨.number (Number.readOrZero (Number.format x)) :: stack, .running, r⟩ := by
  rw [advance_running, Program.ofToken_of_isNumeral (Reference.isNumeral_format x),
    Number.readOrZero, Number.read?]
  cases Number.readChars? (Number.format x).toList with
  | some y => rfl
  | none => rfl

theorem Machine.advance_tilde {fold : Fold} (stack : List Value) (r : Registers) (name : String) :
    advance fold ⟨stack, .running, r⟩ (instruction ("~" ++ name)) =
      ⟨.text name :: stack, .running, r⟩ := by
  rw [advance_running, Opcode.ofToken_tilde]
  rfl

/-- What is stored is the number that is read from the text of a number. -/
theorem evaluate_store (x : Float) {name : String} (hname : IsWord ("~" ++ name).toList)
    (r : Registers) :
    let stored := Number.readOrZero (Number.format x)
    evaluate (Number.format x ++ " ~" ++ name ++ " str") r =
      (stored, (r.set name stored).setLast stored) := by
  intro stored
  have hwords : Text.words (Number.format x ++ " ~" ++ name ++ " str") =
      [Number.format x, "~" ++ name, "str"] := by
    have htext : Number.format x ++ " ~" ++ name ++ " str" =
        Text.unwords [Number.format x, "~" ++ name, "str"] := by
      rw [← String.toList_inj]
      simp [Text.unwords]
    rw [htext, Text.words_unwords]
    simp only [List.forall_mem_cons]
    have hstr : IsWord "str".toList :=
      ⟨by decide, fun c hc => (@Number.isBlank_of_all "str".toList rfl c hc).1⟩
    exact ⟨(Reference.isNumeral_format x).isWord.1, hname, hstr, List.forall_mem_nil _⟩
  have hresult : Machine.result ⟨[.number stored], .running, r.set name stored⟩ = stored := by
    have hnumber : stored.isNaN = false := Number.isNaN_readOrZero _
    change ((Value.number stored).result?).getD (Number.zero false) = stored
    rw [Value.result?, hnumber]
    rfl
  have hrun : evaluate (Number.format x ++ " ~" ++ name ++ " str") r =
      let m := [instruction "str"].foldl (advance (foldNested 2))
        (advance (foldNested 2) (advance (foldNested 2) (start [] r)
          (instruction (Number.format x))) (instruction ("~" ++ name)))
      (m.result, m.registers.setLast m.result) := by
    rw [Call.evaluate_eq, hwords]
    rfl
  rw [hrun, start, Machine.advance_format, Machine.advance_tilde]
  exact congrArg (fun y => (y, (r.set name stored).setLast y)) hresult

namespace Call

/-- A load directly after a name puts what the register holds on the stack. -/
theorem pop_after_load {depth : Nat} {c : Call} {before : List String} {name : String}
    (h : c.Executes depth (before ++ ["~" ++ name]) "ldr") :
    (c.after depth (before ++ ["~" ++ name] ++ ["ldr"])).pop.1 =
      Value.ofOption ((c.after depth (before ++ ["~" ++ name])).registers.get? name) := by
  have hoperands := (c.tracks_after depth (before ++ ["~" ++ name])).operands h.2
  have hoperand : operand? ("~" ++ name) = some (.text name) := by
    rw [operand?, Opcode.ofToken_tilde]
  rw [Program.operandsBefore_append_operand _ hoperand] at hoperands
  have hmode := h.2
  rw [after_append_singleton]
  generalize c.after depth (before ++ ["~" ++ name]) = m at hoperands hmode
  obtain ⟨stack, mode, r⟩ := m
  obtain rfl : mode = .running := hmode
  obtain ⟨rest, rfl⟩ := hoperands
  rw [Machine.advance_running]
  rfl

end Call

end Reckoner
