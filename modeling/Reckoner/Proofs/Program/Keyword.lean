import Reckoner.Program.Opcode

/-!
# Keywords

A word that is no keyword is an operand, opens or closes a block, or is a bar
(`Opcode.isWritten_ofWord`). Any other opcode has one word, its keyword
(`Opcode.ofToken_eq_iff`). Bars and the ends of blocks are told by their first characters
(`Opcode.ofToken_eq_capture_iff`, `Opcode.ofToken_eq_blockClose_iff`).
-/

namespace Reckoner.Opcode

/-- Words that are no keywords have opcodes of these kinds. -/
def isWritten : Opcode → Bool
  | .number _ | .name _ | .blockOpen _ | .unknown _ | .blockClose | .capture => true
  | _ => false

theorem isWritten_ofWord (token : String) : (ofWord token).isWritten = true := by
  unfold ofWord
  split
  · rfl
  · rfl
  · rfl
  · rfl
  · rfl
  · split
    · rfl
    · rfl

theorem mem_keywords_of_ofToken {token : String} {op : Opcode} (h : ofToken token = op)
    (hop : op.isWritten = false) : (token, op) ∈ keywords := by
  rw [ofToken] at h
  cases hlookup : keywords.lookup token with
  | none =>
    rw [hlookup, Option.getD_none] at h
    rw [← h, isWritten_ofWord] at hop
    cases hop
  | some found =>
    rw [hlookup] at h
    obtain ⟨_, _, hmem, -⟩ := List.lookup_eq_some_iff.1 hlookup
    rw [hmem, ← show found = op from h]
    simp

/-- A keyword is the only word for what it means. -/
theorem ofToken_eq_iff {word token : String} {op : Opcode} (hword : (word, op) ∈ keywords)
    (hop : op.isWritten = false) : ofToken token = op ↔ token = word := by
  have hwords : ∀ k ∈ keywords, keywords.lookup k.1 = some k.2 := by decide +kernel
  have hops : ∀ k ∈ keywords, ∀ l ∈ keywords, k.2 = l.2 → k.1 = l.1 := by decide +kernel
  constructor
  · exact fun h => hops _ (mem_keywords_of_ofToken h hop) _ hword rfl
  · rintro rfl
    rw [ofToken, hwords _ hword, Option.getD_some]

/-! ## Words that are told by their first character -/

/-- The characters that tell what a word is that begins with one of them. -/
def isMark (c : Char) : Bool := c == '\x7d' || c == '|' || c == '~' || c == '$' || c == '\x7b'

/-- A word that begins with a mark is no keyword. -/
theorem ofToken_eq_ofWord {token : String} {c : Char} (h : token.toList.head? = some c)
    (hc : isMark c = true) : ofToken token = ofWord token := by
  have hheads : ∀ k ∈ keywords, k.1.toList.head?.all (fun c => !isMark c) = true := by decide
  have hkeyword : keywords.lookup token = none := by
    refine List.lookup_eq_none_iff.2 fun k hk => bne_iff_ne.2 ?_
    rintro rfl
    have hhead := hheads k hk
    rw [h, Option.all_some, hc] at hhead
    cases hhead
  rw [ofToken, hkeyword, Option.getD_none]

/-- What no keyword means is told by the word. -/
theorem ofWord_of_ofToken {token : String} {op : Opcode} (hop : ∀ k ∈ keywords, k.2 ≠ op)
    (h : ofToken token = op) : ofWord token = op := by
  rw [ofToken] at h
  cases hlookup : keywords.lookup token with
  | none => rwa [hlookup, Option.getD_none] at h
  | some found =>
    obtain ⟨_, _, hmem, -⟩ := List.lookup_eq_some_iff.1 hlookup
    rw [hlookup, Option.getD_some] at h
    exact absurd h (hop (token, found) (by simp [hmem]))

/-- Words that begin with a closing brace close a block, and those that begin with a bar are
bars. -/
theorem ofWord_eq_iff (token : String) :
    (ofWord token = .blockClose ↔ token.toList.head? = some '\x7d') ∧
      (ofWord token = .capture ↔ token.toList.head? = some '|') := by
  unfold ofWord
  split
  · next heq => simp [heq]
  · next heq => simp [heq]
  · next heq => simp [heq]
  · next heq => simp [heq]
  · next heq => simp [heq]
  · next hclose hbar _ _ _ =>
    have hheads : token.toList.head? ≠ some '\x7d' ∧ token.toList.head? ≠ some '|' := by
      constructor
      · intro h
        obtain ⟨cs, hcs⟩ := List.head?_eq_some_iff.1 h
        exact hclose cs hcs
      · intro h
        obtain ⟨cs, hcs⟩ := List.head?_eq_some_iff.1 h
        exact hbar cs hcs
    split <;> simp [hheads]

theorem ofToken_eq_blockClose_iff {token : String} :
    ofToken token = .blockClose ↔ token.toList.head? = some '\x7d' :=
  ⟨fun h => (ofWord_eq_iff token).1.1 (ofWord_of_ofToken (by decide) h),
    fun h => (ofToken_eq_ofWord h rfl).trans ((ofWord_eq_iff token).1.2 h)⟩

theorem ofToken_eq_capture_iff {token : String} :
    ofToken token = .capture ↔ token.toList.head? = some '|' :=
  ⟨fun h => (ofWord_eq_iff token).2.1 (ofWord_of_ofToken (by decide) h),
    fun h => (ofToken_eq_ofWord h rfl).trans ((ofWord_eq_iff token).2.2 h)⟩

/-- Words that begin with a tilde or an opening brace put a text on the stack. -/
theorem ofToken_label {token : String}
    (h : token.toList.head? = some '~' ∨ token.toList.head? = some '\x7b') :
    ∃ s, ofToken token = .name s ∨ ofToken token = .blockOpen s := by
  rcases h with h | h
  · obtain ⟨cs, hcs⟩ := List.head?_eq_some_iff.1 h
    refine ⟨String.ofList cs, .inl ?_⟩
    rw [ofToken_eq_ofWord h rfl, ofWord, hcs]
    rfl
  · obtain ⟨cs, hcs⟩ := List.head?_eq_some_iff.1 h
    refine ⟨token, .inr ?_⟩
    rw [ofToken_eq_ofWord h rfl, ofWord, hcs]
    rfl

end Reckoner.Opcode
