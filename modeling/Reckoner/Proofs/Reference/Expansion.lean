import Reckoner.Proofs.Number.Format
import Reckoner.Proofs.Program.Expansion
import Reckoner.Proofs.Reference.Append

/-!
# The words of a substituted expression

If every word with a dollar sign in it is one reference, then substitution puts
words in the place of words (`Reference.Separate.words_substitute`), and this is an expansion, since
numbers are written as plain words (`Reference.expansion_expand`).
-/

namespace Reckoner

open Text (IsWord Ended splitWords)
open Number (IsNumeral)

/-! ## Plain words -/

namespace Program

/-- The characters that references and written numbers begin with. -/
def beginsPlain (c : Char) : Bool :=
  c.isDigit || c == 'I' || c == 'N' || c == '-' || c == '$'

theorem head_keyword : ∀ k ∈ Opcode.keywords,
    k.1.toList.head?.all (fun c => !beginsPlain c) = true ∨ k.1.toList = ['-'] := by
  decide

theorem lookup_keywords_eq_none {token : String} {c : Char} {cs : List Char}
    (htoken : token.toList = c :: cs) (hc : beginsPlain c = true) (hminus : token.toList ≠ ['-']) :
    Opcode.keywords.lookup token = none := by
  refine List.lookup_eq_none_iff.2 fun k hk => bne_iff_ne.2 ?_
  rintro rfl
  rcases head_keyword k hk with hall | hself
  · rw [htoken, List.head?_cons, Option.all_some, hc] at hall
    cases hall
  · exact hminus hself

theorem isPlain_of_dollar {token : String} {name : List Char}
    (htoken : token.toList = '$' :: name) : isPlain token = true := by
  have hkeyword := lookup_keywords_eq_none htoken rfl (by rw [htoken]; nofun)
  rw [isPlain, Opcode.ofToken, hkeyword, Option.getD_none, Opcode.ofWord, htoken]
  rfl

theorem exists_head_of_isNumeral {cs : List Char} (h : IsNumeral cs) :
    ∃ c rest, cs = c :: rest ∧ beginsPlain c = true ∧ c ≠ '$' ∧ cs ≠ ['-'] := by
  obtain ⟨negative, first, rest, rfl, hfirst, -⟩ := h
  cases negative with
  | false =>
    refine ⟨first, rest, rfl, ?_, ?_, fun heq => ?_⟩
    · rw [beginsPlain, hfirst, Bool.true_or, Bool.true_or]
    · rintro rfl
      cases hfirst
    · obtain ⟨rfl, -⟩ := List.cons.inj heq
      cases hfirst
  | true =>
    refine ⟨'-', first :: rest, rfl, rfl, by decide, fun heq => ?_⟩
    cases heq

/-- A written number is the number that is read from it, if there is one. -/
theorem ofToken_of_isNumeral {token : String} (h : IsNumeral token.toList) :
    Opcode.ofToken token = match Number.readChars? token.toList with
      | some x => .number x
      | none => .unknown token := by
  obtain ⟨c, rest, htoken, hc, hdollar, hminus⟩ := exists_head_of_isNumeral h
  have hhead : ∀ d ds, token.toList = d :: ds → beginsPlain d = true ∧ d ≠ '$' := by
    intro d ds heq
    rw [htoken] at heq
    exact (List.cons.inj heq).1 ▸ ⟨hc, hdollar⟩
  rw [Opcode.ofToken, lookup_keywords_eq_none htoken hc hminus, Option.getD_none, Opcode.ofWord]
  split
  · next heq => exact absurd (hhead _ _ heq).1 (by decide)
  · next heq => exact absurd (hhead _ _ heq).1 (by decide)
  · next heq => exact absurd (hhead _ _ heq).1 (by decide)
  · next heq => exact absurd rfl (hhead _ _ heq).2
  · next heq => exact absurd (hhead _ _ heq).1 (by decide)
  · rfl

/-- A written number is a number, or it means nothing. -/
theorem isPlain_of_isNumeral {token : String} (h : IsNumeral token.toList) :
    isPlain token = true := by
  rw [isPlain, ofToken_of_isNumeral h]
  cases Number.readChars? token.toList with
  | none => rfl
  | some x => rfl

end Program

/-! ## Filling in -/

namespace Reference

/-- A dollar sign with a name. -/
def IsReference (w : List Char) : Prop :=
  w.head? = some '$' ∧ w.tail ≠ [] ∧ w.tail.all isNameChar = true

instance : DecidablePred IsReference := fun w =>
  inferInstanceAs (Decidable (w.head? = some '$' ∧ w.tail ≠ [] ∧ w.tail.all isNameChar = true))

theorem IsReference.exists_name {w : List Char} (h : IsReference w) :
    ∃ name, w = '$' :: name ∧ name ≠ [] ∧ ∀ c ∈ name, isNameChar c = true := by
  obtain ⟨hhead, hne, hname⟩ := h
  obtain ⟨name, rfl⟩ := List.head?_eq_some_iff.1 hhead
  exact ⟨name, rfl, hne, List.all_eq_true.1 hname⟩

end Reference

/-! ## Substitution -/

namespace Reference

/-- Every word with a dollar sign in it is one reference. -/
def Separate (tokens : List String) : Prop :=
  ∀ token ∈ tokens, '$' ∈ token.toList → IsReference token.toList

instance (tokens : List String) : Decidable (Separate tokens) :=
  inferInstanceAs (Decidable (∀ token ∈ tokens, '$' ∈ token.toList → IsReference token.toList))

/-- The words in the place of a word: the values of the reference that it is, unless
there are none. -/
def expand (source : ValueSource) (token : String) : List String :=
  match token.toList with
  | '$' :: name =>
    match resolve source name with
    | [] => [token]
    | xs => xs.map Number.format
  | _ => [token]

/-- A word stays, or it is a dollar sign with a name and numbers are put in its
place. -/
theorem expand_cases (source : ValueSource) (token : String) :
    expand source token = [token] ∨ ∃ name xs, token.toList = '$' :: name ∧
      xs = resolve source name ∧ xs ≠ [] ∧ expand source token = xs.map Number.format := by
  unfold expand
  split
  · next name hname =>
    split
    · exact .inl rfl
    · next xs hxs => exact .inr ⟨name, _, hname, rfl, hxs, rfl⟩
  · exact .inl rfl

theorem isNumeral_format (x : Float) : IsNumeral (Number.format x).toList := by
  rw [Number.format, String.toList_ofList]
  exact Number.isNumeral_formatChars x

/-- Substitution keeps words without a dollar sign. -/
theorem expansion_expand (source : ValueSource) :
    Program.Expansion (fun token => '$' ∉ token.toList) (expand source) where
  literal token h := by
    rcases expand_cases source token with heq | ⟨name, xs, hname, -⟩
    · exact heq
    · exact absurd (hname ▸ List.mem_cons_self) h
  plain token := by
    refine (expand_cases source token).imp_right ?_
    rintro ⟨name, xs, hname, -, hne, heq⟩
    rw [heq]
    refine ⟨List.map_eq_nil_iff.not.2 hne, ?_, fun w hw => ?_⟩
    · exact Program.isPlain_of_dollar hname
    · obtain ⟨x, -, rfl⟩ := List.mem_map.1 hw
      exact Program.isPlain_of_isNumeral (isNumeral_format x)

/-- Substitution keeps references separate. -/
theorem Separate.expand {tokens : List String} (h : Separate tokens) (source : ValueSource) :
    Separate (tokens.flatMap (expand source)) := by
  intro w hw hdollar
  obtain ⟨token, htoken, hw⟩ := List.mem_flatMap.1 hw
  rcases expand_cases source token with heq | ⟨name, xs, -, -, -, heq⟩
  · rw [heq] at hw
    rw [List.mem_singleton.1 hw] at hdollar ⊢
    exact h token htoken hdollar
  · rw [heq] at hw
    obtain ⟨x, -, rfl⟩ := List.mem_map.1 hw
    exact absurd hdollar (isNumeral_format x).isWord.2

/-- A word is substituted by the words in its place. -/
theorem words_substitute_word {token : String} (hword : IsWord token.toList)
    (h : '$' ∈ token.toList → IsReference token.toList) (source : ValueSource) :
    Text.words (substitute token source) = expand source token := by
  unfold expand
  split
  · next name hname =>
    obtain ⟨_, heq, hne, hchars⟩ := (h (hname ▸ List.mem_cons_self)).exists_name
    obtain ⟨-, rfl⟩ := List.cons.inj (hname.symm.trans heq)
    rw [substitute_reference hname hne hchars, replacement]
    cases resolve source name with
    | nil =>
      change Text.words (String.ofList ('$' :: name)) = [token]
      rw [← hname, String.ofList_toList, Text.words_of_isWord hword]
    | cons x xs =>
      change Text.words (String.ofList (Text.unwords ((x :: xs).map Number.format)).toList) = _
      rw [String.ofList_toList, Text.words_unwords fun v hv => ?_]
      obtain ⟨y, -, rfl⟩ := List.mem_map.1 hv
      exact (isNumeral_format y).isWord.1
  · next hhead =>
    have hdollar : '$' ∉ token.toList := fun hmem => by
      obtain ⟨name, hname, -⟩ := (h hmem).exists_name
      exact hhead name hname
    rw [substitute_eq_self hdollar, Text.words_of_isWord hword]

/-- Substitution of references that stand alone puts words in the place of words. -/
theorem Separate.words_substitute {expression : String} (h : Separate (Text.words expression))
    (source : ValueSource) : Text.words (substitute expression source) =
      (Text.words expression).flatMap (Reference.expand source) := by
  rw [Reckoner.words_substitute]
  exact List.flatMap_congr fun token htoken =>
    words_substitute_word (Text.isWord_of_mem_words htoken) (h token htoken) source

end Reference

end Reckoner
