import Reckoner.Proofs.Reference.Expansion

/-!
# Words with a mark

A reference and a written number hold a character that most keywords do not: a dollar
sign, a digit, or a letter that a number without digits begins with. So a word with none
of these is in a substituted expression only where it is in the expression
(`Reference.eq_of_mem_words_substitute`, `Reference.mem_words_of_mem_substitute`).
-/

namespace Reckoner

open Text (IsWord Cut cut splitWords)
open Program (beginsPlain)

namespace Reference

/-- A text with a character that references and written numbers begin with. -/
def Marked (w : List Char) : Prop := w.any beginsPlain = true

instance : DecidablePred Marked := fun w => inferInstanceAs (Decidable (w.any beginsPlain = true))

theorem Marked.append_left {w : List Char} (h : Marked w) (u : List Char) : Marked (u ++ w) := by
  rw [Marked, List.any_append, h, Bool.or_true]

theorem Marked.append_right {w : List Char} (h : Marked w) (u : List Char) : Marked (w ++ u) := by
  rw [Marked, List.any_append, h, Bool.true_or]

theorem marked_of_isNumeral {w : List Char} (h : Number.IsNumeral w) : Marked w := by
  obtain ⟨c, rest, rfl, hc, -⟩ := Program.exists_head_of_isNumeral h
  exact List.any_eq_true.2 ⟨c, List.mem_cons_self, hc⟩

/-- The words of a line before a text: those that are over in it have a mark. -/
theorem marked_cut_intercalate {ws : List (List Char)} (hne : ws ≠ [])
    (hws : ∀ w ∈ ws, IsWord w ∧ Marked w) {cs : List Char} (hcs : ∀ w ∈ (cut cs).rest, Marked w) :
    Marked (cut ([' '].intercalate ws ++ cs)).first ∧
      ∀ w ∈ (cut ([' '].intercalate ws ++ cs)).rest, Marked w := by
  induction ws with
  | nil => exact absurd rfl hne
  | cons w ws ih =>
    obtain ⟨⟨hw, hmark⟩, hws⟩ := List.forall_mem_cons.1 hws
    cases ws with
    | nil =>
      rw [List.intercalate_singleton, Text.cut_append_of_notBlank hw.2]
      exact ⟨hmark.append_right _, hcs⟩
    | cons v ws =>
      obtain ⟨hfirst, hrest⟩ := ih (List.cons_ne_nil _ _) hws
      rw [List.intercalate_cons_cons, List.append_assoc, List.append_assoc, List.singleton_append,
        Text.splitWords_append_blank hw.2 rfl]
      refine ⟨hmark, fun u hu => ?_⟩
      rcases Cut.eq_or_mem_of_mem_toList hu with rfl | hu
      · exact hfirst
      · exact hrest u hu

end Reference

open Reference (Marked marked_cut_intercalate)

namespace Referenced

theorem gap_subset (t : Referenced) : t.gap ⊆ t.toChars := List.subset_append_left _ _

theorem subset_of_mem_rest {t : Referenced} {name gap : List Char} (h : (name, gap) ∈ t.rest) :
    name ⊆ t.toChars ∧ gap ⊆ t.toChars := by
  have hpart : '$' :: name ++ gap ⊆ t.toChars := fun c hc =>
    List.mem_append_right _ (List.mem_flatMap.2 ⟨_, h, hc⟩)
  exact ⟨fun c hc => hpart (List.mem_append_left _ (List.mem_cons_of_mem _ hc)),
    fun c hc => hpart (List.mem_append_right _ hc)⟩

/-- Where references between gaps without blanks are filled in with lines of words with a
mark, all words have one. -/
theorem marked_cut_fill {f : List Char → List Char} (gap : List Char)
    (rest : List (List Char × List Char)) (hgap : ∀ c ∈ gap, Text.isBlank c = false)
    (hrest : ∀ e ∈ rest, (∀ c ∈ e.2, Text.isBlank c = false) ∧ ∃ ws, ws ≠ [] ∧
      f e.1 = [' '].intercalate ws ∧ ∀ w ∈ ws, IsWord w ∧ Marked w) :
    (rest ≠ [] → Marked (cut (fill f ⟨gap, rest⟩)).first) ∧
      ∀ w ∈ (cut (fill f ⟨gap, rest⟩)).rest, Marked w := by
  induction rest generalizing gap with
  | nil =>
    rw [fill_gap, Text.cut_of_notBlank hgap]
    exact ⟨fun h => absurd rfl h, nofun⟩
  | cons e rest ih =>
    obtain ⟨name, next⟩ := e
    obtain ⟨⟨hnext, ws, hne, hws, hmarked⟩, hrest⟩ := List.forall_mem_cons.1 hrest
    obtain ⟨hfirst, hlater⟩ := marked_cut_intercalate hne hmarked (ih next hnext hrest).2
    rw [fill_cons, show f name = [' '].intercalate ws from hws, Text.cut_append_of_notBlank hgap]
    exact ⟨fun _ => hfirst.append_left _, hlater⟩

end Referenced

namespace Reference

/-- What takes the place of a reference is a line of words with a mark. -/
theorem exists_words_replacement (source : ValueSource) {name : List Char}
    (hname : ∀ c ∈ name, Text.isBlank c = false) :
    ∃ ws, ws ≠ [] ∧ replacement source name = [' '].intercalate ws ∧
      ∀ w ∈ ws, IsWord w ∧ Marked w := by
  rw [replacement]
  cases resolve source name with
  | nil =>
    refine ⟨['$' :: name], List.cons_ne_nil _ _, List.intercalate_singleton.symm, fun w hw => ?_⟩
    obtain rfl := List.mem_singleton.1 hw
    exact ⟨⟨List.cons_ne_nil _ _, List.forall_mem_cons.2 ⟨rfl, hname⟩⟩, rfl⟩
  | cons x xs =>
    refine ⟨((x :: xs).map Number.format).map String.toList, List.cons_ne_nil _ _, ?_,
      fun w hw => ?_⟩
    · change (Text.unwords ((x :: xs).map Number.format)).toList = _
      rw [Text.unwords, String.toList_intercalate]
      rfl
    · rw [List.map_map] at hw
      obtain ⟨y, -, rfl⟩ := List.mem_map.1 hw
      exact ⟨(isNumeral_format y).isWord.1, marked_of_isNumeral (isNumeral_format y)⟩

/-- A word stays, or all words in its place have a mark. -/
theorem substitute_word_cases {token : String} (hword : IsWord token.toList)
    (source : ValueSource) : substitute token source = token ∨
      ∀ w ∈ Text.words (substitute token source), Marked w.toList := by
  have hchars := Referenced.toChars_ofChars token.toList
  generalize ht : Referenced.ofChars token.toList = t at hchars
  obtain ⟨gap, rest⟩ := t
  have hblank : ∀ cs : List Char, cs ⊆ Referenced.toChars ⟨gap, rest⟩ →
      ∀ c ∈ cs, Text.isBlank c = false := fun cs hcs c hc => hword.2 c (hchars ▸ hcs hc)
  have hmarked := Referenced.marked_cut_fill (f := replacement source) gap rest
    (hblank gap (Referenced.gap_subset ⟨gap, rest⟩)) fun e he => by
      obtain ⟨hname, hgap⟩ := Referenced.subset_of_mem_rest (t := ⟨gap, rest⟩) he
      exact ⟨hblank _ hgap, exists_words_replacement source (hblank _ hname)⟩
  rw [substitute, ht]
  cases rest with
  | nil =>
    left
    rw [← String.toList_inj, ← hchars, String.toList_ofList]
    simp [Referenced.fill, Referenced.toChars]
  | cons e rest =>
    right
    have hfirst := hmarked.1 (List.cons_ne_nil _ _)
    rw [Text.words, String.toList_ofList, splitWords]
    intro w hw
    obtain ⟨v, hv, rfl⟩ := List.mem_map.1 hw
    rw [String.toList_ofList]
    rcases Cut.eq_or_mem_of_mem_toList hv with rfl | hv
    · exact hfirst
    · exact hmarked.2 v hv

/-- A word without a mark comes from itself. -/
theorem eq_of_mem_words_substitute {token w : String} (hword : IsWord token.toList)
    (hw : ¬Marked w.toList) {source : ValueSource} (h : w ∈ Text.words (substitute token source)) :
    token = w ∧ Text.words (substitute token source) = [w] := by
  rcases substitute_word_cases hword source with heq | hmarked
  · rw [heq, Text.words_of_isWord hword] at h ⊢
    rw [List.mem_singleton.1 h]
    exact ⟨rfl, rfl⟩
  · exact absurd (hmarked w h) hw

/-- A word without a mark is in a substituted expression only if it is in the expression. -/
theorem mem_words_of_mem_substitute {expression w : String} (hw : ¬Marked w.toList)
    {source : ValueSource} (h : w ∈ Text.words (substitute expression source)) :
    w ∈ Text.words expression := by
  rw [words_substitute] at h
  obtain ⟨token, htoken, hmem⟩ := List.mem_flatMap.1 h
  obtain ⟨rfl, -⟩ := eq_of_mem_words_substitute (Text.isWord_of_mem_words htoken) hw hmem
  exact htoken

end Reference

end Reckoner
