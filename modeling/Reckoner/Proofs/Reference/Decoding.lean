import Reckoner.Proofs.Number.Lossless
import Reckoner.Values.Table

/-!
# What substituted values mean

Whatever the texts of its values are, a reference that stands alone is replaced by words
that mean numbers, one for each value, and nothing else of the expression changes
(`Reference.Separate.standsFor_words`).
-/

namespace Reckoner

open Number (dropZeroSign)

namespace Reference

/-- What stands in the place of a word when the references are filled in. -/
inductive StandsFor (source : ValueSource) (token : String) : List String → Prop where
  /-- A word that is no reference stays, and so does a reference without values. -/
  | itself (h : ∀ name, token.toList = '$' :: name → (ofName name).lookup source = []) :
    StandsFor source token [token]
  /-- One word for each value of a reference, which means the number that the value is
  read as. -/
  | values {name : List Char} {words : List String} (htoken : token.toList = '$' :: name)
    (hne : (ofName name).lookup source ≠ [])
    (hwords : words.map Opcode.ofToken =
      ((ofName name).lookup source).map fun raw => .number (dropZeroSign raw.toFloat)) :
    StandsFor source token words

/-- The words that are put in the place of a word stand for it. -/
theorem standsFor_expand (source : ValueSource) (token : String) :
    StandsFor source token (expand source token) := by
  unfold expand
  split
  · next name htoken =>
    split
    · next hresolve =>
      refine .itself fun other hother => ?_
      obtain ⟨-, rfl⟩ := List.cons.inj (htoken.symm.trans hother)
      exact List.map_eq_nil_iff.1 hresolve
    · next hne =>
      refine .values htoken (fun hnil => hne ?_) ?_
      · rw [resolve, hnil, List.map_nil]
      · rw [resolve, List.map_map, List.map_map]
        exact List.map_congr_left fun raw _ => Opcode.ofToken_format raw.isNaN_toFloat
  · next hword => exact .itself fun name htoken => absurd htoken (hword name)

/-- Substitution of references that stand alone puts words that mean numbers in their
places, one for each value, and keeps all other words. -/
theorem Separate.standsFor_words {expression : String} (h : Separate (Text.words expression))
    (source : ValueSource) :
    ∃ parts, Text.words (substitute expression source) = parts.flatten ∧
      List.Forall₂ (StandsFor source) (Text.words expression) parts := by
  refine ⟨(Text.words expression).map (Reference.expand source), ?_, ?_⟩
  · rw [h.words_substitute, List.flatMap_def]
  · rw [List.forall₂_map_right_iff, List.forall₂_same]
    exact fun token _ => standsFor_expand source token

/-- Values whose texts hold words with a meaning of their own. -/
def hostile : ValueTable :=
  ⟨[⟨"a", [], ⟨some "12 reset | 3", none⟩⟩, ⟨"a", ["b"], ⟨some "", some "\x7d pop"⟩⟩,
    ⟨"a", [], ⟨some "-0x10", none⟩⟩, ⟨"c", [], ⟨some "1e999", some "7"⟩⟩], none⟩

theorem Separate.standsFor_hostile :
    ∃ parts, Text.words (substitute "$a sum $c $d ~x str" hostile.toSource) = parts.flatten ∧
      parts.flatten = ["12", "0", "0", "sum", "Infinity", "$d", "~x", "str"] ∧
        List.Forall₂ (StandsFor hostile.toSource) ["$a", "sum", "$c", "$d", "~x", "str"] parts := by
  have hwords : Text.words "$a sum $c $d ~x str" = ["$a", "sum", "$c", "$d", "~x", "str"] := by
    decide +kernel
  have hseparate : Separate (Text.words "$a sum $c $d ~x str") := by decide +kernel
  have hfilled : Text.words (substitute "$a sum $c $d ~x str" hostile.toSource) =
      ["12", "0", "0", "sum", "Infinity", "$d", "~x", "str"] := by decide +kernel
  obtain ⟨parts, hparts, hstands⟩ := hseparate.standsFor_words hostile.toSource
  rw [hwords] at hstands
  exact ⟨parts, hparts, hparts.symm.trans hfilled, hstands⟩

end Reference

end Reckoner
