import Reckoner.Proofs.Number.Longest
import Reckoner.Proofs.Registers.Json

/-!
# Texts that are read as doubles

A text of a document is read as a double if it is `NaN`, or if the longest number that it begins
with is rounded to infinity (`Json.real_string`). What is written of the double is one of the
words `NaN`, `Infinity` and `-Infinity`, and it is the text that was read exactly if that was one
of them (`Json.read?_string`). So a text that goes on after `Infinity` is read, and it is written
as another one (`Json.read?_infinityx`).
-/

namespace Reckoner

namespace Number

/-- What is rounded and not finite is the infinity of its sign. -/
theorem eq_infinity_of_isRounded {negative : Bool} {value : Option ℚ} {x : Float}
    (h : IsRounded negative value x) (hfinite : x.isFinite = false) : x = infinity negative := by
  cases h with
  | infinity => rfl
  | nearest hnearest =>
    have hx := eq_infinity (isNaN_ofBits negative hnearest.le) hfinite
    obtain ⟨-, rfl⟩ := ofBits_inj hnearest.le le_rfl hx
    rfl

theorem isFinite_infinity (negative : Bool) : (infinity negative).isFinite = false := by
  cases negative <;> decide +kernel

end Number

namespace Json

open Number (IsLongest IsWritten IsRounded infinity nan)

/-- The texts that are written of doubles which are not finite. -/
def realWords : List String := ["NaN", "Infinity", "-Infinity"]

theorem ofFloat_of_not_finite {x : Float} (h : x.isFinite = false) :
    ofFloat x = .string (Number.format x) :=
  if_neg (Bool.eq_false_iff.1 h)

/-- The words are the texts of what is not finite. -/
theorem mem_realWords {s : String} : s ∈ realWords ↔
    s = Number.format nan ∨ ∃ negative, s = Number.format (infinity negative) := by
  have hnan : Number.format nan = "NaN" := by decide +kernel
  have hpositive : Number.format (infinity false) = "Infinity" := by decide +kernel
  have hnegative : Number.format (infinity true) = "-Infinity" := by decide +kernel
  simp only [realWords, List.mem_cons, List.not_mem_nil, or_false, Bool.exists_bool, hnan,
    hpositive, hnegative]

/-- A text is read as a double if it is `NaN`, or if it begins with a number after its blanks and
the longest such number is rounded to infinity. -/
theorem real_string (s : String) (room : Nat) (x : Float) :
    Shape.real room (.string s) = some x ↔ s = "NaN" ∧ x = nan ∨ ∃ p negative value,
      IsLongest p (Text.trimStart s.toList) ∧ IsWritten negative value p ∧
        IsRounded negative value (infinity negative) ∧ x = infinity negative := by
  rw [Shape.real]
  constructor
  · intro h
    split at h
    · next hword => exact .inl ⟨hword, (Option.some.inj h).symm⟩
    · split at h
      · next y hread =>
        split at h
        · cases h
        · next hfinite =>
          obtain rfl := Option.some.inj h
          obtain ⟨p, negative, value, hp, hwritten, hrounded⟩ := Number.exists_of_readChars? hread
          obtain rfl := Number.eq_infinity_of_isRounded hrounded (Bool.eq_false_iff.2 hfinite)
          exact .inr ⟨p, negative, value, hp, hwritten, hrounded, rfl⟩
      · cases h
  · rintro (⟨rfl, rfl⟩ | ⟨p, negative, value, hp, hwritten, hrounded, rfl⟩)
    · exact if_pos rfl
    · obtain ⟨y, -, hread, hrounded'⟩ := Number.readChars?_of_isLongest hp hwritten
      obtain rfl := hrounded'.unique hrounded
      have hword : s ≠ "NaN" := by
        rintro rfl
        have hnone : Number.readChars? "NaN".toList = none := by decide +kernel
        cases hnone.symm.trans hread
      have hread' : Number.read? s = some (infinity negative) := hread
      rw [if_neg hword, hread']
      simp [Number.isFinite_infinity]

/-- What is read from a text is not finite, and so it is written as a word. -/
theorem ofFloat_of_real_string {s : String} {room : Nat} {x : Float}
    (h : Shape.real room (.string s) = some x) : ∃ word ∈ realWords, ofFloat x = .string word := by
  obtain ⟨-, rfl⟩ | ⟨p, negative, value, -, -, -, rfl⟩ := (real_string s room x).1 h
  · exact ⟨_, mem_realWords.2 (.inl rfl), ofFloat_of_not_finite (by decide +kernel)⟩
  · exact ⟨_, mem_realWords.2 (.inr ⟨negative, rfl⟩),
      ofFloat_of_not_finite (Number.isFinite_infinity negative)⟩

/-- The words are read, and they are written again. -/
theorem real_string_of_mem {s : String} (h : s ∈ realWords) (room : Nat) :
    ∃ x, Shape.real room (.string s) = some x ∧ ofFloat x = .string s := by
  have hformat {x : Float} (hx : x.isFinite = false) :
      ∃ y, Shape.real room (.string (Number.format x)) = some y ∧
        ofFloat y = .string (Number.format x) :=
    ⟨x, real_format hx room, ofFloat_of_not_finite hx⟩
  obtain rfl | ⟨negative, rfl⟩ := mem_realWords.1 h
  · exact hformat (by decide +kernel)
  · exact hformat (Number.isFinite_infinity negative)

/-- Texts are told by what is written of them. -/
theorem write_string_inj {s t : String} (h : (Json.string s).write = (Json.string t).write) :
    s = t := by
  have hread := congrArg parse? h
  rw [parse?_write (.string s), parse?_write (.string t)] at hread
  exact Json.string.inj (Option.some.inj hread)

/-- A document that is a text is read as a double exactly if the text is `NaN`, or if the longest
number that it begins with after its blanks is rounded to infinity. What is written of the double
is then one of the words `NaN`, `Infinity` and `-Infinity`, and the words are read and written
again: what is written has the text that was read exactly if this is one of them. -/
theorem read?_string {document s : String} (h : parse? document = some (.string s)) :
    ((∃ x, Shape.real.read? document = some x) ↔ s = "NaN" ∨ ∃ p negative value,
      IsLongest p (Text.trimStart s.toList) ∧ IsWritten negative value p ∧
        IsRounded negative value (infinity negative)) ∧
    (s ∈ realWords → ∃ x, Shape.real.read? document = some x) ∧
    ∀ x, Shape.real.read? document = some x →
      (∃ word ∈ realWords, (ofFloat x).write = (Json.string word).write) ∧
        ((ofFloat x).write = (Json.string s).write ↔ s ∈ realWords) := by
  have hread : Shape.real.read? document = Shape.real maxDepth (.string s) := by
    rw [Shape.read?, h, Option.bind_some]
  rw [hread]
  refine ⟨⟨?_, ?_⟩, fun hs => ?_, fun x hx => ?_⟩
  · rintro ⟨x, hx⟩
    obtain ⟨hs, -⟩ | ⟨p, negative, value, hp, hwritten, hrounded, -⟩ := (real_string _ _ _).1 hx
    · exact .inl hs
    · exact .inr ⟨p, negative, value, hp, hwritten, hrounded⟩
  · rintro (hs | ⟨p, negative, value, hp, hwritten, hrounded⟩)
    · exact ⟨nan, (real_string _ _ _).2 (.inl ⟨hs, rfl⟩)⟩
    · exact ⟨infinity negative,
        (real_string _ _ _).2 (.inr ⟨p, negative, value, hp, hwritten, hrounded, rfl⟩)⟩
  · obtain ⟨x, hx, -⟩ := real_string_of_mem hs maxDepth
    exact ⟨x, hx⟩
  · obtain ⟨word, hword, hx'⟩ := ofFloat_of_real_string hx
    refine ⟨⟨word, hword, by rw [hx']⟩, ?_, fun hs => ?_⟩
    · intro hwrite
      rw [hx'] at hwrite
      exact write_string_inj hwrite ▸ hword
    · obtain ⟨y, hy, hwrite⟩ := real_string_of_mem hs maxDepth
      obtain rfl : x = y := Option.some.inj (hx.symm.trans hy)
      rw [hwrite]

theorem read?_string_beyond :
    parse? "\" 1e999y\"" = some (.string " 1e999y") ∧
      ∃ x, Shape.real.read? "\" 1e999y\"" = some x ∧
        (ofFloat x).write ≠ (Json.string " 1e999y").write := by
  have hdocument : parse? "\" 1e999y\"" = some (.string " 1e999y") := by
    have hwrite : (Json.string " 1e999y").write = "\" 1e999y\"" := by decide +kernel
    rw [← hwrite, parse?_write (.string _)]
  have htaken : Number.readUnsigned? false ("1e999".toList ++ ['y']) =
      some (infinity false, ['y']) := rfl
  obtain ⟨value, text, htext, hrounded, hsplit⟩ := Number.exists_of_readUnsigned? htaken
  obtain rfl := List.append_cancel_right hsplit
  obtain ⟨haccepts, -, hwritten⟩ := read?_string hdocument
  obtain ⟨x, hx⟩ := haccepts.2 (.inr ⟨_, false, value,
    Number.isLongest_of_readUnsigned? .absent htaken, ⟨_, _, .absent, htext, rfl⟩, hrounded⟩)
  exact ⟨hdocument, x, hx, fun h => absurd ((hwritten x hx).2.1 h) (by decide)⟩

/-- A text that goes on after a word is none of the words, and yet it is read. -/
theorem read?_infinityx :
    parse? "\"Infinityx\"" = some (.string "Infinityx") ∧ "Infinityx" ∉ realWords ∧
      Shape.real.read? "\"Infinityx\"" = some (infinity false) ∧
        (ofFloat (infinity false)).write = "\"Infinity\"" := by
  have hwrite : (Json.string "Infinityx").write = "\"Infinityx\"" := by decide +kernel
  refine ⟨?_, by decide, by decide +kernel, by decide +kernel⟩
  rw [← hwrite, parse?_write (.string _)]

end Json

end Reckoner
