import Reckoner.Json.Document
import Reckoner.Json.Real
import Reckoner.Proofs.Number.RoundTrip
import Reckoner.Proofs.Reference.Expansion

/-!
# Numbers survive their texts

A number other than the one that is none is what is read from its text, as a datum and as
a word of an expression, but for the sign of zero, and a finite one is what is read from its
text in a document (`Number.texts_lossless`).
-/

namespace Reckoner

open Number (dropZeroSign)

/-! ## Words and data -/

namespace Opcode

/-- The text of a number is the word for this number. -/
theorem ofToken_format {x : Float} (h : x.isNaN = false) :
    ofToken (Number.format x) = .number (dropZeroSign x) := by
  have hread : Number.readChars? (Number.format x).toList = some (dropZeroSign x) :=
    Number.read?_format h
  rw [Program.ofToken_of_isNumeral (Reference.isNumeral_format x), hread]

end Opcode

namespace RawValue

/-- A number as a datum is read as the number of its text. -/
theorem toFloat_ofFloat (x : Float) :
    (ofFloat x).toFloat = Number.readOrZero (Number.format x) := by
  have hne : (Number.format x).isEmpty = false := by
    rw [Bool.eq_false_iff, ne_eq, String.isEmpty_iff]
    intro hempty
    exact (Reference.isNumeral_format x).isWord.1.1 (hempty ▸ rfl)
  simp [toFloat, effective, ofFloat, ofText, hne]

/-- A datum is read as a number, whatever its texts are. -/
theorem isNaN_toFloat (raw : RawValue) : raw.toFloat.isNaN = false := by
  rw [toFloat]
  cases raw.effective with
  | none => exact Number.isNaN_ofBits false (Nat.zero_le _)
  | some s => exact Number.isNaN_readOrZero s

end RawValue

/-! ## Documents -/

namespace Number

theorem toList_write_number (n : Json.Numeral) : (Json.number n).write.toList = n.write := by
  rw [Json.write, Json.tokens, String.toList_ofList, List.flatMap_singleton, Json.Token.write,
    Option.map_some, Option.getD_some]

/-- A finite number in a document is read from its digits. -/
theorem readChars?_write_real {x : Float} (h : x.isFinite = true) :
    readChars? (Json.Numeral.real x).write = some x := by
  obtain ⟨significand, exponent, hparts, hcanonical, hpattern⟩ := parts_of_isFinite h
  have hwrite : (Json.Numeral.real x).write =
      writeFinite .json (isNegative x) significand exponent := by
    rw [Json.Numeral.write, hparts]
  rw [hwrite, readChars?_writeFinite .json _ hcanonical, ← hpattern, ← eq_ofBits]

/-- The text of a finite number in a document is read as the number. -/
theorem read?_write_ofFloat {x : Float} (h : x.isFinite = true) :
    read? (Json.ofFloat x).write = some x := by
  rw [Json.ofFloat, if_pos h, read?, toList_write_number, readChars?_write_real h]

/-- A number is what is read from its text, as a datum and as a word of an expression, but
for the sign of zero. A finite number is also what is read from its text in a document. -/
theorem texts_lossless {x : Float} (h : x.isNaN = false) :
    read? (format x) = some (dropZeroSign x) ∧
      (RawValue.ofFloat x).toFloat = dropZeroSign x ∧
        Opcode.ofToken (format x) = .number (dropZeroSign x) ∧
          (x.isFinite = true → read? (Json.ofFloat x).write = some x) := by
  have hread := read?_format h
  refine ⟨hread, ?_, Opcode.ofToken_format h, read?_write_ofFloat⟩
  rw [RawValue.toFloat_ofFloat, readOrZero, hread, Option.getD_some]

theorem texts_lossless_least :
    (Json.ofFloat (ofBits false 1)).write = "5e-324" ∧ read? "5e-324" = some (ofBits false 1) ∧
      Opcode.ofToken (format (ofBits false 1)) = .number (ofBits false 1) := by
  have hnumber : (ofBits false 1).isNaN = false := by decide +kernel
  have hfinite : (ofBits false 1).isFinite = true := by decide +kernel
  have hsign : dropZeroSign (ofBits false 1) = ofBits false 1 := by decide +kernel
  have hdocument : (Json.ofFloat (ofBits false 1)).write = "5e-324" := by decide +kernel
  obtain ⟨-, -, hword, hread⟩ := texts_lossless hnumber
  rw [hsign] at hword
  rw [hdocument] at hread
  exact ⟨hdocument, hread hfinite, hword⟩

end Number

end Reckoner
