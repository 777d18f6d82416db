import Reckoner.Proofs.Number.Nearest
import Reckoner.Proofs.Number.Reading

/-!
# Numbers as texts and back

A finite number is read from its text in whatever style it is written
(`Number.readChars?_writeFinite`). The text of a number in an expression is read as this
number, and that of a zero as the positive one (`Number.read?_format`). So a number that is
written and read again has the same text (`Number.format_readOrZero_format`).
-/

namespace Reckoner.Number

namespace Decimal

/-- The digits on both sides of the point are rounded as the number is. -/
theorem bits_splitAtPoint {d : Decimal} {whole fraction : List Char}
    (hsplit : splitAtPoint (Nat.toDigits 10 d.digits) d.exponent = (whole, fraction)) :
    bits ⟨Nat.ofDigitChars 10 (whole ++ fraction) 0, -fraction.length⟩ = d.bits := by
  obtain ⟨hvalue, hlength⟩ := ofDigitChars_splitAtPoint d.digits d.exponent
  rw [hsplit] at hvalue hlength
  refine bits_congr ?_
  rw [toRat, toRat, zpow_eq_div 10 d.exponent, ← hlength, hvalue, zpow_neg, zpow_natCast]
  push_cast
  ring

/-- A fraction of `0` does not change how a whole number is rounded. -/
theorem bits_append_zero (whole : List Char) :
    bits ⟨Nat.ofDigitChars 10 (whole ++ ['0']) 0, -1⟩ = bits ⟨Nat.ofDigitChars 10 whole 0, 0⟩ := by
  have hzero : Nat.ofDigitChars 10 (whole ++ ['0']) 0 = 10 * Nat.ofDigitChars 10 whole 0 := by
    rw [Nat.ofDigitChars_append]
    rfl
  refine bits_congr ?_
  rw [toRat, toRat, hzero]
  push_cast
  ring

/-- A whole number in decimal digits is rounded like the number. -/
theorem bits_whole (n : Nat) : bits ⟨n, 0⟩ = nearest n 1 := by
  unfold bits
  by_cases hzero : n = 0
  · rw [if_pos hzero, hzero]
    rfl
  · have hlarge : ¬(0 : Int) > 400 := by decide
    have hsmall : ¬(0 : Int) + (n.log2 : Int) < -400 := by omega
    rw [if_neg hzero, if_neg hlarge, if_neg hsmall]
    show nearest (n * 1) 1 = nearest n 1
    rw [Nat.mul_one]

end Decimal

theorem bits_writtenDecimal (tie : Tie) {significand : Nat} {exponent : Int}
    (h : Canonical significand exponent) :
    (writtenDecimal tie significand exponent).bits =
      significand + (exponent + 1074).toNat * 2 ^ 52 := by
  unfold writtenDecimal
  split
  · next hzero =>
    have hleast := h.leading.resolve_right (by omega)
    rw [hzero, hleast]
    rfl
  · rw [shortest]
    exact (Decimal.bits_search tie rfl _).trans (Decimal.bits_ofScaled h)

/-! ## Reading a written double -/

theorem readChars?_infinity (negative : Bool) :
    readChars? (withSign negative infinityWord) = some (infinity negative) := by
  cases negative <;> rfl

theorem infinity_ne_zero (negative : Bool) : infinity negative ≠ zero true := by
  cases negative <;> decide +kernel

/-- A decimal number is read, in whatever style it is written, as the double nearest to it. -/
theorem readChars?_write (style : Style) (negative : Bool) (d : Decimal) :
    readChars? (withSign negative (d.write style)) = some (ofBits negative d.bits) := by
  unfold Decimal.write
  simp only
  split
  · obtain ⟨hne, hwhole, hfraction⟩ := splitAtPoint_spec
      (Nat.toDigits_ne_nil (n := d.digits) (b := 10)) isDigit_of_mem_digits d.exponent
    cases hsplit : splitAtPoint (Nat.toDigits 10 d.digits) d.exponent with
    | mk whole fraction =>
      have hbits := Decimal.bits_splitAtPoint hsplit
      rw [hsplit] at hne hwhole hfraction
      cases fraction with
      | nil =>
        simp only
        split
        · rw [readChars?_point negative hne hwhole (List.forall_mem_singleton.2 rfl),
            Decimal.toFloat, ← hbits, List.append_nil]
          exact congrArg (some ∘ ofBits negative) (Decimal.bits_append_zero whole)
        · rw [readChars?_point negative hne hwhole hfraction, Decimal.toFloat, hbits]
      | cons c fraction =>
        simp only
        rw [readChars?_point negative hne hwhole hfraction, Decimal.toFloat, hbits]
  · exact readChars?_exponentText negative d

/-- The digits of a whole number are read as the nearest double. -/
theorem readChars?_whole (negative : Bool) (n : Nat) :
    readChars? (withSign negative (Nat.toDigits 10 n)) = some (ofRatio negative n 1) := by
  have hread := readChars?_point negative Nat.toDigits_ne_nil (isDigit_of_mem_digits (n := n))
    (List.forall_mem_nil _)
  have hvalue : Nat.ofDigitChars 10 (Nat.toDigits 10 n ++ []) 0 = n := by
    rw [List.append_nil]
    exact Nat.ofDigitChars_ten_toDigits
  rw [hvalue] at hread
  refine hread.trans (congrArg some ?_)
  show ofBits negative (Decimal.bits ⟨n, 0⟩) = _
  rw [Decimal.bits_whole, ofRatio]

/-- The text of a finite double is read as the double with its pattern. -/
theorem readChars?_writeFinite (style : Style) (negative : Bool) {significand : Nat}
    {exponent : Int} (h : Canonical significand exponent) :
    readChars? (writeFinite style negative significand exponent) =
      some (ofBits negative (significand + (exponent + 1074).toNat * 2 ^ 52)) := by
  rw [writeFinite, readChars?_write, bits_writtenDecimal style.tie h]

/-- The number, with the positive zero for the negative one. -/
def dropZeroSign (x : Float) : Float :=
  if x = zero true then zero false else x

/-- The text of a number is read as the number, and that of zero as the positive one. -/
theorem read?_format {x : Float} (h : x.isNaN = false) :
    read? (format x) = some (dropZeroSign x) := by
  have hx := eq_ofBits x
  rw [read?, format, String.toList_ofList, formatChars, dropZeroSign]
  rcases parts_cases h with
    ⟨hpattern, hparts⟩ | ⟨significand, exponent, hparts, hcanonical, hpattern⟩
  · rw [hpattern] at hx
    have hne : x ≠ zero true := by
      rw [hx]
      exact infinity_ne_zero _
    rw [hparts, if_neg hne]
    exact (readChars?_infinity _).trans (congrArg some hx.symm)
  · rw [hparts]
    simp only
    rw [readChars?_writeFinite .plain _ hcanonical, ← hpattern]
    by_cases hzero : significand = 0
    · have hleast := hcanonical.leading.resolve_right (by omega)
      rw [hzero, hleast] at hpattern
      rw [hpattern] at hx ⊢
      rw [hzero]
      generalize isNegative x = negative at hx
      subst hx
      cases negative with
      | true => decide +kernel
      | false => decide +kernel
    · have hne : x ≠ zero true := by
        rintro rfl
        have hparts' : parts (zero true) = .finite true 0 (-1074) := by decide +kernel
        rw [hparts'] at hparts
        exact hzero (Parts.finite.inj hparts).2.1.symm
      have hsign : (isNegative x && significand != 0) = isNegative x := by simp [hzero]
      rw [hsign, ← hx, if_neg hne]

theorem format_readOrZero_format {x : Float} (h : x.isNaN = false) :
    format (readOrZero (format x)) = format x := by
  rw [readOrZero, read?_format h, Option.getD_some, dropZeroSign]
  split
  · next hzero =>
    rw [hzero]
    decide +kernel
  · rfl

/-- Where a number has to be read, the text of one that is none counts as zero. -/
theorem readOrZero_format {x : Float} (hx : x ≠ zero true) :
    readOrZero (format x) = if x.isNaN then zero false else x := by
  cases hnan : x.isNaN with
  | true =>
    have htext : format x = "NaN" := by rw [format, formatChars, parts_of_isNaN hnan]
    rw [htext]
    exact Option.getD_none
  | false =>
    rw [readOrZero, read?_format hnan, dropZeroSign, if_neg hx]
    rfl

theorem isNaN_of_read? {s : String} {x : Float} (h : read? s = some x) : x.isNaN = false := by
  unfold read? readChars? at h
  simp only at h
  split at h
  · rw [← Option.some.inj h]
    exact isNaN_ofBits _ (Nat.le_refl _)
  · split at h
    · cases h
    · rw [← Option.some.inj h]
      exact isNaN_ofBits _ (Decimal.bits_le _)

theorem isNaN_readOrZero (s : String) : (readOrZero s).isNaN = false := by
  rw [readOrZero]
  cases hread : read? s with
  | none => exact isNaN_ofBits false (Nat.zero_le _)
  | some x => exact isNaN_of_read? hread

end Reckoner.Number
