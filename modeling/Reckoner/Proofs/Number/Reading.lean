import Mathlib.Algebra.Order.Ring.Int
import Reckoner.Number.Literal
import Reckoner.Proofs.Number.Format
import Reckoner.Proofs.Number.Grammar

/-!
# Reading what has been written

Digits around a point, with an exponent after them or without one, are read as the number
that they denote (`Number.readChars?_joinAtPoint`).
-/

namespace Reckoner.Number

namespace Literal

/-- The text of an exponent is one. -/
theorem isExponent_exponentText (e : Int) : IsExponent e (exponentText e) := by
  have hdigits : AreDigits (Nat.toDigits 10 e.natAbs) := isDigit_of_mem_digits
  have hvalue : Nat.ofDigitChars 10 (Nat.toDigits 10 e.natAbs) 0 = e.natAbs :=
    Nat.ofDigitChars_ten_toDigits
  unfold exponentText
  split
  · next hneg =>
    have hexponent := IsExponent.written (.inl rfl) .minus Nat.toDigits_ne_nil hdigits
    rwa [hvalue, if_pos rfl, Int.ofNat_natAbs_of_nonpos hneg.le, neg_neg] at hexponent
  · next hpos =>
    have hexponent := IsExponent.written (.inl rfl) .plus Nat.toDigits_ne_nil hdigits
    rwa [hvalue, if_neg Bool.false_ne_true, Int.natAbs_of_nonneg (not_lt.1 hpos)] at hexponent

/-- The text of an exponent is scanned as the exponent. -/
theorem scanExponent_exponentText (e : Int) : scanExponent (exponentText e) = (e, []) :=
  scanExponent_eq (isExponent_exponentText e)

theorem isMantissa_joinAtPoint {whole fraction : List Char} (hne : whole ≠ [])
    (hwhole : AreDigits whole) (hfraction : AreDigits fraction) :
    IsMantissa whole fraction (joinAtPoint (whole, fraction)) := by
  cases fraction with
  | nil => exact .whole hne hwhole
  | cons d fraction => exact .pointed hwhole hfraction (.inl hne)

/-- Digits around a point, and the exponent after them, are scanned as they are written. -/
theorem scan_joinAtPoint {whole fraction rest after : List Char} {exponent : Int}
    (hne : whole ≠ []) (hwhole : ∀ c ∈ whole, c.isDigit = true)
    (hfraction : ∀ c ∈ fraction, c.isDigit = true)
    (hrest : ∀ c ∈ rest.head?, c.isDigit = false ∧ c ≠ '.')
    (hexponent : scanExponent rest = (exponent, after)) :
    scan (joinAtPoint (whole, fraction) ++ rest) = some (⟨whole, fraction, exponent⟩, after) := by
  rw [scan, scanMantissa_eq (isMantissa_joinAtPoint hne hwhole hfraction) hrest]
  simp only [hexponent]

end Literal

/-- The digits on both sides of the point are those of the number. -/
theorem ofDigitChars_splitAtPoint (n : Nat) (exponent : Int) :
    let split := splitAtPoint (Nat.toDigits 10 n) exponent
    Nat.ofDigitChars 10 (split.1 ++ split.2) 0 = n * 10 ^ exponent.toNat ∧
      split.2.length = (-exponent).toNat := by
  have hdigits : Nat.ofDigitChars 10 (Nat.toDigits 10 n) 0 = n := Nat.ofDigitChars_ten_toDigits
  unfold splitAtPoint
  simp only
  generalize Nat.toDigits 10 n = digits at hdigits
  split
  · next hexponent =>
    rw [List.append_nil, Nat.ofDigitChars_append, hdigits, Nat.ofDigitChars_replicate_zero,
      Nat.mul_comm]
    exact ⟨rfl, by simp only [List.length_nil]; omega⟩
  · next hexponent =>
    have hnone : exponent.toNat = 0 := by omega
    rw [hnone, Nat.pow_zero, Nat.mul_one]
    split
    · next hplaces =>
      simp only [List.take_append_drop, List.length_drop]
      exact ⟨hdigits, by omega⟩
    · next hplaces =>
      simp only [List.length_append, List.length_replicate, List.singleton_append]
      refine ⟨?_, by omega⟩
      rw [Nat.ofDigitChars_cons, Nat.ofDigitChars_append, Nat.ofDigitChars_replicate_zero]
      simpa using hdigits

theorem scanSign_withSign (negative : Bool) {first : Char} (hfirst : first.isDigit = true)
    (rest : List Char) : Literal.scanSign (Text.trimStart (withSign negative (first :: rest))) =
      (negative, first :: rest) := by
  cases negative with
  | true => rfl
  | false =>
    have hblank : Text.isBlank first = false :=
      (isBlank_of_isNumeralChar (by rw [isNumeralChar, hfirst, Bool.true_or])).1
    have htrim : Text.trimStart (withSign false (first :: rest)) = first :: rest := by
      simp [withSign, Text.trimStart, hblank]
    rw [htrim, Literal.scanSign]
    · intro cs heq
      obtain ⟨rfl, -⟩ := List.cons.inj heq
      cases hfirst
    · intro cs heq
      obtain ⟨rfl, -⟩ := List.cons.inj heq
      cases hfirst

/-- A written number is read as the number of its digits and its exponent. -/
theorem readChars?_joinAtPoint (negative : Bool) {whole fraction rest after : List Char}
    {exponent : Int} (hne : whole ≠ []) (hwhole : ∀ c ∈ whole, c.isDigit = true)
    (hfraction : ∀ c ∈ fraction, c.isDigit = true)
    (hrest : ∀ c ∈ rest.head?, c.isDigit = false ∧ c ≠ '.')
    (hexponent : Literal.scanExponent rest = (exponent, after)) :
    readChars? (withSign negative (joinAtPoint (whole, fraction) ++ rest)) =
      some (Decimal.toFloat negative
        ⟨Nat.ofDigitChars 10 (whole ++ fraction) 0, exponent - fraction.length⟩) := by
  have hscan := Literal.scan_joinAtPoint hne hwhole hfraction hrest hexponent
  obtain ⟨first, others, hjoin, hfirst⟩ : ∃ first others,
      joinAtPoint (whole, fraction) ++ rest = first :: others ∧ first.isDigit = true := by
    obtain ⟨first, whole, rfl⟩ := List.exists_cons_of_ne_nil hne
    have hfirst := hwhole first List.mem_cons_self
    cases fraction with
    | nil => exact ⟨first, _, rfl, hfirst⟩
    | cons d fraction => exact ⟨first, _, rfl, hfirst⟩
  have hword : infinityWord.isPrefixOf (first :: others) = false := by
    have hne : 'I' ≠ first := by
      rintro rfl
      cases hfirst
    rw [infinityWord, List.isPrefixOf, beq_false_of_ne hne]
    rfl
  rw [hjoin] at hscan ⊢
  rw [readChars?, scanSign_withSign negative hfirst]
  simp only [hword, hscan]
  simp [Literal.toDecimal]

/-- Digits around a point are read as the number of the digits. -/
theorem readChars?_point (negative : Bool) {whole fraction : List Char} (hne : whole ≠ [])
    (hwhole : ∀ c ∈ whole, c.isDigit = true) (hfraction : ∀ c ∈ fraction, c.isDigit = true) :
    readChars? (withSign negative (joinAtPoint (whole, fraction))) =
      some (Decimal.toFloat negative
        ⟨Nat.ofDigitChars 10 (whole ++ fraction) 0, -fraction.length⟩) := by
  have hread := readChars?_joinAtPoint negative hne hwhole hfraction
    (fun c (hc : c ∈ ([] : List Char).head?) => nomatch hc) rfl
  rwa [List.append_nil, Int.zero_sub] at hread

/-- A decimal number that is written with an exponent is read as the same number. -/
theorem readChars?_exponentText (negative : Bool) (d : Decimal) :
    let digits := Nat.toDigits 10 d.digits
    readChars? (withSign negative (joinAtPoint (digits.take 1, digits.drop 1) ++
      exponentText (d.exponent + digits.length - 1))) = some (d.toFloat negative) := by
  have hvalue : Nat.ofDigitChars 10 (Nat.toDigits 10 d.digits) 0 = d.digits :=
    Nat.ofDigitChars_ten_toDigits
  have hdigit := isDigit_of_mem_digits (n := d.digits)
  have hne : Nat.toDigits 10 d.digits ≠ [] := Nat.toDigits_ne_nil
  generalize Nat.toDigits 10 d.digits = digits at *
  have hmark : ∀ c ∈ (exponentText (d.exponent + digits.length - 1)).head?,
      c.isDigit = false ∧ c ≠ '.' := by
    intro c hc
    obtain rfl := Option.some.inj hc
    decide
  have hfirst : digits.take 1 ≠ [] := by simp [hne]
  have hpos := List.length_pos_iff.2 hne
  have hexponent : d.exponent + digits.length - 1 - (digits.drop 1).length = d.exponent := by
    rw [List.length_drop]
    omega
  simp only
  rw [readChars?_joinAtPoint negative hfirst (fun c hc => hdigit c (List.mem_of_mem_take hc))
      (fun c hc => hdigit c (List.mem_of_mem_drop hc)) hmark
      (Literal.scanExponent_exponentText _),
    List.take_append_drop, hvalue, hexponent]

end Reckoner.Number
