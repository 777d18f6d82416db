import Reckoner.Number.Rounding
import Reckoner.Proofs.Number.Nearest

/-!
# Doubles as rational numbers

What a finite double denotes (`Number.toRat`): its sign and what its pattern denotes
(`Number.toRat_eq`). Finite doubles compare as these numbers do (`Number.le_iff`), and a whole
number times a power of two is one of them if it has 53 binary digits at most and the power is not
too small and not too great (`Number.exists_toRat_eq`).
-/

namespace Reckoner.Number

open Float.Model (Format UnpackedFloat)
open Float.Model.UnpackedFloat (Sign unpackExponent unpackMantissa unpackSign)

variable {x y : Float} {negative : Bool} {bits : Nat}

/-- One, with a sign. -/
def unit (negative : Bool) : ℚ := if negative then -1 else 1

/-- What a finite double denotes; what is not finite counts as zero. -/
def toRat (x : Float) : ℚ :=
  match parts x with
  | .finite negative significand exponent => signed negative significand * 2 ^ exponent
  | _ => 0

theorem abs_unit (negative : Bool) : |unit negative| = 1 := by
  cases negative <;> simp [unit]

theorem unit_mul_unit (a b : Bool) : unit a * unit b = unit (a != b) := by
  cases a <;> cases b <;> simp [unit]

theorem unit_div_unit (a b : Bool) : unit a / unit b = unit (a != b) := by
  cases a <;> cases b <;> simp [unit]

theorem signed_cast (negative : Bool) (significand : Nat) :
    (signed negative significand : ℚ) = unit negative * significand := by
  cases negative <;> simp [signed, unit]

/-! ## Sign and pattern -/

theorem pattern_ofBits (negative : Bool) (h : bits ≤ infinityBits) :
    pattern (ofBits negative bits) = bits := by
  rw [pattern, toBits_ofBits negative h]
  unfold infinityBits at h
  norm_num at h ⊢
  split <;> omega

theorem isNegative_ofBits (negative : Bool) (h : bits ≤ infinityBits) :
    isNegative (ofBits negative bits) = negative := by
  rw [isNegative, toBits_ofBits negative h]
  unfold infinityBits at h
  norm_num at h
  cases negative
  · simpa using by omega
  · simp

/-- A number is finite unless its pattern is that of infinity. -/
theorem isFinite_iff_pattern (h : x.isNaN = false) :
    x.isFinite = true ↔ pattern x < infinityBits := by
  have hle := pattern_le h
  rw [isFinite_iff]
  unfold pattern infinityBits at *
  norm_num at hle ⊢
  omega

/-- A finite double is its sign and what its pattern denotes. -/
theorem toRat_eq (h : x.isFinite = true) :
    toRat x = unit (isNegative x) * magnitude (pattern x) := by
  obtain ⟨significand, exponent, hparts, -, -⟩ := parts_of_isFinite h
  rw [toRat, hparts, magnitude_pattern hparts]
  simp only
  rw [signed_cast, mul_assoc]

theorem magnitude_nonneg (bits : Nat) : 0 ≤ magnitude bits := by
  rw [← magnitude_zero]
  exact magnitude_strictMono.monotone (Nat.zero_le bits)

theorem abs_toRat (h : x.isFinite = true) : |toRat x| = magnitude (pattern x) := by
  rw [toRat_eq h, abs_mul, abs_unit, one_mul, abs_of_nonneg (magnitude_nonneg _)]

theorem isFinite_ofBits (negative : Bool) (h : bits < infinityBits) :
    (ofBits negative bits).isFinite = true := by
  rw [isFinite_iff_pattern (isNaN_ofBits negative h.le), pattern_ofBits negative h.le]
  exact h

theorem toRat_ofBits (negative : Bool) (h : bits < infinityBits) :
    toRat (ofBits negative bits) = unit negative * magnitude bits := by
  rw [toRat_eq (isFinite_ofBits negative h), pattern_ofBits negative h.le,
    isNegative_ofBits negative h.le]

theorem toRat_zero (negative : Bool) : toRat (zero negative) = 0 := by
  rw [zero, toRat_ofBits negative (by decide), magnitude_zero, mul_zero]

/-! ## Unpacked doubles -/

/-- The sign of an unpacked double. -/
def signOf (negative : Bool) : Sign := if negative then .negative else .positive

theorem apply_signOf (negative : Bool) (significand : Nat) :
    (signOf negative).apply significand = signed negative significand := by
  cases negative <;> rfl

/-- A double as a packed word. -/
def word (x : Float) : BitVec Format.binary64.numBits := x.toBits.toBitVec

theorem toNat_word (x : Float) : (word x).toNat = x.toBits.toNat := rfl

theorem ofBitVec_unpackSign (x : Float) :
    Sign.ofBitVec (unpackSign (word x)) = signOf (isNegative x) := by
  have hlt : x.toBits.toNat < 2 ^ 64 := x.toBits.toNat_lt
  have hnat : (unpackSign (word x)).toNat = x.toBits.toNat / 2 ^ 63 % 2 := by
    rw [unpackSign, BitVec.toNat_cast, BitVec.extractLsb_toNat, Nat.shiftRight_eq_div_pow]
    rfl
  have hzero : unpackSign (word x) = 0#1 ↔ isNegative x = false := by
    rw [← BitVec.toNat_inj, hnat, isNegative]
    simp only [BitVec.toNat_ofNat, Nat.pow_eq]
    rw [decide_eq_false_iff_not]
    omega
  unfold Sign.ofBitVec signOf
  by_cases h : isNegative x = true
  · rw [if_neg (by rw [hzero, h]; exact Bool.noConfusion), if_pos h]
  · rw [if_pos (hzero.2 (Bool.eq_false_iff.2 h)), if_neg h]

/-- The two ways in which the fields of a finite double are put together. -/
theorem parts_eq (h : x.isFinite = true) : parts x =
    if x.toBits.toNat / 2 ^ 52 % 2 ^ 11 = 0 then
      .finite (isNegative x) (x.toBits.toNat % 2 ^ 52) (-1074)
    else
      .finite (isNegative x) (2 ^ 52 + x.toBits.toNat % 2 ^ 52)
        ((x.toBits.toNat / 2 ^ 52 % 2 ^ 11 : Nat) - 1075) :=
  if_neg ((isFinite_iff x).1 h)

/-- A finite double is unpacked as its parts, or as a zero. -/
theorem unpack_eq (h : x.isFinite = true) {significand : Nat} {exponent : Int}
    (hparts : parts x = .finite (isNegative x) significand exponent) :
    x.toModel.unpack = if hpos : 0 < significand then
      .finite (signOf (isNegative x)) significand exponent hpos
    else .zero (signOf (isNegative x)) := by
  have hexponent := toNat_unpackExponent (word x)
  have hmantissa := toNat_unpackMantissa (word x)
  have hfinite := (isFinite_iff x).1 h
  rw [parts_eq h] at hparts
  rw [toNat_word] at hexponent hmantissa
  rw [← hexponent] at hparts hfinite
  rw [← hmantissa] at hparts
  have hones : unpackExponent (word x) ≠ -1#_ := by
    intro hones
    rw [hones] at hfinite
    exact hfinite rfl
  change UnpackedFloat.unpack Format.binary64 (word x) = _
  unfold UnpackedFloat.unpack
  simp only [ofBitVec_unpackSign, if_neg hones]
  split
  · next hzero =>
    have he : (unpackExponent (word x)).toNat = 0 := by
      rw [hzero]
      rfl
    rw [if_pos he] at hparts
    obtain ⟨-, rfl, rfl⟩ := Parts.finite.inj hparts
    split
    · next hm => rw [dif_neg (by rw [hm]; decide)]
    · next hm =>
      have hpos := Nat.pos_of_ne_zero fun hm' => hm (BitVec.eq_of_toNat_eq hm')
      rw [dif_pos hpos]
      simp only [he]
      rfl
  · next hnormal =>
    have he : (unpackExponent (word x)).toNat ≠ 0 := fun he => hnormal (BitVec.eq_of_toNat_eq he)
    rw [if_neg he] at hparts
    obtain ⟨-, rfl, rfl⟩ := Parts.finite.inj hparts
    have hbits :
        (1#1 ++ unpackMantissa (word x)).toNat = 2 ^ 52 + (unpackMantissa (word x)).toNat := by
      rw [BitVec.toNat_append]
      change 2 ^ 52 ||| _ = _
      rw [Nat.or_comm, Nat.or_two_pow_eq_add_of_lt (BitVec.isLt _), Nat.add_comm]
    rw [dif_pos (by omega)]
    simp only [hbits]
    rfl

/-- A finite double is unpacked as a zero, or as a significand and an exponent that denote it. -/
theorem unpack_cases (h : x.isFinite = true) :
    toRat x = 0 ∧ x.toModel.unpack = .zero (signOf (isNegative x)) ∨
      ∃ significand exponent hpos,
        x.toModel.unpack = .finite (signOf (isNegative x)) significand exponent hpos ∧
        Canonical significand exponent ∧
        pattern x = significand + (exponent + 1074).toNat * 2 ^ 52 ∧
        toRat x = unit (isNegative x) * significand * 2 ^ exponent := by
  obtain ⟨significand, exponent, hparts, hcanonical, hpattern⟩ := parts_of_isFinite h
  have hunpack := unpack_eq h hparts
  have hrat : toRat x = unit (isNegative x) * significand * 2 ^ exponent := by
    rw [toRat, hparts]
    simp only
    rw [signed_cast]
  split at hunpack
  · next hpos => exact .inr ⟨significand, exponent, hpos, hunpack, hcanonical, hpattern, hrat⟩
  · next hzero =>
    obtain rfl := Nat.eq_zero_of_not_pos hzero
    exact .inl ⟨by rw [hrat]; simp, hunpack⟩

/-! ## Order -/

/-- Of two significands with their exponents the one with the greater pattern counts as greater. -/
theorem Canonical.compare_eq {m n : Nat} {e f : Int} (hm : Canonical m e) (hn : Canonical n f) :
    (compare e f).then (compare m n) =
      compare (m + (e + 1074).toNat * 2 ^ 52) (n + (f + 1074).toNat * 2 ^ 52) := by
  obtain ⟨hmlt, hmleast, -, hmleading⟩ := hm
  obtain ⟨hnlt, hnleast, -, hnleading⟩ := hn
  rcases lt_trichotomy e f with h | rfl | h
  · have hlt : m + (e + 1074).toNat * 2 ^ 52 < n + (f + 1074).toNat * 2 ^ 52 := by omega
    rw [compare_lt_iff_lt.2 h, Nat.compare_eq_lt.2 hlt]
    rfl
  · rw [compare_eq_iff_eq.2 rfl, Ordering.then]
    rcases lt_trichotomy m n with hmn | rfl | hmn
    · rw [Nat.compare_eq_lt.2 hmn, Nat.compare_eq_lt.2 (by omega)]
    · rw [Nat.compare_eq_eq.2 rfl, Nat.compare_eq_eq.2 rfl]
    · rw [Nat.compare_eq_gt.2 hmn, Nat.compare_eq_gt.2 (by omega)]
  · have hgt : n + (f + 1074).toNat * 2 ^ 52 < m + (e + 1074).toNat * 2 ^ 52 := by omega
    rw [compare_gt_iff_gt.2 h, Nat.compare_eq_gt.2 hgt]
    rfl

theorem magnitude_pos (h : 0 < bits) : 0 < magnitude bits :=
  magnitude_zero ▸ magnitude_strictMono h

/-- Finite doubles compare as the numbers that they denote. -/
theorem le_iff (hx : x.isFinite = true) (hy : y.isFinite = true) :
    x ≤ y ↔ toRat x ≤ toRat y := by
  change decide (x.toModel.unpack.le y.toModel.unpack = true) = true ↔ _
  rw [decide_eq_true_eq, UnpackedFloat.le]
  obtain ⟨hxzero, hux⟩ | ⟨m, e, hm, hux, hcm, hpx, -⟩ := unpack_cases hx
  · obtain ⟨hyzero, huy⟩ | ⟨n, f, hn, huy, hcn, hpy, -⟩ := unpack_cases hy
    · rw [hux, huy, hxzero, hyzero]
      simp [UnpackedFloat.compare]
    · have hpos := magnitude_pos (show 0 < pattern y by omega)
      rw [hux, huy, hxzero, toRat_eq hy]
      cases isNegative y <;> simp [UnpackedFloat.compare, signOf, unit, hpos, hpos.le]
  · have hxpos := magnitude_pos (show 0 < pattern x by omega)
    obtain ⟨hyzero, huy⟩ | ⟨n, f, hn, huy, hcn, hpy, -⟩ := unpack_cases hy
    · rw [hux, huy, hyzero, toRat_eq hx]
      cases isNegative x <;> simp [UnpackedFloat.compare, signOf, unit, hxpos, hxpos.le]
    · have hypos := magnitude_pos (show 0 < pattern y by omega)
      have hcompare := hcm.compare_eq hcn
      rw [← hpx, ← hpy] at hcompare
      rw [hux, huy, toRat_eq hx, toRat_eq hy]
      cases isNegative x with
      | false =>
        cases isNegative y with
        | false =>
          simp only [signOf, unit, UnpackedFloat.compare, hcompare, Bool.false_eq_true, if_false,
            one_mul, Option.any_some, Nat.isLE_compare, magnitude_strictMono.le_iff_le]
        | true =>
          simp [signOf, unit, UnpackedFloat.compare]
          linarith
      | true =>
        cases isNegative y with
        | false =>
          simp [signOf, unit, UnpackedFloat.compare]
          linarith
        | true =>
          simp only [signOf, unit, UnpackedFloat.compare, hcompare, if_true, Nat.compare_swap,
            neg_one_mul, Option.any_some, Nat.isLE_compare, neg_le_neg_iff,
            magnitude_strictMono.le_iff_le]

/-! ## Which numbers are doubles -/

/-- A whole number times a power of two can be written with the least exponent, or with a
significand of 53 binary digits. -/
theorem exists_magnitude_eq {significand : Nat} {exponent : Int} (hle : significand ≤ 2 ^ 53)
    (hleast : -1074 ≤ exponent) (hgreatest : exponent ≤ 970) :
    ∃ bits < infinityBits, magnitude bits = significand * 2 ^ exponent := by
  obtain ⟨place, rfl⟩ : ∃ place : Nat, exponent = place - 1074 :=
    ⟨(exponent + 1074).toNat, by omega⟩
  induction place generalizing significand with
  | zero =>
    refine ⟨significand + 0 * 2 ^ 52, ?_, magnitude_place hle (.inl rfl)⟩
    unfold infinityBits
    norm_num at hle ⊢
    omega
  | succ place ih =>
    rcases Nat.lt_or_ge significand (2 ^ 52) with hlow | hhigh
    · have hdouble : 2 * significand ≤ 2 ^ 53 := by omega
      obtain ⟨bits, hlt, heq⟩ := ih hdouble (by omega) (by omega)
      refine ⟨bits, hlt, ?_⟩
      have hexponent : ((place + 1 : Nat) : Int) - 1074 = place - 1074 + 1 := by omega
      rw [heq, hexponent, zpow_add_one₀ two_ne_zero]
      push_cast
      ring
    · refine ⟨significand + (place + 1) * 2 ^ 52, ?_, magnitude_place hle (.inr hhigh)⟩
      unfold infinityBits
      norm_num at hle ⊢
      omega

/-- A whole number is its size with its sign. -/
theorem unit_mul_natAbs (n : Int) : unit (decide (n < 0)) * n.natAbs = n := by
  rcases lt_or_ge n 0 with hneg | hpos
  · rw [unit, decide_eq_true hneg, if_pos rfl, Nat.cast_natAbs, abs_of_neg hneg]
    push_cast
    ring
  · rw [unit, decide_eq_false (not_lt.2 hpos), if_neg Bool.false_ne_true, Nat.cast_natAbs,
      abs_of_nonneg hpos, one_mul]

/-- A whole number of 53 binary digits at most times a power of two is denoted by a double. -/
theorem exists_toRat_eq {n : Int} {exponent : Int} (hle : n.natAbs ≤ 2 ^ 53)
    (hleast : -1074 ≤ exponent) (hgreatest : exponent ≤ 970) :
    ∃ x : Float, x.isFinite = true ∧ toRat x = n * 2 ^ exponent := by
  obtain ⟨bits, hlt, heq⟩ := exists_magnitude_eq hle hleast hgreatest
  refine ⟨ofBits (decide (n < 0)) bits, isFinite_ofBits _ hlt, ?_⟩
  rw [toRat_ofBits _ hlt, heq, ← mul_assoc, unit_mul_natAbs]

end Reckoner.Number
