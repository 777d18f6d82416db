import Reckoner.Proofs.Number.Arithmetic

/-!
# Sums are not the negative zero

A sum of doubles that is zero is the positive zero unless both terms are the negative one: what
cancels out is positive, and any other exact sum is far enough from zero for a double
(`Number.IsRounding.ne_zero`). So sums that begin at zero are never the negative zero
(`Number.sum_ne_zero`).
-/

namespace Reckoner.Number

open Float.Model (Format UnpackedFloat)
open Float.Model.UnpackedFloat (packedZero)

variable {x : Float} {u v : UnpackedFloat} {p q : ℚ}

/-! ## Zeros -/

/-- A zero, as it is unpacked. -/
theorem eq_zero_iff (x : Float) (negative : Bool) : x = zero negative ↔
    x.toModel.unpack = .zero (signOf negative) := by
  have hbits : (zero negative).toModel.toBits.toBitVec =
      packedZero Format.binary64 (signOf negative) := by
    cases negative <;> decide +kernel
  rw [Float.Model.unpack, UnpackedFloat.unpack_eq_zero_iff_of_valid x.toModel.valid, ← hbits]
  constructor
  · rintro rfl
    rfl
  · intro h
    have hbits : x.toBits = (zero negative).toBits := UInt64.toBitVec_inj.1 h
    have hx := congrArg Float.ofBits hbits
    rwa [Float.ofBits_toBits, Float.ofBits_toBits] at hx

/-- The two zeros count as equal, and nothing else is equal to them. -/
theorem beq_zero_iff (x : Float) : (x == zero false) = true ↔ ∃ negative, x = zero negative := by
  have hzero : (zero false).toModel.unpack = .zero .positive := (eq_zero_iff _ false).1 rfl
  change UnpackedFloat.beq x.toModel.unpack (zero false).toModel.unpack = true ↔ _
  simp only [eq_zero_iff, hzero]
  cases x.toModel.unpack with
  | infinity s => cases s <;> simp [UnpackedFloat.beq, UnpackedFloat.compare]
  | notANumber => simp [UnpackedFloat.beq, UnpackedFloat.compare]
  | zero s => cases s <;> simp [UnpackedFloat.beq, UnpackedFloat.compare, signOf]
  | finite s m e hm => cases s <;> simp [UnpackedFloat.beq, UnpackedFloat.compare]

/-- What is at least the least double is not rounded to a zero. -/
theorem IsRounding.ne_zero {n exponent : Int} (h : IsRounding x (n * 2 ^ exponent)) (hn : n ≠ 0)
    (hleast : -1074 ≤ exponent) (negative : Bool) : x ≠ zero negative := by
  rintro rfl
  have hone : magnitude 1 = 2 ^ (-1074 : Int) := by norm_num [magnitude]
  have habs : 1 ≤ |(n : ℚ)| := by exact_mod_cast Int.one_le_abs hn
  have hle : magnitude 1 ≤ |(n : ℚ) * 2 ^ exponent| :=
    calc magnitude 1 = 1 * 2 ^ (-1074 : Int) := by rw [hone, one_mul]
      _ ≤ |(n : ℚ)| * 2 ^ exponent := by
        gcongr
        norm_num
      _ = |(n : ℚ) * 2 ^ exponent| := by rw [abs_mul, abs_zpow, abs_two]
  have hpattern := h.nearest.le_of_magnitude_le (by decide) hle
  rw [zero, pattern_ofBits negative (Nat.zero_le _)] at hpattern
  exact absurd hpattern (by decide)

theorem ofUnpacked_zero_ne : ofUnpacked (.zero (signOf false)) ≠ zero true := by
  rw [ofUnpacked_zero, zero]
  exact fun h => absurd (ofBits_inj (Nat.zero_le _) (Nat.zero_le _) h).1 Bool.false_ne_true

/-! ## Sums -/

/-- What cancels out is the positive zero. -/
theorem normalize_ne_zero (mantissa : Int) {exponent : Int} (hleast : -1074 ≤ exponent) :
    ofUnpacked (UnpackedFloat.normalize Format.binary64 mantissa exponent .positive) ≠
      zero true := by
  by_cases hmantissa : mantissa = 0
  · rw [hmantissa]
    exact ofUnpacked_zero_ne
  · exact (isRounding_normalize mantissa exponent).ne_zero hmantissa hleast true

theorem Denotes.ne_zero {negative : Bool} {significand : Nat} {exponent : Int}
    (hpos : 0 < significand) (hcanonical : Canonical significand exponent) :
    ofUnpacked (.finite (signOf negative) significand exponent hpos) ≠ Number.zero true := by
  have hrounding := (Denotes.finite negative hpos hcanonical).isRounding
  rw [← signed_cast] at hrounding
  refine hrounding.ne_zero ?_ hcanonical.least_le true
  cases negative <;> simp [signed, hpos.ne']

theorem Denotes.add_ne_zero (hu : Denotes u p) (hv : Denotes v q) (hne : u ≠ .zero .negative) :
    ofUnpacked (UnpackedFloat.add Format.binary64 u v) ≠ Number.zero true := by
  cases hu with
  | zero a =>
    cases a with
    | true => exact absurd rfl hne
    | false =>
      cases hv with
      | zero b =>
        have hzero : UnpackedFloat.add Format.binary64 (.zero (signOf false)) (.zero (signOf b)) =
            .zero (signOf false) := by cases b <;> rfl
        rw [hzero]
        exact ofUnpacked_zero_ne
      | finite b hpos hcanonical =>
        rw [add_zero_left]
        exact Denotes.ne_zero hpos hcanonical
  | @finite a m e hm hcm =>
    cases hv with
    | zero b =>
      rw [add_zero_right]
      exact Denotes.ne_zero hm hcm
    | @finite b n f hn hcn =>
      exact normalize_ne_zero _ (le_min hcm.least_le hcn.least_le)

/-- A sum with a term that is not finite is not finite. -/
theorem isFinite_terms (h : (UnpackedFloat.add Format.binary64 u v).isFinite = true) :
    u.isFinite = true ∧ v.isFinite = true := by
  cases u with
  | notANumber => cases h
  | infinity s =>
    cases v with
    | infinity t => cases s <;> cases t <;> cases h
    | _ => cases h
  | _ =>
    cases v with
    | notANumber => cases h
    | infinity t => cases h
    | _ => exact ⟨rfl, rfl⟩

theorem add_ne_zero (hx : x ≠ zero true) (y : Float) : x + y ≠ zero true := by
  intro h
  have hfinite : (UnpackedFloat.add Format.binary64 x.toModel.unpack y.toModel.unpack).isFinite =
      true := by
    by_contra hne
    have hsum : (x + y).isFinite = false := isFinite_ofUnpacked (Bool.eq_false_iff.2 hne)
    rw [h] at hsum
    exact absurd hsum (by decide +kernel)
  obtain ⟨hxfinite, hyfinite⟩ := isFinite_terms hfinite
  rw [ne_eq, eq_zero_iff] at hx
  exact (denotes_unpack hxfinite).add_ne_zero (denotes_unpack hyfinite) hx h

/-- A sum that begins with a number other than the negative zero is another one as well. -/
theorem sum_ne_zero (hx : x ≠ zero true) (ys : List Float) :
    ys.foldl (· + ·) x ≠ zero true := by
  induction ys generalizing x with
  | nil => exact hx
  | cons y ys ih => exact ih (add_ne_zero hx y)

end Reckoner.Number
