import Reckoner.Proofs.Number.Exact

/-!
# Arithmetic is rounded exactly

The sum, the difference, the product and the quotient of two finite doubles are the doubles nearest
to the exact ones (`Number.isRounding_add` and its like), as `Number.IsRounding` says. A significand
that is too long is shifted right, and two bits are kept of what is lost. These tell all that is
needed of the fraction (`Number.Truncates`), so what it is rounded to is the nearest pattern
(`Number.isRounding_roundWithAccuracy`). No finite double is nearer to the exact number
(`Number.IsRounding.closest`), and one that equals it is the result (`Number.IsRounding.exact`).
-/

namespace Reckoner.Number

open Float.Model (Format UnpackedFloat totalExponent)
open Float.Model.UnpackedFloat (Sign Accuracy ExtendedMantissa packComponents)

variable {x y : Float} {q : ℚ}

/-! ## The double nearest to a number -/

/-- A double is the nearest one to a number and has its sign; a zero has either sign. -/
structure IsRounding (x : Float) (q : ℚ) : Prop where
  isNaN : x.isNaN = false
  nearest : IsNearest (pattern x) |q|
  negative : q < 0 → isNegative x = true
  positive : 0 < q → isNegative x = false

theorem isRounding_ofBits (negative : Bool) {bits : Nat} {r : ℚ} (h : IsNearest bits r)
    (hr : 0 ≤ r) : IsRounding (ofBits negative bits) (unit negative * r) where
  isNaN := isNaN_ofBits negative h.le
  nearest := by
    rw [pattern_ofBits negative h.le, abs_mul, abs_unit, one_mul, abs_of_nonneg hr]
    exact h
  negative hneg := by
    rw [isNegative_ofBits negative h.le]
    cases negative with
    | true => rfl
    | false => exact absurd hneg (by simp [unit, hr])
  positive hpos := by
    rw [isNegative_ofBits negative h.le]
    cases negative with
    | true => exact absurd hpos (by simp [unit, hr])
    | false => rfl

/-- A finite double is the nearest one to what it denotes. -/
theorem isRounding_toRat (h : x.isFinite = true) : IsRounding x (toRat x) := by
  have hnan := isNaN_of_isFinite h
  have hbits := isRounding_ofBits (isNegative x)
    (isNearest_magnitude (pattern_le hnan)) (magnitude_nonneg _)
  rwa [← eq_ofBits, ← toRat_eq h] at hbits

theorem isRounding_ofRatio (negative : Bool) (num : Nat) {den : Nat} (hden : den ≠ 0) :
    IsRounding (ofRatio negative num den) (unit negative * (num / den)) :=
  isRounding_ofBits negative (isNearest_nearest num hden) (by positivity)

theorem isRounding_ofInt (n : Int) : IsRounding (ofInt n) n := by
  have hrounding := isRounding_ofRatio (decide (n < 0)) n.natAbs one_ne_zero
  rwa [Nat.cast_one, div_one, unit_mul_natAbs] at hrounding

theorem isRounding_ofNat (n : Nat) : IsRounding (ofNat n) n := by
  have hrounding := isRounding_ofRatio false n one_ne_zero
  rwa [Nat.cast_one, div_one, unit, if_neg Bool.false_ne_true, one_mul] at hrounding

namespace IsRounding

variable {z : Float}

/-- What is rounded to a finite double is below the middle between the greatest of them and the
power of two after it. -/
theorem isFinite_iff (h : IsRounding x q) : x.isFinite = true ↔ |q| < overflow := by
  rw [isFinite_iff_pattern h.isNaN, h.nearest.lt_infinityBits_iff]

/-- What is no further from zero than a finite double is rounded to one. -/
theorem isFinite_of_abs_le (h : IsRounding x q) (hz : z.isFinite = true) (hle : |q| ≤ |toRat z|) :
    x.isFinite = true :=
  h.isFinite_iff.2 (hle.trans_lt ((isRounding_toRat hz).isFinite_iff.1 hz))

/-- No finite double is nearer. -/
theorem closest (h : IsRounding x q) (hx : x.isFinite = true) (hz : z.isFinite = true) :
    |toRat x - q| ≤ |toRat z - q| := by
  have hdistance : |toRat x - q| = |magnitude (pattern x) - (|q|)| := by
    rw [toRat_eq hx]
    rcases lt_trichotomy q 0 with hneg | rfl | hpos
    · rw [h.negative hneg, unit, if_pos rfl, abs_of_neg hneg, ← abs_neg]
      ring_nf
    · rw [sub_zero, abs_zero, sub_zero, abs_mul, abs_unit, one_mul]
    · rw [h.positive hpos, unit, if_neg Bool.false_ne_true, one_mul, abs_of_pos hpos]
  calc |toRat x - q| ≤ |magnitude (pattern z) - (|q|)| :=
        hdistance.trans_le (h.nearest.closest _ (pattern_le (isNaN_of_isFinite hz)))
    _ = |(|toRat z|) - (|q|)| := by rw [abs_toRat hz]
    _ ≤ |toRat z - q| := abs_abs_sub_abs_le _ _

/-- Zero is a double, so rounding at most doubles a number. -/
theorem abs_le (h : IsRounding x q) (hx : x.isFinite = true) : |toRat x| ≤ 2 * |q| := by
  have hclosest := h.closest hx (isFinite_ofBits false (by decide : 0 < infinityBits))
  have hzero : toRat (ofBits false 0) = 0 := toRat_zero false
  rw [hzero, zero_sub, abs_neg] at hclosest
  have htriangle := abs_add_le (toRat x - q) q
  rw [sub_add_cancel] at htriangle
  linarith

/-- A number that a double denotes is rounded to that double or to the other zero. -/
theorem exact (h : IsRounding x (toRat z)) (hz : z.isFinite = true) :
    x.isFinite = true ∧ toRat x = toRat z := by
  have hx := h.isFinite_of_abs_le hz le_rfl
  have hclosest := h.closest hx hz
  rw [sub_self, abs_zero, abs_nonpos_iff, sub_eq_zero] at hclosest
  exact ⟨hx, hclosest⟩

/-- The same of a number that is told by 53 binary digits. -/
theorem exact_scaled (h : IsRounding x q) {n exponent : Int} (hq : q = n * 2 ^ exponent)
    (hle : n.natAbs ≤ 2 ^ 53) (hleast : -1074 ≤ exponent) (hgreatest : exponent ≤ 970) :
    x.isFinite = true ∧ toRat x = q := by
  obtain ⟨z, hz, hrat⟩ := exists_toRat_eq hle hleast hgreatest
  rw [hq, ← hrat] at h ⊢
  exact h.exact hz

theorem exact_intCast {n : Int} (h : IsRounding x n) (hle : n.natAbs ≤ 2 ^ 53) :
    x.isFinite = true ∧ toRat x = n :=
  h.exact_scaled (by rw [zpow_zero, mul_one]) hle (by decide) (by decide)

/-- Rounding does not pass a double. -/
theorem le_toRat (h : IsRounding x q) (hx : x.isFinite = true) (hz : z.isFinite = true)
    (hle : toRat z ≤ q) : toRat z ≤ toRat x := by
  have hclosest := h.closest hx hz
  by_contra hlt
  rw [abs_of_nonpos (by linarith), abs_of_nonpos (by linarith)] at hclosest
  linarith

end IsRounding

theorem toRat_ofInt {n : Int} (h : n.natAbs ≤ 2 ^ 53) :
    (ofInt n).isFinite = true ∧ toRat (ofInt n) = n :=
  (isRounding_ofInt n).exact_intCast h

theorem toRat_ofNat {n : Nat} (h : n ≤ 2 ^ 53) :
    (ofNat n).isFinite = true ∧ toRat (ofNat n) = n := by
  have hrounding := isRounding_ofNat n
  rw [← Int.cast_natCast] at hrounding ⊢
  exact hrounding.exact_intCast h

/-! ## Lost bits -/

/-- A mantissa and its two further bits tell how many halves go into a fraction, and whether that
is all. -/
structure Truncates (em : ExtendedMantissa) (num den : Nat) : Prop where
  le : (2 * em.mantissa + em.roundBit.toNat) * den ≤ 2 * num
  lt : 2 * num < (2 * em.mantissa + em.roundBit.toNat + 1) * den
  exact_iff : em.stickyBit = false ↔ (2 * em.mantissa + em.roundBit.toNat) * den = 2 * num

variable {em : ExtendedMantissa} {num den : Nat}

theorem Truncates.den_pos (h : Truncates em num den) : 0 < den := by
  refine Nat.pos_of_ne_zero fun hden => ?_
  have hlt := h.lt
  rw [hden, Nat.mul_zero] at hlt
  exact Nat.not_lt_zero _ hlt

theorem truncates_exact (mantissa : Nat) :
    Truncates (ExtendedMantissa.ofMantissaAndAccuracy mantissa .exact) mantissa 1 := by
  constructor <;> simp [ExtendedMantissa.ofMantissaAndAccuracy]

/-- The bits that a shift drops become the further bits. -/
theorem Truncates.shiftRightOne (h : Truncates em num den) :
    Truncates em.shiftRightOne num (den * 2) := by
  have hden := h.den_pos
  obtain ⟨mantissa, roundBit, stickyBit⟩ := em
  obtain ⟨hle, hlt, hexact⟩ := h
  have hbits : 2 * (mantissa / 2) + (mantissa % 2 != 0).toNat = mantissa := by
    rcases Nat.mod_two_eq_zero_or_one mantissa with hmod | hmod <;> simp [hmod] <;> omega
  simp only [Nat.add_mul, Nat.mul_assoc, Nat.one_mul] at hle hlt hexact
  constructor
  · simp only [ExtendedMantissa.shiftRightOne, hbits, Nat.mul_left_comm mantissa, Nat.mul_comm den]
    omega
  · simp only [ExtendedMantissa.shiftRightOne, hbits, Nat.add_mul, Nat.mul_comm den,
      Nat.mul_left_comm mantissa]
    cases roundBit <;> simp at hlt ⊢ <;> omega
  · simp only [ExtendedMantissa.shiftRightOne, hbits, Nat.mul_comm den, Nat.mul_left_comm mantissa]
    cases roundBit with
    | false => simpa using hexact
    | true =>
      simp at hle ⊢
      omega

theorem Truncates.shiftRight (h : Truncates em num den) (n : Nat) :
    Truncates (em >>> n) num (den * 2 ^ n) := by
  induction n with
  | zero =>
    rw [Nat.pow_zero, Nat.mul_one]
    exact h
  | succ n ih =>
    rw [Nat.pow_succ, ← Nat.mul_assoc]
    exact ih.shiftRightOne

theorem Truncates.mantissa_eq (h : Truncates em num den) : em.mantissa = num / den := by
  obtain ⟨mantissa, roundBit, stickyBit⟩ := em
  obtain ⟨hle, hlt, -⟩ := h
  simp only [Nat.add_mul, Nat.mul_assoc, Nat.one_mul] at hle hlt
  refine (Nat.div_eq_of_lt_le ?_ ?_).symm
  · simp only
    omega
  · rw [Nat.succ_mul]
    cases roundBit <;> simp at hlt <;> simp only <;> omega

/-- What the further bits round a mantissa to is what the fraction is rounded to. -/
theorem Truncates.roundedMantissa_eq (h : Truncates em num den) :
    em.roundedMantissa = divHalfEven num den := by
  have hden := h.den_pos
  have hdiv := h.mantissa_eq
  have hsplit := Nat.div_add_mod num den
  obtain ⟨mantissa, roundBit, stickyBit⟩ := em
  obtain ⟨hle, hlt, hexact⟩ := h
  simp only at hdiv
  rw [divHalfEven, ← hdiv]
  rw [← hdiv, Nat.mul_comm] at hsplit
  simp only [Nat.add_mul, Nat.mul_assoc, Nat.one_mul] at hle hlt hexact
  cases roundBit with
  | false =>
    have hless : 2 * (num % den) < den := by
      simp at hlt
      omega
    rw [Nat.compare_eq_lt.2 hless]
    cases stickyBit <;> rfl
  | true =>
    cases stickyBit with
    | false =>
      have hhalf : 2 * (num % den) = den := by
        simp at hexact
        omega
      rw [Nat.compare_eq_eq.2 hhalf]
      rfl
    | true =>
      have hmore : den < 2 * (num % den) := by
        simp at hexact hle
        omega
      rw [Nat.compare_eq_gt.2 hmore]
      rfl

/-! ## Packing -/

/-- A packed double. -/
def ofUnpacked (u : UnpackedFloat) : Float := .ofModel (.pack u)

theorem toNat_append {m n : Nat} (high : BitVec m) (low : BitVec n) :
    (high ++ low).toNat = high.toNat * 2 ^ n + low.toNat := by
  rw [BitVec.toNat_append, ← Nat.shiftLeft_add_eq_or_of_lt low.isLt, Nat.shiftLeft_eq]

theorem toNat_packComponents (negative : Bool) (exponent : BitVec 11) (mantissa : BitVec 52) :
    (packComponents Format.binary64 (signOf negative) exponent mantissa).toNat =
      (if negative then 2 ^ 63 else 0) + (exponent.toNat * 2 ^ 52 + mantissa.toNat) := by
  have hfields : (packComponents Format.binary64 (signOf negative) exponent mantissa).toNat =
      ((signOf negative).toBitVec.toNat * 2 ^ 11 + exponent.toNat) * 2 ^ 52 + mantissa.toNat :=
    (toNat_append _ _).trans (congrArg (· * 2 ^ 52 + mantissa.toNat) (toNat_append _ _))
  rw [hfields]
  cases negative with
  | false =>
    have hsign : (signOf false).toBitVec.toNat = 0 := rfl
    rw [hsign, if_neg Bool.false_ne_true]
    omega
  | true =>
    have hsign : (signOf true).toBitVec.toNat = 1 := rfl
    rw [hsign, if_pos rfl]
    omega

/-- How far the exponent of a pattern lies above that of its last binary digit. -/
theorem add_bias_eq (e : Int) : e + (Format.binary64.exponentBias : Int) +
    (Format.binary64.mantissaBitsWithoutImplicit : Int) = e + 1075 :=
  Int.add_assoc e 1023 52

/-- A double is told by its pattern as a packed word. -/
theorem ofUnpacked_eq {u : UnpackedFloat} {negative : Bool} {bits : Nat}
    (h : bits ≤ infinityBits) (hpack : (UnpackedFloat.pack Format.binary64 u).toNat =
      (if negative then 2 ^ 63 else 0) + bits) : ofUnpacked u = ofBits negative bits := by
  have hnat : (ofUnpacked u).toBits.toNat = (ofBits negative bits).toBits.toNat := by
    rw [toBits_ofBits negative h]
    change (UnpackedFloat.pack Format.binary64 u).toNat = _
    rw [hpack]
    cases negative <;> simp
  rw [← Float.ofBits_toBits (ofUnpacked u), UInt64.toNat_inj.1 hnat, Float.ofBits_toBits]

theorem ofUnpacked_zero (negative : Bool) :
    ofUnpacked (.zero (signOf negative)) = ofBits negative 0 :=
  ofUnpacked_eq (Nat.zero_le _) (toNat_packComponents negative 0 0)

/-- A significand with an exponent has the pattern that they tell, or that of infinity. -/
theorem ofUnpacked_finite (negative : Bool) {significand : Nat} {exponent : Int}
    (hpos : 0 < significand) (hlt : significand < 2 ^ 53) (hleast : -1074 ≤ exponent)
    (hleading : exponent = -1074 ∨ 2 ^ 52 ≤ significand) :
    ofUnpacked (.finite (signOf negative) significand exponent hpos) =
      ofBits negative (min (significand + (exponent + 1074).toNat * 2 ^ 52) infinityBits) := by
  refine ofUnpacked_eq (Nat.min_le_right _ _) ?_
  unfold UnpackedFloat.pack infinityBits
  simp only [add_bias_eq exponent]
  split
  · next hinfinite =>
    have hgreat : 2048 ≤ (exponent + 1075).toNat + 1 := hinfinite
    rw [UnpackedFloat.packedInfinity, toNat_packComponents, Nat.min_eq_right]
    · rfl
    · norm_num
      omega
  · next hfinite =>
    have hless : (exponent + 1075).toNat + 1 < 2048 := Nat.lt_of_not_le hfinite
    have hmin : significand + (exponent + 1074).toNat * 2 ^ 52 ≤ 2047 * Nat.pow 2 52 := by
      norm_num at hlt ⊢
      omega
    rw [Nat.min_eq_left hmin]
    split
    · next hnormal =>
      have hlog : significand.log2 = 52 := Nat.succ.inj hnormal
      have hhigh : 2 ^ 52 ≤ significand := hlog ▸ Nat.log2_self_le hpos.ne'
      rw [toNat_packComponents, BitVec.toNat_ofNat, BitVec.toNat_ofNat]
      omega
    · next hsubnormal =>
      have hlow : significand < 2 ^ 52 := by
        have hne : significand.log2 ≠ 52 := fun h => hsubnormal (congrArg Nat.succ h)
        have hlog : significand.log2 < 53 := (Nat.log2_lt hpos.ne').2 hlt
        exact (Nat.log2_lt hpos.ne').1 (by omega)
      rw [toNat_packComponents, BitVec.toNat_ofNat, BitVec.toNat_ofNat]
      omega

/-! ## Rounding -/

theorem targetExponent_eq (total : Int) :
    Format.binary64.targetExponent total = max (total - 53) (-1074) := rfl

theorem mantissa_shiftRight (em : ExtendedMantissa) (n : Nat) :
    (em >>> n).mantissa = em.mantissa / 2 ^ n := by
  induction n with
  | zero => exact (Nat.div_one _).symm
  | succ n ih =>
    have hstep : (em >>> (n + 1)).mantissa = (em >>> n).mantissa / 2 := rfl
    rw [hstep, ih, Nat.div_div_eq_div_mul, Nat.pow_succ]

theorem mantissa_ofMantissaAndAccuracy (mantissa : Nat) (accuracy : Accuracy) :
    (ExtendedMantissa.ofMantissaAndAccuracy mantissa accuracy).mantissa = mantissa := by
  cases accuracy with
  | exact => rfl
  | inexact o => cases o <;> rfl

/-- How many binary digits of a significand are shifted out. -/
def shiftedOut (mantissa : Nat) (exponent : Int) : Nat :=
  (max (totalExponent mantissa exponent - 53) (-1074) - exponent).toNat

theorem shiftToTargetExponent_eq (mantissa : Nat) (exponent : Int) (accuracy : Accuracy) :
    UnpackedFloat.shiftToTargetExponent Format.binary64 mantissa exponent accuracy =
      (ExtendedMantissa.ofMantissaAndAccuracy mantissa accuracy >>> shiftedOut mantissa exponent,
        exponent + shiftedOut mantissa exponent) :=
  rfl

/-- A significand that rounding has brought to 54 binary digits gives up the last one; no other
is shifted. -/
theorem shift_rounded (mantissa : Nat) {exponent : Int} (hle : mantissa ≤ 2 ^ 53)
    (hleast : -1074 ≤ exponent) (hleading : exponent = -1074 ∨ 2 ^ 52 ≤ mantissa) :
    ∃ em e, UnpackedFloat.shiftToTargetExponent Format.binary64 mantissa exponent .exact = (em, e) ∧
      em.mantissa < 2 ^ 53 ∧ -1074 ≤ e ∧ (e = -1074 ∨ 2 ^ 52 ≤ em.mantissa) ∧
      em.mantissa + (e + 1074).toNat * 2 ^ 52 =
        mantissa + (exponent + 1074).toNat * 2 ^ 52 := by
  refine ⟨_, _, shiftToTargetExponent_eq mantissa exponent .exact, ?_⟩
  rw [mantissa_shiftRight, mantissa_ofMantissaAndAccuracy]
  rcases hle.lt_or_eq with hlt | rfl
  · have hlog : mantissa.log2 ≤ 52 := by
      by_cases hzero : mantissa = 0
      · rw [hzero]
        decide
      · exact Nat.lt_succ_iff.1 ((Nat.log2_lt hzero).2 hlt)
    have hnone : shiftedOut mantissa exponent = 0 := by
      rw [shiftedOut, totalExponent]
      omega
    rw [hnone, Nat.pow_zero, Nat.div_one, Nat.cast_zero, add_zero]
    exact ⟨hlt, hleast, hleading, rfl⟩
  · have hone : shiftedOut (2 ^ 53) exponent = 1 := by
      rw [shiftedOut, totalExponent, Nat.log2_two_pow]
      omega
    rw [hone]
    norm_num
    omega

variable {mantissa : Nat} {exponent : Int} {accuracy : Accuracy}

/-- A significand that is shifted to 53 binary digits has them all unless its exponent is the
least one. -/
theorem div_shiftedOut (hroom : exponent ≤ max (totalExponent mantissa exponent - 53) (-1074)) :
    mantissa / 2 ^ shiftedOut mantissa exponent < 2 ^ 53 ∧
      -1074 ≤ exponent + shiftedOut mantissa exponent ∧
      (exponent + shiftedOut mantissa exponent = -1074 ∨
        2 ^ 52 ≤ mantissa / 2 ^ shiftedOut mantissa exponent) := by
  unfold shiftedOut
  rw [totalExponent] at *
  generalize hamount : (max ((mantissa.log2 : Int) + 1 + exponent - 53) (-1074) - exponent).toNat =
    amount
  refine ⟨?_, by omega, ?_⟩
  · rw [Nat.div_lt_iff_lt_mul (Nat.two_pow_pos _), ← Nat.pow_add]
    exact Nat.lt_log2_self.trans_le (Nat.pow_le_pow_right Nat.two_pos (by omega))
  · rcases lt_or_ge (-1074) ((mantissa.log2 : Int) + 1 + exponent - 53) with hnormal | hleast
    · have hdigits : 52 + amount = mantissa.log2 := by omega
      have hpos : mantissa ≠ 0 := by
        rintro rfl
        rw [Nat.log2_zero] at hdigits
        omega
      right
      rw [Nat.le_div_iff_mul_le (Nat.two_pow_pos _), ← Nat.pow_add, hdigits]
      exact Nat.log2_self_le hpos
    · exact .inl (by omega)

/-- A significand with digits enough is rounded to the nearest double. -/
theorem isRounding_roundWithAccuracy (negative : Bool)
    (h : Truncates (ExtendedMantissa.ofMantissaAndAccuracy mantissa accuracy) num den)
    (hroom : exponent ≤ max (totalExponent mantissa exponent - 53) (-1074)) :
    IsRounding
      (ofUnpacked (UnpackedFloat.roundWithAccuracy Format.binary64 (signOf negative) mantissa
        exponent accuracy))
      (unit negative * (num / den * 2 ^ exponent)) := by
  obtain ⟨hlt, hleast, hleading⟩ := div_shiftedOut hroom
  have hfirst := shiftToTargetExponent_eq mantissa exponent accuracy
  generalize shiftedOut mantissa exponent = amount at hlt hleast hleading hfirst
  have hshifted := h.shiftRight amount
  have hquotient : mantissa / 2 ^ amount = num / (den * 2 ^ amount) := by
    rw [← hshifted.mantissa_eq, mantissa_shiftRight, mantissa_ofMantissaAndAccuracy]
  rw [hquotient] at hlt hleading
  have hrounded := hshifted.roundedMantissa_eq
  have hcases := (divHalfEven_cases num (den * 2 ^ amount)).1
  -- rounding can add a digit, so it is followed by a second shift
  obtain ⟨em, e, hsecond, hdigits, he, hhigh, hbits⟩ :=
    shift_rounded (divHalfEven num (den * 2 ^ amount)) (by omega) hleast (by omega)
  have hround : ofUnpacked (UnpackedFloat.roundWithAccuracy Format.binary64 (signOf negative)
      mantissa exponent accuracy) = ofBits negative
        (min (divHalfEven num (den * 2 ^ amount) + (exponent + amount + 1074).toNat * 2 ^ 52)
          infinityBits) := by
    simp only [UnpackedFloat.roundWithAccuracy, hfirst, hrounded, hsecond]
    rw [← hbits]
    split
    · next hzero =>
      have hexponent : e = -1074 := he.antisymm' (by omega)
      rw [ofUnpacked_zero, hzero, hexponent]
      rfl
    · next hpos => exact ofUnpacked_finite negative (Nat.pos_of_ne_zero hpos) hdigits he hhigh
  have hplace : (exponent + amount + 1074).toNat = 0 ∨ 2 ^ 52 ≤ num / (den * 2 ^ amount) :=
    hleading.imp_left (by omega)
  have hnearest := isNearest_min_divHalfEven hshifted.den_pos.ne' hlt hplace
  have hexponent : (((exponent + amount + 1074).toNat : Nat) : Int) - 1074 = exponent + amount := by
    omega
  have hvalue : (num : ℚ) / (den * 2 ^ amount : Nat) * 2 ^ (exponent + amount) =
      num / den * 2 ^ exponent := by
    rw [zpow_add₀ two_ne_zero, zpow_natCast]
    push_cast
    field_simp
  rw [hexponent, hvalue] at hnearest
  rw [hround]
  exact isRounding_ofBits negative hnearest (by positivity)

theorem log2_shiftLeft (hpos : mantissa ≠ 0) (n : Nat) :
    (mantissa <<< n).log2 = mantissa.log2 + n := by
  have hlow := Nat.log2_self_le hpos
  have hhigh := Nat.lt_log2_self (n := mantissa)
  rw [Nat.shiftLeft_eq, Nat.log2_eq_iff (Nat.mul_ne_zero hpos (Nat.two_pow_pos n).ne'),
    Nat.pow_add, Nat.add_right_comm, Nat.pow_add]
  exact ⟨Nat.mul_le_mul_right _ hlow, Nat.mul_lt_mul_of_pos_right hhigh (Nat.two_pow_pos n)⟩

/-- Digits that are added do not change what a significand denotes. -/
theorem shiftLeft_cast (mantissa : Nat) (exponent : Int) (n : Nat) :
    ((mantissa <<< n : Nat) : ℚ) * 2 ^ (exponent - n) = mantissa * 2 ^ exponent := by
  rw [Nat.shiftLeft_eq, zpow_sub₀ two_ne_zero, zpow_natCast]
  push_cast
  field_simp

/-- Whatever its exponent, a significand is rounded to the nearest double. -/
theorem isRounding_round (negative : Bool) (hpos : mantissa ≠ 0) (exponent : Int) :
    IsRounding
      (ofUnpacked (UnpackedFloat.round Format.binary64 (signOf negative) mantissa exponent))
      (unit negative * (mantissa * 2 ^ exponent)) := by
  have htarget := targetExponent_eq (totalExponent mantissa exponent)
  simp only [UnpackedFloat.round, UnpackedFloat.decreaseExponent, htarget]
  generalize hadded : (exponent - max (totalExponent mantissa exponent - 53) (-1074)).toNat = added
  have hroom : exponent - added ≤
      max (totalExponent (mantissa <<< added) (exponent - added) - 53) (-1074) := by
    rw [totalExponent, log2_shiftLeft hpos]
    rw [totalExponent] at hadded
    omega
  have hrounding := isRounding_roundWithAccuracy negative (truncates_exact _) hroom
  rwa [Nat.cast_one, div_one, shiftLeft_cast] at hrounding

theorem isRounding_zero (negative : Bool) :
    IsRounding (ofUnpacked (.zero (signOf negative))) 0 := by
  have hnearest : IsNearest 0 0 :=
    isNearest_zero le_rfl (by rw [mul_zero]; exact magnitude_nonneg 1)
  have hrounding := isRounding_ofBits negative hnearest le_rfl
  rwa [mul_zero, ← ofUnpacked_zero] at hrounding

theorem isRounding_normalize (mantissa : Int) (exponent : Int) :
    IsRounding (ofUnpacked (UnpackedFloat.normalize Format.binary64 mantissa exponent .positive))
      (mantissa * 2 ^ exponent) := by
  unfold UnpackedFloat.normalize
  split
  · next hlt =>
    have hneg : mantissa < 0 := compare_lt_iff_lt.1 hlt
    have hpos : (-mantissa).toNat ≠ 0 := by omega
    have hrounding := isRounding_round true hpos exponent
    have hcast : (((-mantissa).toNat : Int) : ℚ) = -mantissa := by
      rw [Int.toNat_of_nonneg (by omega), Int.cast_neg]
    rw [Int.cast_natCast] at hcast
    rwa [hcast, unit, if_pos rfl, neg_one_mul, neg_mul, neg_neg] at hrounding
  · next heq =>
    obtain rfl : mantissa = 0 := compare_eq_iff_eq.1 heq
    rw [Int.cast_zero, zero_mul]
    exact isRounding_zero false
  · next hgt =>
    have hpos : 0 < mantissa := compare_gt_iff_gt.1 hgt
    have hne : mantissa.toNat ≠ 0 := by omega
    have hrounding := isRounding_round false hne exponent
    have hcast : ((mantissa.toNat : Int) : ℚ) = mantissa := by
      rw [Int.toNat_of_nonneg hpos.le]
    rw [Int.cast_natCast] at hcast
    rwa [hcast, unit, if_neg Bool.false_ne_true, one_mul] at hrounding

/-! ## The operations -/

/-- What an unpacked double denotes: zero, or a significand of 53 binary digits with an exponent. -/
inductive Denotes : UnpackedFloat → ℚ → Prop
  | zero (negative : Bool) : Denotes (.zero (signOf negative)) 0
  | finite (negative : Bool) {significand : Nat} {exponent : Int} (hpos : 0 < significand)
      (hcanonical : Canonical significand exponent) :
      Denotes (.finite (signOf negative) significand exponent hpos)
        (unit negative * significand * 2 ^ exponent)

theorem denotes_unpack (h : x.isFinite = true) : Denotes x.toModel.unpack (toRat x) := by
  obtain ⟨hzero, hunpack⟩ | ⟨significand, exponent, hpos, hunpack, hcanonical, -, hrat⟩ :=
    unpack_cases h
  · rw [hzero, hunpack]
    exact .zero _
  · rw [hrat, hunpack]
    exact .finite _ hpos hcanonical

variable {u v : UnpackedFloat} {p : ℚ}

theorem neg_signOf (negative : Bool) : -signOf negative = signOf (!negative) := by
  cases negative <;> rfl

theorem mul_signOf (a b : Bool) : signOf a * signOf b = signOf (a != b) := by
  cases a <;> cases b <;> rfl

theorem div_signOf (a b : Bool) : signOf a / signOf b = signOf (a != b) := by
  cases a <;> cases b <;> rfl

theorem Denotes.neg (h : Denotes u q) : Denotes u.neg (-q) := by
  cases h with
  | zero negative =>
    rw [neg_zero, UnpackedFloat.neg, neg_signOf]
    exact .zero _
  | finite negative hpos hcanonical =>
    have hunit : -unit negative = unit !negative := by
      cases negative <;> simp [unit]
    rw [← neg_mul, ← neg_mul, hunit, UnpackedFloat.neg, neg_signOf]
    exact .finite _ hpos hcanonical

theorem Denotes.isRounding (h : Denotes u q) : IsRounding (ofUnpacked u) q := by
  cases h with
  | zero negative => exact isRounding_zero negative
  | @finite negative significand exponent hpos hcanonical =>
    have hfinite : significand + (exponent + 1074).toNat * 2 ^ 52 ≤ infinityBits := by
      obtain ⟨hlt, hleast, hgreatest, -⟩ := hcanonical
      unfold infinityBits
      norm_num at hlt ⊢
      omega
    rw [ofUnpacked_finite negative hpos hcanonical.lt hcanonical.least_le hcanonical.leading,
      Nat.min_eq_left hfinite, mul_assoc, ← hcanonical.magnitude_eq]
    exact isRounding_ofBits negative (isNearest_magnitude hfinite) (magnitude_nonneg _)

/-- A significand in units of a lesser power of two. -/
theorem decreaseExponent_cast (negative : Bool) (mantissa : Nat) {exponent least : Int}
    (h : least ≤ exponent) :
    ((signOf negative).apply (UnpackedFloat.decreaseExponent mantissa exponent least).1 : ℚ) *
      2 ^ least = unit negative * mantissa * 2 ^ exponent := by
  have hleast : exponent - (exponent - least).toNat = least := by omega
  have hcast := shiftLeft_cast mantissa exponent (exponent - least).toNat
  rw [hleast] at hcast
  rw [apply_signOf, signed_cast, UnpackedFloat.decreaseExponent, mul_assoc, hcast, mul_assoc]

theorem add_zero_left (s t : Sign) {significand : Nat} (exponent : Int) (hpos : 0 < significand) :
    UnpackedFloat.add Format.binary64 (.zero s) (.finite t significand exponent hpos) =
      .finite t significand exponent hpos :=
  rfl

theorem add_zero_right (s t : Sign) {significand : Nat} (exponent : Int) (hpos : 0 < significand) :
    UnpackedFloat.add Format.binary64 (.finite s significand exponent hpos) (.zero t) =
      .finite s significand exponent hpos :=
  rfl

theorem Denotes.add (hu : Denotes u p) (hv : Denotes v q) :
    IsRounding (ofUnpacked (UnpackedFloat.add Format.binary64 u v)) (p + q) := by
  cases hu with
  | zero a =>
    rw [zero_add]
    cases hv with
    | zero b =>
      have hzero : UnpackedFloat.add Format.binary64 (.zero (signOf a)) (.zero (signOf b)) =
          .zero (signOf (a && b)) := by cases a <;> cases b <;> rfl
      rw [hzero]
      exact isRounding_zero _
    | finite b hpos hcanonical =>
      rw [add_zero_left]
      exact (Denotes.finite b hpos hcanonical).isRounding
  | @finite a m e hm hcm =>
    cases hv with
    | zero b =>
      rw [add_zero, add_zero_right]
      exact (Denotes.finite a hm hcm).isRounding
    | @finite b n f hn hcn =>
      have hrounding := isRounding_normalize
        ((signOf a).apply (UnpackedFloat.decreaseExponent m e (min e f)).1 +
          (signOf b).apply (UnpackedFloat.decreaseExponent n f (min e f)).1) (min e f)
      rwa [Int.cast_add, add_mul, decreaseExponent_cast a m (min_le_left e f),
        decreaseExponent_cast b n (min_le_right e f)] at hrounding

theorem unpacked_sub_eq (u v : UnpackedFloat) :
    UnpackedFloat.sub Format.binary64 u v = UnpackedFloat.add Format.binary64 u v.neg := by
  cases u with
  | notANumber => rfl
  | infinity s => cases v <;> rfl
  | zero s => cases v <;> rfl
  | finite s m e hm =>
    cases v with
    | notANumber => rfl
    | infinity t => rfl
    | zero t => rfl
    | finite t n f hn =>
      have happly (k : Int) : (-t).apply k = -t.apply k := by
        cases t
        · exact (neg_neg k).symm
        · rfl
      simp only [UnpackedFloat.sub, UnpackedFloat.add, UnpackedFloat.neg, happly,
        Int.sub_eq_add_neg]

/-- A product of two significands has digits enough. -/
theorem Canonical.room_mul {m n : Nat} {e f : Int} (hcm : Canonical m e) (hcn : Canonical n f)
    (hm : 0 < m) (hn : 0 < n) : e + f ≤ max (totalExponent (m * n) (e + f) - 53) (-1074) := by
  have hlog (h : 2 ^ 52 ≤ m * n) : 52 ≤ (m * n).log2 := (Nat.le_log2 (Nat.mul_pos hm hn).ne').2 h
  rw [totalExponent]
  rcases hcm.leading with he | hdigits
  · rcases hcn.leading with hf | hdigits
    · omega
    · have hlow := hlog (hdigits.trans (Nat.le_mul_of_pos_left n hm))
      omega
  · have hlow := hlog (hdigits.trans (Nat.le_mul_of_pos_right m hn))
    omega

theorem Denotes.mul (hu : Denotes u p) (hv : Denotes v q) :
    IsRounding (ofUnpacked (UnpackedFloat.mul Format.binary64 u v)) (p * q) := by
  cases hu with
  | zero a =>
    rw [zero_mul]
    cases hv with
    | zero b =>
      rw [UnpackedFloat.mul, mul_signOf]
      exact isRounding_zero _
    | finite b hpos hcanonical =>
      rw [UnpackedFloat.mul, mul_signOf]
      exact isRounding_zero _
  | @finite a m e hm hcm =>
    cases hv with
    | zero b =>
      rw [mul_zero, UnpackedFloat.mul, mul_signOf]
      exact isRounding_zero _
    | @finite b n f hn hcn =>
      have hrounding := isRounding_roundWithAccuracy (a != b) (truncates_exact (m * n))
        (hcm.room_mul hcn hm hn)
      have hvalue : unit a * m * 2 ^ e * (unit b * n * 2 ^ f) =
          unit (a != b) * ((m * n : Nat) / (1 : Nat) * 2 ^ (e + f)) := by
        rw [← unit_mul_unit, zpow_add₀ two_ne_zero]
        push_cast
        ring
      rwa [hvalue, UnpackedFloat.mul, mul_signOf]

/-- The whole part of a quotient, and how the rest of it compares to a half. -/
theorem truncates_div (num : Nat) (hden : 0 < den) :
    Truncates (ExtendedMantissa.ofMantissaAndAccuracy (num / den)
      (UnpackedFloat.accuracyOfFraction (num % den) den)) num den := by
  have hsplit := Nat.div_add_mod num den
  have hlt := Nat.mod_lt num hden
  rw [Nat.mul_comm] at hsplit
  unfold UnpackedFloat.accuracyOfFraction
  split
  · constructor <;> simp [ExtendedMantissa.ofMantissaAndAccuracy, Nat.add_mul, Nat.mul_assoc] <;>
      omega
  · rcases Nat.lt_trichotomy (2 * (num % den)) den with hcompare | hcompare | hcompare
    · rw [Nat.compare_eq_lt.2 hcompare]
      constructor <;> simp [ExtendedMantissa.ofMantissaAndAccuracy, Nat.add_mul, Nat.mul_assoc] <;>
        omega
    · rw [Nat.compare_eq_eq.2 hcompare]
      constructor <;> simp [ExtendedMantissa.ofMantissaAndAccuracy, Nat.add_mul, Nat.mul_assoc] <;>
        omega
    · rw [Nat.compare_eq_gt.2 hcompare]
      constructor <;> simp [ExtendedMantissa.ofMantissaAndAccuracy, Nat.add_mul, Nat.mul_assoc] <;>
        omega

/-- A quotient of two significands is taken with digits enough. -/
theorem room_div {m n : Nat} (hm : 0 < m) (hn : 0 < n) (e f : Int) {low : Int} (hlow : low =
    min (e - f) (max (totalExponent m e - totalExponent n f - 53) (-1074))) :
    low ≤ max (totalExponent (m <<< (e - f - low).toNat / n) low - 53) (-1074) := by
  rcases le_or_gt low (-1074) with hleast | hnormal
  · exact le_max_of_le_right hleast
  · simp only [totalExponent] at hlow ⊢
    have hshift : 52 + (n.log2 + 1) ≤ m.log2 + (e - f - low).toNat := by omega
    have hquotient : 2 ^ 52 ≤ m <<< (e - f - low).toNat / n := by
      rw [Nat.le_div_iff_mul_le hn, Nat.shiftLeft_eq]
      calc 2 ^ 52 * n ≤ 2 ^ 52 * 2 ^ (n.log2 + 1) := Nat.mul_le_mul_left _ Nat.lt_log2_self.le
        _ = 2 ^ (52 + (n.log2 + 1)) := (Nat.pow_add 2 52 _).symm
        _ ≤ 2 ^ (m.log2 + (e - f - low).toNat) := Nat.pow_le_pow_right Nat.two_pos hshift
        _ = 2 ^ m.log2 * 2 ^ (e - f - low).toNat := Nat.pow_add 2 _ _
        _ ≤ m * 2 ^ (e - f - low).toNat := Nat.mul_le_mul_right _ (Nat.log2_self_le hm.ne')
    have hlog := (Nat.le_log2 ((Nat.two_pow_pos 52).trans_le hquotient).ne').2 hquotient
    omega

theorem Denotes.div (hu : Denotes u p) (hv : Denotes v q) (hq : q ≠ 0) :
    IsRounding (ofUnpacked (UnpackedFloat.div Format.binary64 u v)) (p / q) := by
  cases hv with
  | zero b => exact absurd rfl hq
  | @finite b n f hn hcn =>
    cases hu with
    | zero a =>
      rw [zero_div, UnpackedFloat.div, div_signOf]
      exact isRounding_zero _
    | @finite a m e hm hcm =>
      have htarget := targetExponent_eq (totalExponent m e - totalExponent n f)
      generalize hlow : min (e - f) (max (totalExponent m e - totalExponent n f - 53) (-1074)) = low
      have hrounding := isRounding_roundWithAccuracy (a != b)
        (truncates_div (m <<< (e - f - low).toNat) hn) (room_div hm hn e f hlow.symm)
      have hexponent : e - f - (e - f - low).toNat = low := by omega
      have hcast := shiftLeft_cast m (e - f) (e - f - low).toNat
      have hvalue : unit a * m * 2 ^ e / (unit b * n * 2 ^ f) =
          unit (a != b) * ((m <<< (e - f - low).toNat : Nat) / n * 2 ^ low) := by
        rw [hexponent] at hcast
        rw [div_mul_eq_mul_div, hcast, zpow_sub₀ two_ne_zero, ← unit_div_unit]
        field_simp
      rw [hvalue]
      simp only [UnpackedFloat.div, UnpackedFloat.divCore, div_signOf, htarget, hlow]
      exact hrounding

section Finite

variable (hx : x.isFinite = true) (hy : y.isFinite = true)
include hx hy

theorem isRounding_add : IsRounding (x + y) (toRat x + toRat y) :=
  (denotes_unpack hx).add (denotes_unpack hy)

theorem isRounding_sub : IsRounding (x - y) (toRat x - toRat y) := by
  have hrounding := (denotes_unpack hx).add (denotes_unpack hy).neg
  rwa [← unpacked_sub_eq, ← sub_eq_add_neg] at hrounding

theorem isRounding_mul : IsRounding (x * y) (toRat x * toRat y) :=
  (denotes_unpack hx).mul (denotes_unpack hy)

theorem isRounding_div (hzero : toRat y ≠ 0) : IsRounding (x / y) (toRat x / toRat y) :=
  (denotes_unpack hx).div (denotes_unpack hy) hzero

/-- A product of finite numbers is finite unless it is infinite. -/
theorem isFinite_mul (h : (x * y).isInf = false) : (x * y).isFinite = true := by
  by_contra hne
  rw [eq_infinity (isRounding_mul hx hy).isNaN (Bool.eq_false_iff.2 hne)] at h
  cases hnegative : isNegative (x * y) with
  | false => exact absurd (hnegative ▸ h) (by decide +kernel)
  | true => exact absurd (hnegative ▸ h) (by decide +kernel)

/-- A quotient by at least one is finite. -/
theorem isFinite_div (hone : 1 ≤ toRat y) : (x / y).isFinite = true := by
  have hpos : 0 < toRat y := one_pos.trans_le hone
  refine (isRounding_div hx hy hpos.ne').isFinite_of_abs_le hx ?_
  rw [abs_div, abs_of_pos hpos]
  exact div_le_self (abs_nonneg _) hone

end Finite

theorem isFinite_neg (hx : x.isFinite = true) : (-x).isFinite = true := by
  have hrounding : IsRounding (-x) (-toRat x) := (denotes_unpack hx).neg.isRounding
  exact hrounding.isFinite_of_abs_le hx (abs_neg _).le

/-! ## What is not finite -/

theorem isFinite_ofUnpacked (h : u.isFinite = false) : (ofUnpacked u).isFinite = false := by
  cases u with
  | notANumber => decide +kernel
  | infinity s => cases s <;> decide +kernel
  | zero s => cases h
  | finite s m e hm => cases h

/-- What is not finite stays so, whatever finite number it is combined with. -/
theorem isFinite_unpacked (hu : u.isFinite = false) (hv : v.isFinite = true) :
    (UnpackedFloat.sub Format.binary64 u v).isFinite = false ∧
      (UnpackedFloat.mul Format.binary64 u v).isFinite = false ∧
      (UnpackedFloat.div Format.binary64 u v).isFinite = false := by
  cases u with
  | notANumber => exact ⟨rfl, rfl, rfl⟩
  | infinity s =>
    cases v with
    | notANumber => cases hv
    | infinity t => cases hv
    | zero t => exact ⟨rfl, rfl, rfl⟩
    | finite t n f hn => exact ⟨rfl, rfl, rfl⟩
  | zero s => cases hu
  | finite s m e hm => cases hu

section NotFinite

variable (hx : x.isFinite = false) (hy : y.isFinite = true)
include hx hy

theorem isFinite_sub_left : (x - y).isFinite = false :=
  isFinite_ofUnpacked (isFinite_unpacked hx hy).1

theorem isFinite_mul_left : (x * y).isFinite = false :=
  isFinite_ofUnpacked (isFinite_unpacked hx hy).2.1

theorem isFinite_div_left : (x / y).isFinite = false :=
  isFinite_ofUnpacked (isFinite_unpacked hx hy).2.2

end NotFinite

end Reckoner.Number
