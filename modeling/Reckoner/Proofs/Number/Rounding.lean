import Reckoner.Proofs.Number.Arithmetic

/-!
# Halves go up

The floor of a double is that of the number that it denotes (`Number.toRat_floor`), and
`Number.roundHalfUp` gives the whole number at or below that number and a half
(`Number.toRat_roundHalfUp`), although it takes a difference and a sum of doubles: a difference of
less than a half is exact (`Number.exists_fraction`), a greater one is not rounded past a half, and
what has a fraction is so small that the next whole number is a double as well.
-/

namespace Reckoner.Number

variable {x y : Float} {n exponent : Int}

/-! ## Floors -/

theorem scaledFloor_eq (n exponent : Int) :
    scaledFloor n exponent = ⌊(n : ℚ) * 2 ^ exponent⌋ := by
  rw [zpow_eq_div, mul_div_assoc']
  have hfraction := Rat.floor_intCast_div_natCast (n * (Nat.pow 2 exponent.toNat : Nat))
    (Nat.pow 2 (-exponent).toNat)
  push_cast [Nat.pow_eq] at hfraction
  rw [hfraction, scaledFloor]
  push_cast [Nat.pow_eq]
  rfl

/-- A whole number is told by its binary digits after the point. -/
theorem isWhole_iff (significand : Nat) (exponent : Int) :
    isWhole significand exponent = true ↔ ∃ n : Nat, (significand : ℚ) * 2 ^ exponent = n := by
  have hpos : (2 ^ (-exponent).toNat : ℚ) ≠ 0 := by positivity
  rw [isWhole, beq_iff_eq, zpow_eq_div, mul_div_assoc', Nat.pow_eq]
  constructor
  · intro hmod
    obtain ⟨k, hk⟩ := Nat.dvd_of_mod_eq_zero hmod
    refine ⟨k * 2 ^ exponent.toNat, ?_⟩
    rw [div_eq_iff hpos, hk]
    push_cast
    ring
  · rintro ⟨k, hk⟩
    rw [div_eq_iff hpos] at hk
    rcases Int.le_total 0 exponent with hnonneg | hneg
    · have hzero : (-exponent).toNat = 0 := by omega
      rw [hzero, Nat.pow_zero, Nat.mod_one]
    · have hzero : exponent.toNat = 0 := by omega
      rw [hzero, pow_zero, mul_one] at hk
      have hdvd : significand = k * 2 ^ (-exponent).toNat := by exact_mod_cast hk
      rw [hdvd, Nat.mul_mod_left]

theorem toRat_wholeWithSign (negative : Bool) (hle : n.natAbs ≤ 2 ^ 53) :
    (wholeWithSign negative n).isFinite = true ∧ toRat (wholeWithSign negative n) = n := by
  unfold wholeWithSign
  split
  · next hzero =>
    rw [hzero, Int.cast_zero]
    exact ⟨isFinite_ofBits _ (by decide), toRat_zero negative⟩
  · exact toRat_ofInt hle

theorem isWhole_iff_toRat {negative : Bool} {significand : Nat}
    (h : parts x = .finite negative significand exponent) :
    isWhole significand exponent = true ↔ ∃ n : Int, toRat x = n := by
  rw [isWhole_iff, toRat, h]
  simp only
  rw [signed_cast, mul_assoc]
  constructor
  · rintro ⟨k, hk⟩
    exact ⟨signed negative k, by rw [hk, signed_cast]⟩
  · rintro ⟨n, hn⟩
    refine ⟨n.natAbs, ?_⟩
    rw [Nat.cast_natAbs, Int.cast_abs, ← hn, abs_mul, abs_unit, one_mul,
      abs_of_nonneg (by positivity)]

/-- A double is a whole number, which is its own floor, or it is told by binary digits after the
point. -/
theorem floor_cases (h : x.isFinite = true) :
    (∃ n : Int, toRat x = n) ∧ floor x = x ∨
      (¬∃ n : Int, toRat x = n) ∧ floor x = wholeWithSign (isNegative x) ⌊toRat x⌋ ∧
        ∃ n exponent : Int, toRat x = n * 2 ^ exponent ∧ n.natAbs < 2 ^ 53 ∧ -1074 ≤ exponent ∧
          exponent < 0 := by
  obtain ⟨significand, exponent, hparts, hcanonical, -⟩ := parts_of_isFinite h
  have hrat : toRat x = signed (isNegative x) significand * 2 ^ exponent := by
    rw [toRat, hparts]
  have hwhole := isWhole_iff_toRat hparts
  rw [floor, roundWith, hparts]
  simp only
  split
  · next hdigits => exact .inl ⟨hwhole.1 hdigits, rfl⟩
  · next hdigits =>
    have hneg : exponent < 0 := by
      by_contra hnonneg
      have hzero : (-exponent).toNat = 0 := by omega
      rw [isWhole, hzero, Nat.pow_eq, Nat.pow_zero, Nat.mod_one] at hdigits
      exact hdigits rfl
    have habs : (signed (isNegative x) significand).natAbs = significand := by
      cases isNegative x <;> simp [signed]
    refine .inr ⟨mt hwhole.2 hdigits, ?_, _, exponent, hrat, ?_, hcanonical.least_le, hneg⟩
    · rw [scaledFloor_eq, ← hrat]
    · rw [habs]
      exact hcanonical.lt

theorem abs_scaled_le {q : ℚ} (hq : q = n * 2 ^ exponent) (hlt : n.natAbs < 2 ^ 53)
    {greatest : Int} (hle : exponent ≤ greatest) : |q| ≤ 2 ^ (53 + greatest) := by
  have hcast : |(n : ℚ)| ≤ 2 ^ (53 : Int) := by
    rw [← Int.cast_abs, ← Nat.cast_natAbs]
    exact_mod_cast hlt.le
  calc |q| = |(n : ℚ)| * 2 ^ exponent := by rw [hq, abs_mul, abs_zpow, abs_two]
    _ ≤ 2 ^ (53 : Int) * 2 ^ greatest := by
      gcongr
      norm_num
    _ = 2 ^ (53 + greatest) := (zpow_add₀ two_ne_zero _ _).symm

/-- What has digits after the point has 52 before it at most. -/
theorem natAbs_floor_le {q : ℚ} (hq : q = n * 2 ^ exponent) (hlt : n.natAbs < 2 ^ 53)
    (hneg : exponent < 0) : ⌊q⌋.natAbs ≤ 2 ^ 52 := by
  have habs : |q| ≤ (2 ^ 52 : Int) := by
    have hle := abs_scaled_le hq hlt (Int.le_sub_one_of_lt hneg)
    norm_num at hle ⊢
    exact hle
  obtain ⟨hlow, hhigh⟩ := abs_le.1 habs
  have hfloorLow : -(2 ^ 52) ≤ ⌊q⌋ := Int.le_floor.2 (by exact_mod_cast hlow)
  have hfloorHigh : ⌊q⌋ ≤ 2 ^ 52 := by exact_mod_cast (Int.floor_le q).trans hhigh
  omega

/-- The floor of a double is a double, that of the number which it denotes. -/
theorem toRat_floor (h : x.isFinite = true) :
    (floor x).isFinite = true ∧ toRat (floor x) = ⌊toRat x⌋ := by
  obtain ⟨⟨n, hn⟩, hfloor⟩ | ⟨-, hfloor, n, exponent, hrat, hlt, -, hneg⟩ := floor_cases h
  · rw [hfloor, hn, Int.floor_intCast]
    exact ⟨h, rfl⟩
  · rw [hfloor]
    have hle := natAbs_floor_le hrat hlt hneg
    exact toRat_wholeWithSign _ (by omega)

/-! ## Fractions -/

/-- The distance to the floor can be told by 53 binary digits if it is less than a half. -/
theorem exists_fraction {q : ℚ} (hq : q = n * 2 ^ exponent) (hlt : n.natAbs < 2 ^ 53)
    (hneg : exponent < 0) (hhalf : q - ⌊q⌋ < 1 / 2) :
    ∃ k : Int, q - ⌊q⌋ = k * 2 ^ exponent ∧ k.natAbs ≤ 2 ^ 53 := by
  obtain ⟨digits, rfl⟩ : ∃ digits : Nat, exponent = -digits := ⟨(-exponent).toNat, by omega⟩
  have hunit : (2 : ℚ) ^ (-(digits : Int)) * 2 ^ digits = 1 := by
    rw [zpow_neg, zpow_natCast, inv_mul_cancel₀ (by positivity)]
  have hfraction : ((n - ⌊q⌋ * 2 ^ digits : Int) : ℚ) = (q - ⌊q⌋) * 2 ^ digits := by
    push_cast
    rw [sub_mul]
    nth_rewrite 2 [hq]
    rw [mul_assoc, hunit, mul_one]
  have hnonneg : 0 ≤ n - ⌊q⌋ * 2 ^ digits := by
    have hcast : (0 : ℚ) ≤ (n - ⌊q⌋ * 2 ^ digits : Int) := by
      rw [hfraction]
      exact mul_nonneg (sub_nonneg.2 (Int.floor_le q)) (by positivity)
    exact_mod_cast hcast
  refine ⟨n - ⌊q⌋ * 2 ^ digits, ?_, ?_⟩
  · rw [hfraction, mul_assoc, mul_comm (2 ^ digits), hunit, mul_one]
  suffices hle : n - ⌊q⌋ * 2 ^ digits ≤ 2 ^ 53 by omega
  rcases le_or_gt 0 n with hn | hn
  · -- the digits of a number that is not negative are among its own
    have hq : 0 ≤ q := by
      rw [hq]
      positivity
    have hfloor : 0 ≤ ⌊q⌋ * 2 ^ digits := mul_nonneg (Int.floor_nonneg.2 hq) (by positivity)
    omega
  rcases Nat.lt_or_ge digits 55 with hfew | hmany
  · have hcast : ((n - ⌊q⌋ * 2 ^ digits : Int) : ℚ) ≤ (2 ^ 53 : Int) :=
      calc ((n - ⌊q⌋ * 2 ^ digits : Int) : ℚ) = (q - ⌊q⌋) * 2 ^ digits := hfraction
        _ ≤ 1 / 2 * 2 ^ 54 := by
          gcongr
          · norm_num
          · omega
        _ = (2 ^ 53 : Int) := by norm_num
    exact_mod_cast hcast
  · -- a negative number with more of them is too near to zero
    exfalso
    have hnear := abs_scaled_le hq hlt (show -(digits : Int) ≤ -55 by omega)
    have hfloor : ⌊q⌋ < 0 := by
      rw [Int.floor_lt, Int.cast_zero, hq]
      exact mul_neg_of_neg_of_pos (by exact_mod_cast hn) (by positivity)
    have hcast : (⌊q⌋ : ℚ) ≤ -1 := by exact_mod_cast Int.le_sub_one_of_lt hfloor
    have hlow := neg_abs_le q
    norm_num at hnear
    linarith

/-! ## Rounding -/

theorem toRat_half : half.isFinite = true ∧ toRat half = 1 / 2 := by
  have hrounding := isRounding_ofRatio false 1 two_ne_zero
  have hhalf : unit false * ((1 : Nat) / (2 : Nat)) = (1 : Int) * 2 ^ (-1 : Int) := by
    norm_num [unit]
  obtain ⟨hfinite, hrat⟩ := hrounding.exact_scaled hhalf (by decide) (by decide) (by decide)
  rw [hhalf] at hrat
  exact ⟨hfinite, by rw [half, hrat]; norm_num⟩

theorem toRat_one : (ofNat 1).isFinite = true ∧ toRat (ofNat 1) = 1 := by
  have hone := @toRat_ofNat 1 (by decide)
  rwa [Nat.cast_one] at hone

/-- A whole number is not moved. -/
theorem roundHalfUp_of_whole (h : x.isFinite = true) (hwhole : ∃ n : Int, toRat x = n) :
    roundHalfUp x = x := by
  have hfloor : floor x = x := by
    obtain ⟨-, hfloor⟩ | ⟨hfraction, -⟩ := floor_cases h
    · exact hfloor
    · exact absurd hwhole hfraction
  have hdifference := isRounding_sub h h
  rw [sub_self, ← toRat_zero false] at hdifference
  obtain ⟨hfinite, hrat⟩ := hdifference.exact (isFinite_ofBits false (by decide))
  have hless : ¬x - x ≥ half := by
    rw [ge_iff_le, le_iff toRat_half.1 hfinite, hrat, toRat_half.2, toRat_zero]
    norm_num
  simp only [roundHalfUp, hfloor, if_neg hless]

/-- The difference to the floor reaches a half if the exact one does. -/
theorem half_le_sub_floor_iff (h : x.isFinite = true) (hrat : toRat x = n * 2 ^ exponent)
    (hlt : n.natAbs < 2 ^ 53) (hleast : -1074 ≤ exponent) (hneg : exponent < 0) :
    x - floor x ≥ half ↔ 1 / 2 ≤ toRat x - ⌊toRat x⌋ := by
  obtain ⟨hfloorFinite, hfloor⟩ := toRat_floor h
  have hdifference := isRounding_sub h hfloorFinite
  rw [hfloor] at hdifference
  have hfinite : (x - floor x).isFinite = true := by
    refine hdifference.isFinite_of_abs_le toRat_one.1 ?_
    rw [toRat_one.2, abs_one, Int.self_sub_floor, Int.abs_fract]
    exact (Int.fract_lt_one _).le
  rw [ge_iff_le, le_iff toRat_half.1 hfinite, toRat_half.2]
  constructor
  · intro hle
    by_contra hless
    obtain ⟨k, hk, hdigits⟩ := exists_fraction hrat hlt hneg (not_le.1 hless)
    rw [(hdifference.exact_scaled hk hdigits hleast (by omega)).2] at hle
    exact hless hle
  · intro hle
    rw [← toRat_half.2] at hle ⊢
    exact hdifference.le_toRat hfinite toRat_half.1 hle

/-- Rounding adds a half and takes the floor, without any error. -/
theorem toRat_roundHalfUp (h : x.isFinite = true) :
    (roundHalfUp x).isFinite = true ∧ toRat (roundHalfUp x) = ⌊toRat x + 1 / 2⌋ := by
  obtain ⟨⟨n, hn⟩, -⟩ | ⟨-, -, n, exponent, hrat, hlt, hleast, hneg⟩ := floor_cases h
  · have hfloor : ⌊(n : ℚ) + 1 / 2⌋ = n := by
      rw [Int.floor_intCast_add]
      norm_num
    rw [roundHalfUp_of_whole h ⟨n, hn⟩, hn, hfloor]
    exact ⟨h, rfl⟩
  obtain ⟨hfinite, hfloor⟩ := toRat_floor h
  have hreaches := half_le_sub_floor_iff h hrat hlt hleast hneg
  have hbelow := Int.floor_le (toRat x)
  have habove := Int.lt_floor_add_one (toRat x)
  by_cases hhalf : x - floor x ≥ half
  · have hup : ⌊toRat x + 1 / 2⌋ = ⌊toRat x⌋ + 1 := by
      have hle := hreaches.1 hhalf
      rw [Int.floor_eq_iff]
      push_cast
      constructor <;> linarith
    have hbound := natAbs_floor_le hrat hlt hneg
    have hsum := isRounding_add hfinite toRat_one.1
    rw [hfloor, toRat_one.2, ← Int.cast_one, ← Int.cast_add] at hsum
    simp only [roundHalfUp, if_pos hhalf, hup]
    exact hsum.exact_intCast (by omega)
  · have hdown : ⌊toRat x + 1 / 2⌋ = ⌊toRat x⌋ := by
      have hless := not_le.1 (mt hreaches.2 hhalf)
      rw [Int.floor_eq_iff]
      constructor <;> linarith
    simp only [roundHalfUp, if_neg hhalf, hdown]
    exact toRat_floor h

/-- What is not finite is not moved either. -/
theorem roundHalfUp_of_isFinite_false (h : x.isFinite = false) : roundHalfUp x = x := by
  have hcases : (parts x = .nan ∨ ∃ negative, parts x = .infinite negative) ∧
      ¬x - x ≥ half := by
    cases hnan : x.isNaN with
    | true =>
      refine ⟨.inl (parts_of_isNaN hnan), ?_⟩
      rw [eq_nan_of_isNaN hnan]
      decide +kernel
    | false =>
      rw [eq_infinity hnan h]
      cases isNegative x with
      | false => exact ⟨.inr ⟨false, by decide +kernel⟩, by decide +kernel⟩
      | true => exact ⟨.inr ⟨true, by decide +kernel⟩, by decide +kernel⟩
  obtain ⟨hparts, hless⟩ := hcases
  have hfloor : floor x = x := by
    unfold floor roundWith
    obtain hnan | ⟨negative, hinfinite⟩ := hparts
    · rw [hnan]
    · rw [hinfinite]
  simp only [roundHalfUp, hfloor, if_neg hless]

/-- Rounding denotes the floor of the number and a half, for every finite double. So it keeps the
order, and what is rounded already stays the same double, with the sign of a zero. -/
theorem roundHalfUp_eq_floor (hx : x.isFinite = true) (hy : y.isFinite = true) :
    ((roundHalfUp x).isFinite = true ∧ toRat (roundHalfUp x) = ⌊toRat x + 1 / 2⌋) ∧
      (x ≤ y → roundHalfUp x ≤ roundHalfUp y) ∧ roundHalfUp (roundHalfUp x) = roundHalfUp x := by
  obtain ⟨hfinite, hrat⟩ := toRat_roundHalfUp hx
  obtain ⟨hfinite', hrat'⟩ := toRat_roundHalfUp hy
  refine ⟨⟨hfinite, hrat⟩, fun hle => ?_, roundHalfUp_of_whole hfinite ⟨_, hrat⟩⟩
  rw [le_iff hx hy] at hle
  rw [le_iff hfinite hfinite', hrat, hrat']
  exact_mod_cast Int.floor_mono (by linarith)

/-- The double before a half. -/
def belowHalf : Float := ofBits false (nearest 1 2 - 1)

theorem roundHalfUp_belowHalf : belowHalf.isFinite = true ∧ half.isFinite = true ∧
    ((roundHalfUp belowHalf).isFinite = true ∧
      toRat (roundHalfUp belowHalf) = ⌊toRat belowHalf + 1 / 2⌋) ∧
    (belowHalf ≤ half → roundHalfUp belowHalf ≤ roundHalfUp half) ∧
    roundHalfUp (roundHalfUp belowHalf) = roundHalfUp belowHalf := by
  have hbelow : belowHalf.isFinite = true := by decide +kernel
  have hhalf : half.isFinite = true := by decide +kernel
  exact ⟨hbelow, hhalf, roundHalfUp_eq_floor hbelow hhalf⟩

/-- The double before a half is rounded to zero, though its sum with a half is rounded to one. -/
example : (roundHalfUp (ofBits false (nearest 1 2 - 1))).toBits = (zero false).toBits ∧
    (ofBits false (nearest 1 2 - 1) + half).toBits = (ofNat 1).toBits := by
  decide +kernel

end Reckoner.Number
