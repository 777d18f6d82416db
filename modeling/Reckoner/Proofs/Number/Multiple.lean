import Reckoner.Number.Function
import Reckoner.Proofs.Number.Rounding

/-!
# Multiples and decimals

`Number.mround` and `Number.fix` round the quotient by a step, and the product with a power of ten.
What they give is finite for operands that leave some room below `Number.overflow`, unless that
quotient or product is rounded to infinity (`Number.isFinite_mround`, `Number.isFinite_fix`): then
infinity is taken for the nearest whole number, and neither the product with the step nor the
quotient by the power of ten brings it back.
-/

namespace Reckoner.Number

variable {x y r : Float} {p bound : ℚ}

theorem abs_roundHalfUp_le (h : x.isFinite = true) :
    |toRat (roundHalfUp x)| ≤ |toRat x| + 1 / 2 := by
  have hbelow := Int.floor_le (toRat x + 1 / 2)
  have habove := Int.lt_floor_add_one (toRat x + 1 / 2)
  rw [(toRat_roundHalfUp h).2, abs_le]
  have hle := abs_le.1 (le_refl |toRat x|)
  constructor <;> linarith

section Room

variable (hone : 1 ≤ bound) (hroom : 7 * bound < overflow)
variable (hx : x.isFinite = true) (hxle : |toRat x| ≤ bound)
include hone hroom hx hxle

/-- A result and its distance from an operand are finite if they are not far beyond the bound. -/
theorem IsRounding.isFinite_sides (h : IsRounding r p) (hp : |p| ≤ 3 * bound) :
    r.isFinite = true ∧ (r - x).isFinite = true := by
  have hr : r.isFinite = true := h.isFinite_iff.2 (by linarith)
  refine ⟨hr, (isRounding_sub hr hx).isFinite_iff.2 ?_⟩
  have hle := h.abs_le hr
  have htriangle := abs_sub (toRat r) (toRat x)
  linarith

/-- A result and its distance from an operand are finite exactly if what the result is made from
is. -/
theorem isFinite_sides_iff {d : Float}
    (hfinite : d.isFinite = true → ∃ p, IsRounding r p ∧ |p| ≤ 3 * bound)
    (hinfinite : d.isFinite = false → r.isFinite = false) :
    (r.isFinite = true ↔ d.isFinite = true) ∧ ((r - x).isFinite = true ↔ d.isFinite = true) := by
  cases hd : d.isFinite with
  | true =>
    obtain ⟨p, hrounding, hp⟩ := hfinite hd
    obtain ⟨hresult, hside⟩ := hrounding.isFinite_sides hone hroom hx hxle hp
    exact ⟨iff_of_true hresult rfl, iff_of_true hside rfl⟩
  | false =>
    have hresult := hinfinite hd
    rw [hresult, isFinite_sub_left hresult hx]
    exact ⟨Iff.rfl, Iff.rfl⟩

/-- The nearest multiple and its distance are finite if the quotient by the step is rounded to a
finite number. -/
theorem isFinite_mround (hy : y.isFinite = true) (hyle : |toRat y| ≤ bound) (hzero : toRat y ≠ 0) :
    ((mround x y).1.isFinite = true ↔ |toRat x| < overflow * |toRat y|) ∧
      ((mround x y).2.isFinite = true ↔ |toRat x| < overflow * |toRat y|) := by
  have hquotient := isRounding_div hx hy hzero
  have hiff := hquotient.isFinite_iff
  rw [abs_div, div_lt_iff₀ (abs_pos.2 hzero)] at hiff
  rw [← hiff]
  refine isFinite_sides_iff hone hroom hx hxle (fun hfinite => ?_) fun hinfinite => ?_
  · refine ⟨_, isRounding_mul (toRat_roundHalfUp hfinite).1 hy, ?_⟩
    calc |toRat (roundHalfUp (x / y)) * toRat y|
        ≤ (|toRat (x / y)| + 1 / 2) * |toRat y| := by
          rw [abs_mul]
          gcongr
          exact abs_roundHalfUp_le hfinite
      _ ≤ (2 * |toRat x / toRat y| + 1 / 2) * |toRat y| := by
          gcongr
          exact hquotient.abs_le hfinite
      _ = 2 * |toRat x| + |toRat y| / 2 := by
          rw [abs_div]
          field_simp
      _ ≤ 3 * bound := by linarith
  · rw [mround, roundHalfUp_of_isFinite_false hinfinite]
    exact isFinite_mul_left hinfinite hy

/-- A number that is rounded to a part of a scale, and its distance, are finite if the product with
the scale is rounded to a finite number. -/
theorem isFinite_scaled (hy : y.isFinite = true) (hyone : 1 ≤ toRat y) :
    ((roundHalfUp (x * y) / y).isFinite = true ↔ |toRat x| * toRat y < overflow) ∧
      ((roundHalfUp (x * y) / y - x).isFinite = true ↔ |toRat x| * toRat y < overflow) := by
  have hpos : 0 < toRat y := by linarith
  have hproduct := isRounding_mul hx hy
  have hiff := hproduct.isFinite_iff
  rw [abs_mul, abs_of_pos hpos] at hiff
  rw [← hiff]
  refine isFinite_sides_iff hone hroom hx hxle (fun hfinite => ?_) fun hinfinite => ?_
  · refine ⟨_, isRounding_div (toRat_roundHalfUp hfinite).1 hy hpos.ne', ?_⟩
    calc |toRat (roundHalfUp (x * y)) / toRat y|
        ≤ (|toRat (x * y)| + 1 / 2) / toRat y := by
          rw [abs_div, abs_of_pos hpos]
          gcongr
          exact abs_roundHalfUp_le hfinite
      _ ≤ (2 * |toRat x * toRat y| + 1 / 2) / toRat y := by
          gcongr
          exact hproduct.abs_le hfinite
      _ = 2 * |toRat x| + 1 / 2 / toRat y := by
          rw [abs_mul, abs_of_pos hpos]
          field_simp
      _ ≤ 2 * |toRat x| + 1 / 2 := (add_le_add_iff_left _).2 (div_le_self (by norm_num) hyone)
      _ ≤ 3 * bound := by linarith
  · rw [roundHalfUp_of_isFinite_false hinfinite]
    exact isFinite_div_left hinfinite hy

end Room

/-- Up to 22, a power of ten is a double. -/
theorem toRat_powerOfTen {decimals : Float} {n : Nat} (h : decimals.isFinite = true)
    (hrat : toRat decimals = n) (hle : n ≤ 22) :
    (powerOfTen decimals).isFinite = true ∧ toRat (powerOfTen decimals) = 10 ^ n := by
  obtain ⟨significand, exponent, hparts, -, -⟩ := parts_of_isFinite h
  have hwhole := (isWhole_iff_toRat hparts).2 ⟨n, by rw [hrat, Int.cast_natCast]⟩
  have hfloor : scaledFloor (signed (isNegative decimals) significand) exponent = n := by
    have hvalue : (signed (isNegative decimals) significand : ℚ) * 2 ^ exponent = n := by
      rw [← hrat, toRat, hparts]
    rw [scaledFloor_eq, hvalue, Int.floor_natCast]
  have hpower : powerOfTen decimals = ofNat (10 ^ n) := by
    rw [powerOfTen, exactPowerOfTen?, hparts]
    simp [hwhole, hfloor, hle]
  have hscaled : ((10 ^ n : Nat) : ℚ) = ((5 ^ n : Nat) : Int) * 2 ^ (n : Int) := by
    rw [zpow_natCast]
    push_cast
    rw [← mul_pow]
    norm_num
  have hfive : ((5 ^ n : Nat) : Int).natAbs ≤ 2 ^ 53 := by
    rw [Int.natAbs_natCast]
    exact (Nat.pow_le_pow_right (by decide) hle).trans (by decide)
  have hexact := (isRounding_ofNat (10 ^ n)).exact_scaled hscaled hfive (by omega) (by omega)
  rw [hpower]
  exact_mod_cast hexact

/-- A number with a count of decimals and its distance are finite if the product with the power of
ten is rounded to a finite number. -/
theorem isFinite_fix {decimals : Float} {n : Nat} (hone : 1 ≤ bound) (hroom : 7 * bound < overflow)
    (hx : x.isFinite = true) (hxle : |toRat x| ≤ bound) (hdecimals : decimals.isFinite = true)
    (hrat : toRat decimals = n) (hle : n ≤ 22) :
    ((fix x decimals).1.isFinite = true ↔ |toRat x| * 10 ^ n < overflow) ∧
      ((fix x decimals).2.isFinite = true ↔ |toRat x| * 10 ^ n < overflow) := by
  obtain ⟨hscale, hpower⟩ := toRat_powerOfTen hdecimals hrat hle
  have hyone : 1 ≤ toRat (powerOfTen decimals) := by
    rw [hpower]
    exact one_le_pow₀ (by norm_num)
  rw [fix, ← hpower]
  exact isFinite_scaled hone hroom hx hxle hscale hyone

/-! ## A bound on the operands -/

/-- The double that is written `1e300`. -/
@[irreducible] def limit : Float := ofNat (10 ^ 300)

theorem isFinite_limit : limit.isFinite = true := by
  decide +kernel

theorem toRat_limit : toRat limit = magnitude (pattern limit) := by
  have hpositive : isNegative limit = false := by decide +kernel
  rw [toRat_eq isFinite_limit, hpositive, unit, if_neg Bool.false_ne_true, one_mul]

theorem one_le_limit : 1 ≤ toRat limit := by
  have hle : (1022 + 1) * 2 ^ 52 ≤ pattern limit := by decide +kernel
  have hmagnitude := magnitude_strictMono.monotone hle
  rwa [magnitude_binade, ← toRat_limit, Nat.cast_ofNat, sub_self, zpow_zero] at hmagnitude

/-- There is much room above the limit. -/
theorem limit_lt_overflow : 1000 * toRat limit < overflow := by
  have hle : pattern limit ≤ (2022 + 1) * 2 ^ 52 := by decide +kernel
  have hmagnitude := magnitude_strictMono.monotone hle
  rw [magnitude_binade, ← toRat_limit] at hmagnitude
  calc 1000 * toRat limit < 2 ^ (10 : Int) * toRat limit := by
        refine mul_lt_mul_of_pos_right (by norm_num) (one_pos.trans_le one_le_limit)
    _ ≤ 2 ^ (10 : Int) * 2 ^ ((2022 : Nat) - 1022 : Int) := by gcongr
    _ = 2 ^ (10 + ((2022 : Nat) - 1022 : Int)) := (zpow_add₀ two_ne_zero _ _).symm
    _ ≤ 2 ^ (1023 : Int) := zpow_le_zpow_right₀ one_le_two (by decide)
    _ ≤ overflow := two_pow_le_overflow

end Reckoner.Number
