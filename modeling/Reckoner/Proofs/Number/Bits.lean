import Mathlib
import Reckoner.Number.Double

/-!
# The pattern of a double

A double that is a number is its sign and its pattern, which is at most that of infinity
(`Number.eq_ofBits`), and every such pattern is the one of a double
(`Number.toBits_ofBits`). The parts of a finite double tell its pattern
(`Number.parts_cases`). All that is no number is one value (`Number.eq_nan_of_isNaN`).

What packing does to an unpacked double (`Float.Model.UnpackedFloat.pack_unpack`) comes with no
single module of Mathlib, so the whole library is imported here.
-/

namespace Reckoner.Number

open Float.Model (Format)
open Float.Model.UnpackedFloat (unpackExponent unpackMantissa isNaNBits packedNaN)

/-- The pattern below the sign bit. -/
def pattern (x : Float) : Nat := x.toBits.toNat % Nat.pow 2 63

/-- Whether the sign bit is set. -/
def isNegative (x : Float) : Bool := decide (Nat.pow 2 63 ≤ x.toBits.toNat)

/-- A double is its sign and its pattern. -/
theorem eq_ofBits (x : Float) : x = ofBits (isNegative x) (pattern x) := by
  have hlt : x.toBits.toNat < Nat.pow 2 64 := x.toBits.toNat_lt
  have hnat : (if isNegative x then Nat.pow 2 63 + pattern x else pattern x) = x.toBits.toNat := by
    unfold isNegative pattern
    simp only [decide_eq_true_eq]
    norm_num at hlt ⊢
    split <;> omega
  rw [ofBits, hnat, UInt64.ofNat_toNat, Float.ofBits_toBits]

theorem toNat_unpackExponent (b : BitVec Format.binary64.numBits) :
    (unpackExponent b).toNat = b.toNat / 2 ^ 52 % 2 ^ 11 := by
  rw [Float.Model.UnpackedFloat.unpackExponent_def, BitVec.extractLsb'_toNat,
    Nat.shiftRight_eq_div_pow]

theorem toNat_unpackMantissa (b : BitVec Format.binary64.numBits) :
    (unpackMantissa b).toNat = b.toNat % 2 ^ 52 := by
  rw [Float.Model.UnpackedFloat.unpackMantissa_def, BitVec.extractLsb'_toNat, Nat.shiftRight_zero]

theorem isNaNBits_iff (b : BitVec Format.binary64.numBits) :
    isNaNBits b = true ↔ b.toNat / 2 ^ 52 % 2 ^ 11 = 2047 ∧ b.toNat % 2 ^ 52 ≠ 0 := by
  rw [isNaNBits, decide_eq_true_eq, ← BitVec.toNat_inj, ne_eq, ← BitVec.toNat_inj,
    toNat_unpackExponent, toNat_unpackMantissa]
  rfl

/-- What is no number has the exponent of infinity, and further bits set. -/
theorem isNaN_iff (x : Float) : x.isNaN = true ↔
    x.toBits.toNat / 2 ^ 52 % 2 ^ 11 = 2047 ∧ x.toBits.toNat % 2 ^ 52 ≠ 0 := by
  rw [← UInt64.toNat_toBitVec, ← isNaNBits_iff]
  change (Float.Model.UnpackedFloat.unpack Format.binary64 x.toBits.toBitVec).isNaN = true ↔ _
  rw [Float.Model.UnpackedFloat.isNaN_iff, Float.Model.UnpackedFloat.unpack, isNaNBits,
    decide_eq_true_eq]
  split
  · next hexponent =>
    split
    · next hmantissa => exact ⟨nofun, fun h => absurd hmantissa h.2⟩
    · next hmantissa => exact ⟨fun _ => ⟨hexponent, hmantissa⟩, fun _ => rfl⟩
  · next hexponent =>
    refine ⟨fun h => ?_, fun h => absurd h.1 hexponent⟩
    split at h
    · split at h <;> cases h
    · cases h

/-- What is finite has not the exponent of infinity. -/
theorem isFinite_iff (x : Float) :
    x.isFinite = true ↔ x.toBits.toNat / 2 ^ 52 % 2 ^ 11 ≠ 2047 := by
  have hexponent (b : BitVec Format.binary64.numBits) :
      unpackExponent b = -BitVec.ofNat Format.binary64.exponentBits 1 ↔
        b.toNat / 2 ^ 52 % 2 ^ 11 = 2047 := by
    rw [← BitVec.toNat_inj, toNat_unpackExponent]
    rfl
  change (Float.Model.UnpackedFloat.unpack Format.binary64 x.toBits.toBitVec).isFinite = true ↔ _
  rw [← UInt64.toNat_toBitVec, ne_eq, ← hexponent, Float.Model.UnpackedFloat.unpack]
  split
  · next hinfinite =>
    refine ⟨fun h => ?_, fun h => absurd hinfinite h⟩
    split at h <;> cases h
  · next hfinite =>
    refine ⟨fun _ => hfinite, fun _ => ?_⟩
    split
    · split <;> rfl
    · rfl

theorem toBitVec_of_isNaN {x : Float} (h : x.isNaN = true) :
    x.toBits.toBitVec = packedNaN Format.binary64 := by
  obtain ⟨hexponent, hmantissa⟩ := (isNaN_iff x).1 h
  refine x.toModel.valid.eq_packedNaN ?_ ?_
  · apply BitVec.eq_of_toNat_eq
    rw [toNat_unpackExponent]
    exact hexponent
  · intro hzero
    refine hmantissa ?_
    have hnat := congrArg BitVec.toNat hzero
    rwa [toNat_unpackMantissa] at hnat

/-- There is one value that is no number. -/
theorem eq_nan_of_isNaN {x : Float} (h : x.isNaN = true) : x = nan := by
  have hbits : x.toBits = nan.toBits := UInt64.toBitVec_inj.1
    ((toBitVec_of_isNaN h).trans (toBitVec_of_isNaN (by decide +kernel)).symm)
  rw [← Float.ofBits_toBits x, hbits, Float.ofBits_toBits]

/-- The pattern of a number is the one that it is made from. -/
theorem toBits_ofBits (negative : Bool) {bits : Nat} (h : bits ≤ infinityBits) :
    (ofBits negative bits).toBits.toNat = if negative then Nat.pow 2 63 + bits else bits := by
  generalize hn : (if negative then Nat.pow 2 63 + bits else bits) = n
  have hlt : n < 2 ^ 64 ∧ ¬(n / 2 ^ 52 % 2 ^ 11 = 2047 ∧ n % 2 ^ 52 ≠ 0) := by
    simp only [infinityBits] at h
    norm_num at h hn ⊢
    split at hn <;> omega
  have htoNat : (UInt64.ofNat n).toBitVec.toNat = n := UInt64.toNat_ofNat_of_lt' hlt.1
  rw [ofBits, hn]
  change (Float.Model.UnpackedFloat.pack Format.binary64
    (Float.Model.UnpackedFloat.unpack Format.binary64 (UInt64.ofNat n).toBitVec)).toNat = n
  rw [Float.Model.UnpackedFloat.pack_unpack, if_neg (by rw [isNaNBits_iff, htoNat]; exact hlt.2),
    htoNat]

/-- A double that is a number has at most the pattern of infinity. -/
theorem pattern_le {x : Float} (h : x.isNaN = false) : pattern x ≤ infinityBits := by
  rw [Bool.eq_false_iff, ne_eq, isNaN_iff] at h
  unfold pattern infinityBits
  norm_num at h ⊢
  omega

theorem isNaN_ofBits (negative : Bool) {bits : Nat} (h : bits ≤ infinityBits) :
    (ofBits negative bits).isNaN = false := by
  rw [Bool.eq_false_iff, ne_eq, isNaN_iff, toBits_ofBits negative h]
  simp only [infinityBits] at h
  norm_num at h ⊢
  split <;> omega

theorem isNaN_of_isFinite {x : Float} (h : x.isFinite = true) : x.isNaN = false := by
  rw [Bool.eq_false_iff, ne_eq, isNaN_iff]
  exact fun hnan => (isFinite_iff x).1 h hnan.1

/-- A number that is not finite is one of the infinities. -/
theorem eq_infinity {x : Float} (hnan : x.isNaN = false) (hfinite : x.isFinite = false) :
    x = infinity (isNegative x) := by
  rw [Bool.eq_false_iff, ne_eq, isNaN_iff] at hnan
  rw [Bool.eq_false_iff, ne_eq, isFinite_iff] at hfinite
  have hpattern : pattern x = infinityBits := by
    unfold pattern infinityBits
    norm_num at hnan hfinite ⊢
    omega
  exact (eq_ofBits x).trans (by rw [hpattern, infinity])

/-- A double tells its sign and its pattern. -/
theorem ofBits_inj {a b : Bool} {m n : Nat} (hm : m ≤ infinityBits) (hn : n ≤ infinityBits)
    (h : ofBits a m = ofBits b n) : a = b ∧ m = n := by
  have hnat := congrArg (fun x : Float => x.toBits.toNat) h
  simp only [toBits_ofBits a hm, toBits_ofBits b hn] at hnat
  simp only [infinityBits] at hm hn
  norm_num at hm hn hnat
  cases a <;> cases b <;> simp at hnat ⊢ <;> omega

/-- The parts of a double that is no number. -/
theorem parts_of_isNaN {x : Float} (h : x.isNaN = true) : parts x = .nan := by
  obtain ⟨hbiased, hfraction⟩ := (isNaN_iff x).1 h
  unfold parts
  norm_num at hbiased hfraction ⊢
  rw [if_pos hbiased, if_neg hfraction]

/-- A significand and an exponent of a finite double. All but the leading binary digit of
the significand are stored, unless the exponent is the least one. -/
structure Canonical (significand : Nat) (exponent : Int) : Prop where
  lt : significand < 2 ^ 53
  least_le : -1074 ≤ exponent
  le_greatest : exponent ≤ 971
  leading : exponent = -1074 ∨ 2 ^ 52 ≤ significand

/-- The parts of a double that is a number. -/
theorem parts_cases {x : Float} (h : x.isNaN = false) :
    pattern x = infinityBits ∧ parts x = .infinite (isNegative x) ∨
      ∃ significand exponent, parts x = .finite (isNegative x) significand exponent ∧
        Canonical significand exponent ∧
          pattern x = significand + (exponent + 1074).toNat * 2 ^ 52 := by
  have hle := pattern_le h
  have hlt : x.toBits.toNat < Nat.pow 2 64 := x.toBits.toNat_lt
  unfold pattern at hle ⊢
  unfold infinityBits at hle ⊢
  unfold parts
  norm_num at hle hlt ⊢
  split
  · next hbiased =>
    rw [if_pos (by omega)]
    exact .inl ⟨by omega, rfl⟩
  · next hbiased =>
    right
    split
    · next hzero =>
      refine ⟨_, _, rfl, ⟨?_, ?_, ?_, .inl rfl⟩, ?_⟩ <;> omega
    · next hnormal =>
      refine ⟨_, _, rfl, ⟨?_, ?_, ?_, .inr ?_⟩, ?_⟩ <;> omega

/-- A finite number has a significand and an exponent, and they tell its pattern. -/
theorem parts_of_isFinite {x : Float} (h : x.isFinite = true) :
    ∃ significand exponent, parts x = .finite (isNegative x) significand exponent ∧
      Canonical significand exponent ∧
        pattern x = significand + (exponent + 1074).toNat * 2 ^ 52 := by
  refine (parts_cases (isNaN_of_isFinite h)).resolve_left fun ⟨hpattern, _⟩ => ?_
  have hx := eq_ofBits x
  rw [hpattern] at hx
  rw [hx] at h
  generalize isNegative x = negative at h
  cases negative with
  | true => exact absurd h (by decide +kernel)
  | false => exact absurd h (by decide +kernel)

end Reckoner.Number
