import Reckoner.Machine.Basic
import Reckoner.Proofs.Number.Multiple

/-!
# Rounding on the stack

`mround` and `fix` put the rounded number on the stack and its distance into the register for side
results (`Machine.leaves_binaryWithSide`). For operands up to `Number.limit` both are finite unless
the quotient by the step, or the product with the power of ten, is rounded to infinity
(`Number.isFinite_rounding`). It can be although the rounded number itself is a double
(`Number.not_isFinite_fix_limit`).
-/

namespace Reckoner

open Machine (start)

namespace Machine

/-- One number stands in place of the two operands, another one is the side result, and no other
register has changed. -/
structure Leaves (m m' : Machine) (p : Float × Float) : Prop where
  stack : m'.stack = .number p.1 :: m.stack.drop 2
  side : m'.registers.get? Registers.intermediateName = some p.2
  others : ∀ name ≠ Registers.intermediateName, m'.registers.get? name = m.registers.get? name

variable {m : Machine} {x y : Float}

theorem pop_eq (m : Machine) : m.pop.2 = { m with stack := m.stack.drop 1 } := by
  obtain ⟨stack, mode, registers⟩ := m
  cases stack <;> rfl

/-- The machine takes its two operands, if need be from below the bottom of the stack. -/
theorem leaves_binaryWithSide (f : Float → Float → Float × Float) (htop : m.popNumber.1 = y)
    (hbelow : m.popNumber.2.popNumber.1 = x) : m.Leaves (m.binaryWithSide f) (f x y) := by
  have hpopped : m.popNumber.2.popNumber.2 = { m with stack := m.stack.drop 2 } := by
    rw [popNumber, popNumber, pop_eq, pop_eq, List.drop_drop]
  have hresult : m.binaryWithSide f =
      (m.popNumber.2.popNumber.2.setIntermediate (f x y).2).pushNumber (f x y).1 := by
    rw [← htop, ← hbelow]
    rfl
  rw [hresult, hpopped]
  exact ⟨rfl, Registers.get?_set_self _ _ _, fun _ hne => Registers.get?_set_of_ne _ hne _⟩

end Machine

namespace Number

variable {x y : Float}

/-- For operands up to the limit, rounding to a multiple and to decimals give finite numbers exactly
if the quotient by the step and the product with the power of ten are rounded to finite ones. What
they give is what the machine puts on the stack and into the register for side results. -/
theorem isFinite_rounding (hx : x.isFinite = true) (hxle : |toRat x| ≤ toRat limit)
    (hy : y.isFinite = true) :
    (toRat y ≠ 0 → |toRat y| ≤ toRat limit →
      ((mround x y).1.isFinite = true ↔ |toRat x| < overflow * |toRat y|) ∧
      ((mround x y).2.isFinite = true ↔ |toRat x| < overflow * |toRat y|)) ∧
    (∀ n : Nat, n ≤ 22 → toRat y = n →
      ((fix x y).1.isFinite = true ↔ |toRat x| * 10 ^ n < overflow) ∧
      ((fix x y).2.isFinite = true ↔ |toRat x| * 10 ^ n < overflow)) ∧
    ∀ (fold : Fold) (m : Machine), m.popNumber.1 = y → m.popNumber.2.popNumber.1 = x →
      m.Leaves (m.perform fold .mround) (mround x y) ∧ m.Leaves (m.perform fold .fix) (fix x y) := by
  have hone := one_le_limit
  have hroom : 7 * toRat limit < overflow := by linarith [limit_lt_overflow]
  refine ⟨fun hzero hyle => ?_, fun n hle hrat => ?_, fun fold m htop hbelow => ?_⟩
  · exact isFinite_mround hone hroom hx hxle hy hyle hzero
  · exact isFinite_fix hone hroom hx hxle hy hrat hle
  · exact ⟨Machine.leaves_binaryWithSide mround htop hbelow,
      Machine.leaves_binaryWithSide fix htop hbelow⟩

theorem isFinite_rounding_limit : limit.isFinite = true ∧ |toRat limit| ≤ toRat limit ∧
    (ofNat 1).isFinite = true ∧
    ((mround limit (ofNat 1)).1.isFinite = true ∧ (mround limit (ofNat 1)).2.isFinite = true) ∧
    ((fix limit (ofNat 1)).1.isFinite = true ∧ (fix limit (ofNat 1)).2.isFinite = true) ∧
    let m := start [.number (ofNat 1), .number limit] Registers.new
    m.Leaves (m.perform (foldWith run) .mround) (mround limit (ofNat 1)) := by
  have hone := one_le_limit
  have hroom := limit_lt_overflow
  have habs : |toRat limit| = toRat limit := abs_of_pos (by linarith)
  obtain ⟨hstep, hrat⟩ := toRat_one
  obtain ⟨hmround, hfix, hperform⟩ := isFinite_rounding isFinite_limit habs.le hstep
  rw [habs, hrat, abs_one, mul_one] at hmround
  rw [habs, hrat] at hfix
  obtain ⟨hmultiple, hmultipleSide⟩ := hmround one_ne_zero hone
  obtain ⟨hdecimals, hdecimalsSide⟩ := hfix 1 (by decide) Nat.cast_one.symm
  have hquotient : toRat limit < overflow := by linarith
  have hproduct : toRat limit * 10 ^ 1 < overflow := by linarith
  exact ⟨isFinite_limit, habs.le, hstep, ⟨hmultiple.2 hquotient, hmultipleSide.2 hquotient⟩,
    ⟨hdecimals.2 hproduct, hdecimalsSide.2 hproduct⟩, (hperform _ _ rfl rfl).1⟩

/-- Rounding the limit to twenty-two decimals leaves it, but what is computed is infinite. -/
theorem not_isFinite_fix_limit : limit.isFinite = true ∧ (ofNat 22).isFinite = true ∧
    toRat (ofNat 22) = 22 ∧ (fix limit (ofNat 22)).1.isFinite = false ∧
    (fix limit (ofNat 22)).2.isFinite = false :=
  ⟨by decide +kernel, by decide +kernel, (@toRat_ofNat 22 (by decide)).2, by decide +kernel,
    by decide +kernel⟩

end Number

end Reckoner
