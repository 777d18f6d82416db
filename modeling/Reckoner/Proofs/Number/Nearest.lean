import Reckoner.Number.Decimal
import Reckoner.Proofs.Number.Bits

/-!
# The nearest double

What a pattern below the sign bit denotes (`Number.magnitude`), which is what the parts of the
double tell (`Number.magnitude_pattern`), grows with the pattern
(`Number.magnitude_strictMono`). Of all patterns one is nearest to a number that is not negative,
where of two at the same distance it is the even one (`Number.IsNearest`,
`Number.IsNearest.unique`). A fraction (`Number.isNearest_nearest`) and a decimal number
(`Number.Decimal.isNearest_bits`) are rounded to it, so decimal numbers of the same value are
rounded in the same way (`Number.Decimal.bits_congr`), and one that is a double is not changed.
What is rounded to infinity is what reaches `Number.overflow`
(`Number.IsNearest.lt_infinityBits_iff`).
-/

namespace Reckoner.Number

/-- What a pattern below the sign bit denotes. The pattern of infinity stands for the power of two
after the greatest finite double. -/
def magnitude (bits : Nat) : ℚ :=
  if bits / 2 ^ 52 = 0 then bits * 2 ^ (-1074 : Int)
  else (2 ^ 52 + bits % 2 ^ 52 : Nat) * 2 ^ ((bits / 2 ^ 52 : Nat) - 1075 : Int)

/-- A pattern is a significand and the number of the binade that it is counted in; the
significand may reach the next binade. -/
theorem magnitude_place {significand place : Nat} (hle : significand ≤ 2 ^ 53)
    (hleading : place = 0 ∨ 2 ^ 52 ≤ significand) :
    magnitude (significand + place * 2 ^ 52) = significand * 2 ^ ((place : Int) - 1074) := by
  unfold magnitude
  rcases Nat.lt_or_ge significand (2 ^ 52) with hlow | hhigh
  · obtain rfl : place = 0 := hleading.resolve_right (by omega)
    rw [if_pos (by omega), Nat.zero_mul, Nat.add_zero]
    rfl
  · rcases Nat.lt_or_eq_of_le hle with hlt | rfl
    · have hdiv : (significand + place * 2 ^ 52) / 2 ^ 52 = place + 1 := by omega
      have hmod : 2 ^ 52 + (significand + place * 2 ^ 52) % 2 ^ 52 = significand := by omega
      have hexponent : ((place + 1 : Nat) : Int) - 1075 = place - 1074 := by omega
      rw [hdiv, hmod, if_neg (Nat.succ_ne_zero _), hexponent]
    · have hdiv : (2 ^ 53 + place * 2 ^ 52) / 2 ^ 52 = place + 2 := by omega
      have hmod : 2 ^ 52 + (2 ^ 53 + place * 2 ^ 52) % 2 ^ 52 = 2 ^ 52 := by omega
      have hexponent : ((place + 2 : Nat) : Int) - 1075 = place - 1074 + 1 := by omega
      rw [hdiv, hmod, if_neg (Nat.succ_ne_zero _), hexponent, zpow_add_one₀ two_ne_zero]
      push_cast
      ring

theorem magnitude_strictMono : StrictMono magnitude := by
  refine strictMono_nat_of_lt_succ fun n => ?_
  obtain ⟨significand, place, rfl, hlt, hleading⟩ : ∃ significand place,
      n = significand + place * 2 ^ 52 ∧ significand < 2 ^ 53 ∧
        (place = 0 ∨ 2 ^ 52 ≤ significand) := by
    rcases Nat.lt_or_ge n (2 ^ 52) with hlow | hhigh
    · exact ⟨n, 0, by omega, by omega, .inl rfl⟩
    · exact ⟨2 ^ 52 + n % 2 ^ 52, n / 2 ^ 52 - 1, by omega, by omega, .inr (by omega)⟩
  rw [Nat.add_right_comm, magnitude_place hlt.le hleading,
    magnitude_place hlt (hleading.imp_right Nat.le_succ_of_le)]
  gcongr
  exact Nat.lt_succ_self _

theorem magnitude_zero : magnitude 0 = 0 := by simp [magnitude]

theorem magnitude_one_pos : 0 < magnitude 1 := magnitude_zero ▸ magnitude_strictMono Nat.one_pos

/-- The first pattern of a binade denotes a power of two. -/
theorem magnitude_binade (k : Nat) : magnitude ((k + 1) * 2 ^ 52) = 2 ^ ((k : Int) - 1022) := by
  have hplace : magnitude (2 ^ 52 + k * 2 ^ 52) = ((2 ^ 52 : Nat) : ℚ) * 2 ^ ((k : Int) - 1074) :=
    magnitude_place (by norm_num) (.inr le_rfl)
  have hcast : ((2 ^ 52 : Nat) : ℚ) = 2 ^ (52 : Int) := by norm_num
  rw [Nat.succ_mul, Nat.add_comm, hplace, hcast, ← zpow_add₀ two_ne_zero]
  congr 1
  omega

theorem magnitude_infinityBits : magnitude infinityBits = 2 ^ (1024 : Int) :=
  magnitude_binade 2046

/-- The pattern of a significand and an exponent denotes their number. -/
theorem Canonical.magnitude_eq {significand : Nat} {exponent : Int}
    (h : Canonical significand exponent) :
    magnitude (significand + (exponent + 1074).toNat * 2 ^ 52) = significand * 2 ^ exponent := by
  have hleast := h.least_le
  rw [magnitude_place h.lt.le (h.leading.imp_left (by omega))]
  congr 2
  omega

/-- The pattern of a finite double denotes what its parts do. -/
theorem magnitude_pattern {x : Float} {negative : Bool} {significand : Nat} {exponent : Int}
    (h : parts x = .finite negative significand exponent) :
    magnitude (pattern x) = significand * 2 ^ exponent := by
  have hnan : x.isNaN = false := by
    cases hx : x.isNaN with
    | false => rfl
    | true => cases h.symm.trans (parts_of_isNaN hx)
  rcases parts_cases hnan with ⟨-, hparts⟩ | ⟨s, e, hparts, hcanonical, hpattern⟩
  · cases h.symm.trans hparts
  · obtain ⟨-, rfl, rfl⟩ := Parts.finite.inj (h.symm.trans hparts)
    rw [hpattern, hcanonical.magnitude_eq]

/-! ## The nearest pattern -/

/-- No double that is not negative is nearer to `q`, and of two that are nearest this is the one
with the even pattern. -/
structure IsNearest (bits : Nat) (q : ℚ) : Prop where
  le : bits ≤ infinityBits
  closest : ∀ n ≤ infinityBits, |magnitude bits - q| ≤ |magnitude n - q|
  even : ∀ n ≤ infinityBits, n ≠ bits → |magnitude n - q| = |magnitude bits - q| → bits % 2 = 0

/-- One pattern is nearest. -/
theorem IsNearest.unique {a b : Nat} {q : ℚ} (ha : IsNearest a q) (hb : IsNearest b q) :
    a = b := by
  wlog hlt : a < b generalizing a b
  · rcases Nat.lt_or_eq_of_le (not_lt.1 hlt) with h | h
    · exact (this hb ha h).symm
    · exact h.symm
  have hdistance : |magnitude a - q| = |magnitude b - q| :=
    le_antisymm (ha.closest b hb.le) (hb.closest a ha.le)
  have hevena := ha.even b hb.le hlt.ne' hdistance.symm
  have hevenb := hb.even a ha.le hlt.ne hdistance
  -- two even patterns have one between them, which is nearer than both
  have hbetween := ha.closest (a + 1) (by have := hb.le; omega)
  have hlow := magnitude_strictMono (Nat.lt_add_one a)
  have hhigh := magnitude_strictMono (show a + 1 < b by omega)
  rcases abs_eq_abs.1 hdistance with heq | heq
  · linarith
  · refine absurd hbetween (not_le.2 ?_)
    rw [abs_sub_comm (magnitude a), abs_of_pos (show 0 < q - magnitude a by linarith)]
    exact abs_lt.2 ⟨by linarith, by linarith⟩

/-- What is at least a double is not rounded to one below it. -/
theorem IsNearest.le_of_magnitude_le {bits limit : Nat} {q : ℚ} (h : IsNearest bits q)
    (hlimit : limit ≤ infinityBits) (hq : magnitude limit ≤ q) : limit ≤ bits := by
  by_contra hlt
  have hbits := magnitude_strictMono (not_le.1 hlt)
  have hclosest := h.closest limit hlimit
  rw [abs_of_nonpos (by linarith), abs_of_nonpos (by linarith)] at hclosest
  linarith

/-- The least number that is rounded to infinity, in the middle between the greatest finite double
and the power of two after it. -/
def overflow : ℚ := 2 ^ (1024 : Int) - 2 ^ (970 : Int)

theorem two_pow_le_overflow : (2 : ℚ) ^ (1023 : Int) ≤ overflow := by
  have hdouble : (2 : ℚ) ^ (1024 : Int) = 2 ^ (1023 : Int) + 2 ^ (1023 : Int) := by
    rw [← mul_two, ← zpow_add_one₀ two_ne_zero]
    rfl
  have hle : (2 : ℚ) ^ (970 : Int) ≤ 2 ^ (1023 : Int) :=
    zpow_le_zpow_right₀ one_le_two (by decide)
  rw [overflow, hdouble, add_sub_assoc]
  exact le_add_of_nonneg_right (sub_nonneg.2 hle)

/-- The pattern of infinity and the one before it lie equally far from that number. -/
theorem exists_gap : ∃ gap : ℚ, 0 < gap ∧ magnitude infinityBits = overflow + gap ∧
    magnitude (infinityBits - 1) = overflow - gap := by
  have hdouble : (2 : ℚ) ^ (971 : Int) = 2 ^ (970 : Int) + 2 ^ (970 : Int) := by
    rw [← mul_two, ← zpow_add_one₀ two_ne_zero]
    rfl
  have hinfinity : (2 : ℚ) ^ (1024 : Int) = 2 ^ (53 : Int) * 2 ^ (971 : Int) := by
    rw [← zpow_add₀ two_ne_zero]
    rfl
  have hplace : magnitude (2 ^ 53 - 1 + 2045 * 2 ^ 52) =
      ((2 ^ 53 - 1 : Nat) : ℚ) * 2 ^ (971 : Int) :=
    magnitude_place (by norm_num) (.inr (by norm_num))
  have hcast : ((2 ^ 53 - 1 : Nat) : ℚ) = 2 ^ (53 : Int) - 1 := by norm_num
  refine ⟨2 ^ (970 : Int), by positivity, ?_, hplace.trans ?_⟩
  · rw [magnitude_infinityBits, overflow, sub_add_cancel]
  · rw [hcast, sub_mul, ← hinfinity, one_mul, hdouble, overflow, sub_sub]

/-- A number is rounded to a finite double if it is below the middle between the greatest of them
and the power of two after it; in the middle the even pattern is that of infinity. -/
theorem IsNearest.lt_infinityBits_iff {bits : Nat} {q : ℚ} (h : IsNearest bits q) :
    bits < infinityBits ↔ q < overflow := by
  obtain ⟨gap, hgap, hinfinity, hgreatest⟩ := exists_gap
  constructor
  · intro hlt
    by_contra hq
    have hle := magnitude_strictMono.monotone (Nat.le_sub_one_of_lt hlt)
    have hbelow : |magnitude bits - q| = q - magnitude bits := by
      rw [abs_sub_comm, abs_of_nonneg (by linarith)]
    have hclosest := h.closest infinityBits le_rfl
    rw [hbelow] at hclosest
    rcases abs_cases (magnitude infinityBits - q) with ⟨habs, -⟩ | ⟨habs, -⟩
    · -- the distances are equal, so the finite pattern has to be even
      have heq : magnitude bits = magnitude (infinityBits - 1) := by linarith
      have heven := h.even infinityBits le_rfl hlt.ne' (by rw [hbelow, habs]; linarith)
      rw [magnitude_strictMono.injective heq] at heven
      exact absurd heven (by decide)
    · linarith
  · intro hq
    refine lt_of_le_of_ne h.le fun heq => ?_
    have hclosest := h.closest (infinityBits - 1) (Nat.sub_le _ _)
    rw [heq, hinfinity, hgreatest, abs_of_pos (by linarith)] at hclosest
    rcases abs_cases (overflow - gap - q) with ⟨habs, -⟩ | ⟨habs, -⟩ <;> linarith

/-- What is a double is nearest to itself. -/
theorem isNearest_magnitude {bits : Nat} (h : bits ≤ infinityBits) :
    IsNearest bits (magnitude bits) where
  le := h
  closest n _ := by
    rw [sub_self, abs_zero]
    exact abs_nonneg _
  even n _ hne heq := by
    rw [sub_self, abs_zero, abs_eq_zero, sub_eq_zero] at heq
    exact absurd (magnitude_strictMono.injective heq) hne

/-- What lies between two neighbours is nearest to one of them. -/
theorem isNearest_of_between {a bits : Nat} {q : ℚ} (ha : a + 1 ≤ infinityBits)
    (hlow : magnitude a ≤ q) (hhigh : q ≤ magnitude (a + 1))
    (hbits : bits = a ∧ q - magnitude a ≤ magnitude (a + 1) - q ∨
      bits = a + 1 ∧ magnitude (a + 1) - q ≤ q - magnitude a)
    (heven : q - magnitude a = magnitude (a + 1) - q → bits % 2 = 0) : IsNearest bits q := by
  have hdown : |magnitude a - q| = q - magnitude a := by
    rw [abs_sub_comm, abs_of_nonneg (by linarith)]
  have hup : |magnitude (a + 1) - q| = magnitude (a + 1) - q := abs_of_nonneg (by linarith)
  have hclose : |magnitude bits - q| ≤ |magnitude a - q| ∧
      |magnitude bits - q| ≤ |magnitude (a + 1) - q| := by
    obtain ⟨rfl, hle⟩ | ⟨rfl, hle⟩ := hbits
    · exact ⟨le_rfl, by rw [hdown, hup]; exact hle⟩
    · exact ⟨by rw [hdown, hup]; exact hle, le_rfl⟩
  -- any other pattern is beyond one of the two neighbours
  have hfar : ∀ n, |magnitude bits - q| ≤ |magnitude n - q| ∧
      (n ≠ bits → |magnitude n - q| = |magnitude bits - q| →
        q - magnitude a = magnitude (a + 1) - q) := by
    intro n
    rcases Nat.lt_or_ge a n with hn | hn
    · have hle := magnitude_strictMono.monotone (show a + 1 ≤ n from hn)
      have habs : |magnitude n - q| = magnitude n - q := abs_of_nonneg (by linarith)
      refine ⟨hclose.2.trans (by rw [hup, habs]; linarith), fun hne heq => ?_⟩
      have heqn : magnitude n = magnitude (a + 1) := by linarith [hclose.2]
      obtain rfl := magnitude_strictMono.injective heqn
      obtain ⟨rfl, -⟩ := hbits.resolve_right fun h => hne h.1.symm
      linarith
    · have hle := magnitude_strictMono.monotone hn
      have habs : |magnitude n - q| = q - magnitude n := by
        rw [abs_sub_comm, abs_of_nonneg (by linarith)]
      refine ⟨hclose.1.trans (by rw [hdown, habs]; linarith), fun hne heq => ?_⟩
      have heqn : magnitude n = magnitude a := by linarith [hclose.1]
      obtain rfl := magnitude_strictMono.injective heqn
      obtain ⟨rfl, -⟩ := hbits.resolve_left fun h => hne h.1.symm
      linarith
  refine ⟨?_, fun n _ => (hfar n).1, fun n _ hne heq => heven ((hfar n).2 hne heq)⟩
  obtain ⟨rfl, -⟩ | ⟨rfl, -⟩ := hbits
  · omega
  · exact ha

/-- What no finite double reaches is nearest to infinity. -/
theorem isNearest_infinityBits {q : ℚ} (h : magnitude infinityBits ≤ q) :
    IsNearest infinityBits q where
  le := le_rfl
  closest n hn := by
    have hle := magnitude_strictMono.monotone hn
    rw [abs_sub_comm, abs_of_nonneg (by linarith), abs_sub_comm, abs_of_nonneg (by linarith)]
    linarith
  even _ _ _ _ := rfl

/-- What is nearer to zero than to the least double is rounded to zero. -/
theorem isNearest_zero {q : ℚ} (hnonneg : 0 ≤ q) (h : 2 * q ≤ magnitude 1) : IsNearest 0 q := by
  refine isNearest_of_between (a := 0) (by decide) ?_ ?_ (.inl ⟨rfl, ?_⟩) fun _ => rfl
  · rwa [magnitude_zero]
  · rw [Nat.zero_add]
    linarith
  · rw [magnitude_zero, Nat.zero_add]
    linarith

/-! ## Rounding -/

/-- A power with a whole exponent as a fraction of powers. -/
theorem zpow_eq_div (base : ℚ) (p : Int) : base ^ p = base ^ p.toNat / base ^ (-p).toNat := by
  rcases Int.le_total 0 p with hp | hp
  · obtain ⟨n, rfl⟩ := Int.eq_ofNat_of_zero_le hp
    have hneg : (-(n : Int)).toNat = 0 := by omega
    rw [hneg, Int.toNat_natCast, zpow_natCast, pow_zero, div_one]
  · obtain ⟨n, hn⟩ := Int.eq_ofNat_of_zero_le (Int.neg_nonneg_of_nonpos hp)
    have hpos : p.toNat = 0 := by omega
    rw [hpos, hn, Int.toNat_natCast, pow_zero, one_div, ← zpow_natCast, ← zpow_neg, ← hn, neg_neg]

variable {num den : Nat}

theorem lt_zpow_two_iff (hden : den ≠ 0) (p : Int) :
    num * Nat.pow 2 (-p).toNat < den * Nat.pow 2 p.toNat ↔ (num : ℚ) / den < 2 ^ p := by
  have hden' : (0 : ℚ) < den := by positivity
  rw [zpow_eq_div, div_lt_div_iff₀ hden' (by positivity), mul_comm _ (den : ℚ)]
  exact_mod_cast Iff.rfl

/-- The leading binary digit of a fraction stands where its value says. -/
theorem leadingBit_spec (hnum : num ≠ 0) (hden : den ≠ 0) :
    (2 : ℚ) ^ leadingBit num den ≤ num / den ∧ (num : ℚ) / den < 2 ^ (leadingBit num den + 1) := by
  have hden' : (0 : ℚ) < den := by positivity
  have hnumLow : (2 : ℚ) ^ num.log2 ≤ num := by exact_mod_cast Nat.log2_self_le hnum
  have hnumHigh : (num : ℚ) < 2 ^ (num.log2 + 1) := by exact_mod_cast Nat.lt_log2_self
  have hdenLow : (2 : ℚ) ^ den.log2 ≤ den := by exact_mod_cast Nat.log2_self_le hden
  have hdenHigh : (den : ℚ) < 2 ^ (den.log2 + 1) := by exact_mod_cast Nat.lt_log2_self
  unfold leadingBit
  simp only
  generalize hp : (num.log2 : Int) - den.log2 = p
  have hlow : (2 : ℚ) ^ (p - 1) ≤ num / den :=
    calc (2 : ℚ) ^ (p - 1) = 2 ^ num.log2 / 2 ^ (den.log2 + 1) := by
          rw [← hp, sub_sub, zpow_sub₀ two_ne_zero, zpow_natCast]
          exact_mod_cast rfl
      _ ≤ num / den := by gcongr
  have hhigh : (num : ℚ) / den < 2 ^ (p + 1) :=
    calc (num : ℚ) / den < 2 ^ (num.log2 + 1) / 2 ^ den.log2 :=
          div_lt_div₀ hnumHigh hdenLow (by positivity) (by positivity)
      _ = 2 ^ (p + 1) := by
          rw [← hp, sub_add_eq_add_sub, zpow_sub₀ two_ne_zero, zpow_natCast]
          exact_mod_cast rfl
  split
  · next hlt =>
    exact ⟨hlow, by rw [Int.sub_add_cancel]; exact (lt_zpow_two_iff hden p).1 hlt⟩
  · next hge => exact ⟨not_lt.1 fun hlt => hge ((lt_zpow_two_iff hden p).2 hlt), hhigh⟩

/-- A quotient is rounded to one of the whole numbers next to it, the nearer one or of two the
even one. -/
theorem divHalfEven_cases (num den : Nat) :
    (divHalfEven num den = num / den ∧ 2 * (num % den) ≤ den ∨
      divHalfEven num den = num / den + 1 ∧ den ≤ 2 * (num % den)) ∧
    (2 * (num % den) = den → divHalfEven num den % 2 = 0) := by
  unfold divHalfEven
  simp only
  rcases Nat.lt_trichotomy (2 * (num % den)) den with h | h | h
  · rw [Nat.compare_eq_lt.2 h]
    exact ⟨.inl ⟨rfl, h.le⟩, fun heq => absurd heq h.ne⟩
  · rw [Nat.compare_eq_eq.2 h]
    simp only
    refine ⟨?_, fun _ => by omega⟩
    rcases Nat.mod_two_eq_zero_or_one (num / den) with heven | hodd
    · exact .inl ⟨by rw [heven, Nat.add_zero], h.le⟩
    · exact .inr ⟨by rw [hodd], h.ge⟩
  · rw [Nat.compare_eq_gt.2 h]
    exact ⟨.inr ⟨rfl, h.le⟩, fun heq => absurd heq h.ne'⟩

/-- A fraction is a whole number and a rest, and it is rounded up if the rest is more than a
half. -/
theorem divHalfEven_spec (num : Nat) (hden : den ≠ 0) : ∃ rest : ℚ,
    (num : ℚ) / den = (num / den : Nat) + rest ∧ 0 ≤ rest ∧ rest < 1 ∧
      (divHalfEven num den = num / den ∧ 2 * rest ≤ 1 ∨
        divHalfEven num den = num / den + 1 ∧ 1 ≤ 2 * rest) ∧
      (2 * rest = 1 → divHalfEven num den % 2 = 0) := by
  have hden' : (0 : ℚ) < den := by positivity
  obtain ⟨hcases, htie⟩ := divHalfEven_cases num den
  refine ⟨(num % den : Nat) / den, ?_, by positivity, ?_, ?_, fun htwice => htie ?_⟩
  · rw [div_eq_iff hden'.ne', add_mul, div_mul_cancel₀ _ hden'.ne']
    exact_mod_cast (Nat.div_add_mod' num den).symm
  · rw [div_lt_one hden']
    exact_mod_cast Nat.mod_lt num (Nat.pos_of_ne_zero hden)
  · rw [← mul_div_assoc, div_le_one hden', one_le_div hden']
    exact_mod_cast hcases
  · rw [← mul_div_assoc, div_eq_one_iff_eq hden'.ne'] at htwice
    exact_mod_cast htwice

/-- The pattern that a fraction is rounded to, counted in units of a binade, is the nearest one. -/
theorem isNearest_divHalfEven {place : Nat} (hden : den ≠ 0) (hlt : num / den < 2 ^ 53)
    (hleading : place = 0 ∨ 2 ^ 52 ≤ num / den) (hplace : place ≤ 2045) :
    IsNearest (divHalfEven num den + place * 2 ^ 52) (num / den * 2 ^ ((place : Int) - 1074)) := by
  have hlow := magnitude_place hlt.le hleading
  have hhigh := magnitude_place (Nat.succ_le_of_lt hlt) (hleading.imp_right Nat.le_succ_of_le)
  rw [Nat.succ_eq_add_one, Nat.add_right_comm] at hhigh
  have hunit : (0 : ℚ) < 2 ^ ((place : Int) - 1074) := by positivity
  generalize (2 : ℚ) ^ ((place : Int) - 1074) = unit at hlow hhigh hunit ⊢
  obtain ⟨rest, hsplit, hnonneg, hless, hcases, htie⟩ := divHalfEven_spec num hden
  rw [hsplit]
  -- the distances to the two neighbours
  have hbelow : ((num / den : Nat) + rest) * unit - magnitude (num / den + place * 2 ^ 52) =
      rest * unit := by
    rw [hlow]
    ring
  have habove : magnitude (num / den + place * 2 ^ 52 + 1) - ((num / den : Nat) + rest) * unit =
      (1 - rest) * unit := by
    rw [hhigh]
    push_cast
    ring
  refine isNearest_of_between (a := num / den + place * 2 ^ 52) ?_ ?_ ?_ ?_ ?_
  · unfold infinityBits
    norm_num at hlt ⊢
    omega
  · exact sub_nonneg.1 (hbelow ▸ mul_nonneg hnonneg hunit.le)
  · exact sub_nonneg.1 (habove ▸ mul_nonneg (sub_nonneg.2 hless.le) hunit.le)
  · rw [hbelow, habove, mul_le_mul_iff_of_pos_right hunit, mul_le_mul_iff_of_pos_right hunit]
    obtain ⟨hdown, hhalf⟩ | ⟨hup, hhalf⟩ := hcases
    · exact .inl ⟨by rw [hdown], by linarith⟩
    · exact .inr ⟨by rw [hup]; omega, by linarith⟩
  · intro heq
    rw [hbelow, habove] at heq
    have heven := htie (by linarith [mul_right_cancel₀ hunit.ne' heq])
    omega

theorem div_lt_two_pow_iff (num den k : Nat) :
    num / den < 2 ^ k ↔ (num : ℚ) / den < 2 ^ (k : Int) := by
  rw [← Nat.floor_div_eq_div (K := ℚ), Nat.floor_lt (by positivity), zpow_natCast]
  push_cast
  rfl

/-- The same with infinity in the place of what lies beyond all finite doubles. -/
theorem isNearest_min_divHalfEven {place : Nat} (hden : den ≠ 0) (hlt : num / den < 2 ^ 53)
    (hleading : place = 0 ∨ 2 ^ 52 ≤ num / den) :
    IsNearest (min (divHalfEven num den + place * 2 ^ 52) infinityBits)
      (num / den * 2 ^ ((place : Int) - 1074)) := by
  rcases Nat.lt_or_ge 2045 place with hgreat | hfinite
  · have hnormal := hleading.resolve_left (by omega)
    have hbeyond : infinityBits ≤ divHalfEven num den + place * 2 ^ 52 := by
      have hrounded : num / den ≤ divHalfEven num den := by
        rcases (divHalfEven_cases num den).1 with h | h <;> omega
      unfold infinityBits
      norm_num at hnormal ⊢
      omega
    have hquotient : (2 : ℚ) ^ (52 : Int) ≤ num / den :=
      not_lt.1 (mt (div_lt_two_pow_iff num den 52).2 (not_lt.2 hnormal))
    rw [Nat.min_eq_right hbeyond]
    refine isNearest_infinityBits ?_
    rw [magnitude_infinityBits]
    calc (2 : ℚ) ^ (1024 : Int) ≤ 2 ^ (52 + ((place : Int) - 1074)) :=
          zpow_le_zpow_right₀ one_le_two (by omega)
      _ = 2 ^ (52 : Int) * 2 ^ ((place : Int) - 1074) := zpow_add₀ two_ne_zero _ _
      _ ≤ num / den * 2 ^ ((place : Int) - 1074) := by gcongr
  · have hnearest := isNearest_divHalfEven hden hlt hleading hfinite
    rwa [Nat.min_eq_left hnearest.le]

/-- The fraction whose quotient is rounded, in units of `2 ^ e`. -/
theorem scaled_eq (num : Nat) (hden : den ≠ 0) (e : Int) :
    ((num * Nat.pow 2 (-e).toNat : Nat) : ℚ) / (den * Nat.pow 2 e.toNat : Nat) * 2 ^ e =
      num / den := by
  have hden' : (den : ℚ) ≠ 0 := by exact_mod_cast hden
  rw [zpow_eq_div]
  push_cast [Nat.pow_eq]
  field_simp

/-- A fraction is rounded to the nearest double. -/
theorem isNearest_nearest (num : Nat) (hden : den ≠ 0) :
    IsNearest (nearest num den) (num / den) := by
  by_cases hnum : num = 0
  · have hzero : nearest num den = 0 := by rw [nearest, if_pos hnum]
    rw [hzero, hnum, Nat.cast_zero, zero_div]
    exact isNearest_zero le_rfl (by rw [mul_zero]; exact magnitude_one_pos.le)
  obtain ⟨hlow, hhigh⟩ := leadingBit_spec hnum hden
  rw [nearest, if_neg hnum]
  simp only
  generalize he : max (leadingBit num den - 52) (-1074) = e
  have hscaled := scaled_eq num hden e
  have hD : den * Nat.pow 2 e.toNat ≠ 0 := Nat.mul_ne_zero hden (Nat.two_pow_pos _).ne'
  generalize num * Nat.pow 2 (-e).toNat = N at hscaled ⊢
  generalize den * Nat.pow 2 e.toNat = D at hscaled hD ⊢
  have hexponent : (((e + 1074).toNat : Nat) : Int) - 1074 = e := by omega
  have hunit : (0 : ℚ) < 2 ^ e := by positivity
  have hquotient (k : Nat) : N / D < 2 ^ k ↔ (num : ℚ) / den < 2 ^ (k + e) := by
    rw [div_lt_two_pow_iff, ← mul_lt_mul_iff_of_pos_right hunit, hscaled, ← zpow_add₀ two_ne_zero]
  have hlt : N / D < 2 ^ 53 := (hquotient 53).2 <|
    hhigh.trans_le (zpow_le_zpow_right₀ one_le_two (by omega))
  have hleading : (e + 1074).toNat = 0 ∨ 2 ^ 52 ≤ N / D := by
    rcases le_total (leadingBit num den - 52) (-1074) with hleast | hnormal
    · exact .inl (by omega)
    · exact .inr <| not_lt.1 <| mt (hquotient 52).1 <| not_lt.2 <|
        (zpow_le_zpow_right₀ one_le_two (by omega)).trans hlow
  have hnearest := isNearest_min_divHalfEven hD hlt hleading
  rwa [hexponent, hscaled] at hnearest

namespace Decimal

/-- The number that is written. -/
def toRat (d : Decimal) : ℚ := d.digits * 10 ^ d.exponent

/-- Three binary digits are less than a decimal one. -/
theorem zpow_two_le_zpow_ten {n : Int} (hn : 0 ≤ n) : (2 : ℚ) ^ (3 * n) ≤ 10 ^ n := by
  rw [zpow_mul]
  exact zpow_le_zpow_left₀ hn (by norm_num) (by norm_num)

variable {digits : Nat} {exponent : Int}

/-- A number of this size is beyond all doubles. -/
theorem isNearest_of_large (hdigits : digits ≠ 0) (h : 400 < exponent) :
    IsNearest infinityBits (toRat ⟨digits, exponent⟩) := by
  have hone : (1 : ℚ) ≤ digits := by exact_mod_cast Nat.one_le_iff_ne_zero.2 hdigits
  refine isNearest_infinityBits ?_
  calc magnitude infinityBits = 2 ^ (1024 : Int) := magnitude_infinityBits
    _ ≤ 2 ^ (3 * exponent) := zpow_le_zpow_right₀ one_le_two (by omega)
    _ ≤ 10 ^ exponent := zpow_two_le_zpow_ten (by omega)
    _ ≤ digits * 10 ^ exponent := le_mul_of_one_le_left (by positivity) hone

/-- A number of this size is nearer to zero than to any other double. -/
theorem isNearest_of_small (h : exponent + digits.log2 < -400) :
    IsNearest 0 (toRat ⟨digits, exponent⟩) := by
  have hnonneg : 0 ≤ toRat ⟨digits, exponent⟩ := by
    unfold toRat
    positivity
  refine isNearest_zero hnonneg ?_
  have hlog : (digits : ℚ) ≤ 10 ^ ((digits.log2 : Int) + 1) := by
    have hbinary : digits ≤ 10 ^ (digits.log2 + 1) :=
      Nat.lt_log2_self.le.trans (Nat.pow_le_pow_left (by decide) _)
    exact_mod_cast hbinary
  have hten := zpow_two_le_zpow_ten (n := -(exponent + digits.log2 + 1)) (by omega)
  have hone : magnitude 1 = 2 ^ (-1074 : Int) := by norm_num [magnitude]
  calc 2 * (digits * 10 ^ exponent : ℚ)
      ≤ 2 * (10 ^ ((digits.log2 : Int) + 1) * 10 ^ exponent) := by gcongr
    _ = 2 * (10 ^ (-(exponent + digits.log2 + 1)))⁻¹ := by
      rw [← zpow_add₀ (by norm_num), ← zpow_neg]
      congr 2
      omega
    _ ≤ 2 * (2 ^ (3 * -(exponent + digits.log2 + 1)))⁻¹ := by gcongr
    _ = 2 ^ (1 + 3 * (exponent + digits.log2 + 1)) := by
      rw [← zpow_neg, zpow_add₀ two_ne_zero, zpow_one]
      congr 2
      omega
    _ ≤ 2 ^ (-1074 : Int) := zpow_le_zpow_right₀ one_le_two (by omega)
    _ = magnitude 1 := hone.symm

/-- A decimal number as the fraction that is rounded. -/
theorem toRat_eq_div (digits : Nat) (exponent : Int) : toRat ⟨digits, exponent⟩ =
    (digits * 10 ^ exponent.toNat : Nat) / (10 ^ (-exponent).toNat : Nat) := by
  rw [toRat, zpow_eq_div, mul_div_assoc']
  push_cast
  rfl

/-- A decimal number is rounded to the nearest double, however large or small it is. -/
theorem isNearest_bits (d : Decimal) : IsNearest d.bits d.toRat := by
  obtain ⟨digits, exponent⟩ := d
  by_cases hzero : digits = 0
  · rw [bits, if_pos hzero, toRat, hzero, Nat.cast_zero, zero_mul]
    exact isNearest_zero le_rfl (by rw [mul_zero]; exact magnitude_one_pos.le)
  rcases lt_or_ge 400 exponent with hlarge | hfew
  · rw [bits, if_neg hzero, if_pos hlarge]
    exact isNearest_of_large hzero hlarge
  rcases lt_or_ge (exponent + digits.log2) (-400) with hsmall | hmany
  · rw [bits, if_neg hzero, if_neg (not_lt.2 hfew), if_pos hsmall]
    exact isNearest_of_small hsmall
  · rw [bits, if_neg hzero, if_neg (not_lt.2 hfew), if_neg (not_lt.2 hmany), toRat_eq_div]
    exact isNearest_nearest _ (Nat.pow_pos (by decide)).ne'

theorem bits_le (d : Decimal) : d.bits ≤ infinityBits := d.isNearest_bits.le

/-- Only its value tells how a decimal number is rounded. -/
theorem bits_congr {d d' : Decimal} (h : d.toRat = d'.toRat) : d.bits = d'.bits :=
  d.isNearest_bits.unique (h ▸ d'.isNearest_bits)

/-- The decimal number that is made of a double equals it. -/
theorem toRat_ofScaled (significand : Nat) (exponent : Int) :
    (ofScaled significand exponent).toRat = significand * 2 ^ exponent := by
  unfold ofScaled
  split
  · next hwhole =>
    have hzero : (-exponent).toNat = 0 := by omega
    rw [toRat, zpow_eq_div 2, hzero]
    simp
  · next hfraction =>
    have hzero : exponent.toNat = 0 := by omega
    have hten : (10 : ℚ) ^ (-exponent).toNat = 5 ^ (-exponent).toNat * 2 ^ (-exponent).toNat := by
      rw [← mul_pow]
      norm_num
    rw [toRat, zpow_eq_div 2, zpow_eq_div, hten, hzero]
    push_cast [Nat.pow_eq]
    field_simp

/-- The decimal number that equals a double is rounded to it. -/
theorem bits_ofScaled {significand : Nat} {exponent : Int} (h : Canonical significand exponent) :
    (ofScaled significand exponent).bits = significand + (exponent + 1074).toNat * 2 ^ 52 := by
  have hle : significand + (exponent + 1074).toNat * 2 ^ 52 ≤ infinityBits := by
    obtain ⟨hlt, hleast, hgreatest, -⟩ := h
    unfold infinityBits
    norm_num at hlt ⊢
    omega
  have hnearest := isNearest_magnitude hle
  rw [h.magnitude_eq, ← toRat_ofScaled] at hnearest
  exact (isNearest_bits _).unique hnearest

end Decimal

end Reckoner.Number
