import Reckoner.Number.Layout
import Reckoner.Proofs.Text.Words

/-!
# The texts of numbers

A number is written as one word without a dollar sign, which begins with a digit
or a capital letter, or with a minus sign before it (`Number.isNumeral_format`).
-/

namespace Reckoner.Number

/-- Characters as numbers are written with. -/
def isNumeralChar (c : Char) : Bool := c.isDigit || c == '.'

/-- A text that looks like a number from its start, and holds neither blanks nor
references. -/
def IsNumeral (cs : List Char) : Prop :=
  ∃ negative first rest, cs = withSign negative (first :: rest) ∧
    (first.isDigit || first == 'I' || first == 'N') = true ∧
      ∀ c ∈ first :: rest, Text.isBlank c = false ∧ c ≠ '$'

theorem isBlank_of_isNumeralChar {c : Char} (h : isNumeralChar c = true) :
    Text.isBlank c = false ∧ c ≠ '$' := by
  rw [isNumeralChar, Bool.or_eq_true, beq_iff_eq] at h
  rcases h with h | rfl
  · have hrange : 48 ≤ c.toNat ∧ c.toNat ≤ 57 := by
      simpa [Char.isDigit, UInt32.le_iff_toNat_le] using h
    refine ⟨?_, ?_⟩
    · simp only [Text.isBlank, Bool.or_eq_false_iff, Bool.and_eq_false_iff, decide_eq_false_iff_not,
        beq_eq_false_iff_ne]
      omega
    · rintro rfl
      cases h
  · decide

theorem isDigit_of_mem_digits {n : Nat} : ∀ c ∈ Nat.toDigits 10 n, c.isDigit = true :=
  fun _ hc => Nat.isDigit_of_mem_toDigits (by decide) (by decide) hc

/-- The digits before the point are there, and those after it are digits. -/
theorem splitAtPoint_spec {digits : List Char} (hne : digits ≠ [])
    (hdigits : ∀ c ∈ digits, c.isDigit = true) (exponent : Int) :
    (splitAtPoint digits exponent).1 ≠ [] ∧
      (∀ c ∈ (splitAtPoint digits exponent).1, c.isDigit = true) ∧
        ∀ c ∈ (splitAtPoint digits exponent).2, c.isDigit = true := by
  have hzeros : ∀ n, ∀ c ∈ List.replicate n '0', c.isDigit = true := by
    intro n c hc
    rw [List.eq_of_mem_replicate hc]
    rfl
  have happend : ∀ l l' : List Char, (∀ c ∈ l, c.isDigit = true) → (∀ c ∈ l', c.isDigit = true) →
      ∀ c ∈ l ++ l', c.isDigit = true :=
    fun l l' hl hl' c hc => (List.mem_append.1 hc).elim (hl c) (hl' c)
  unfold splitAtPoint
  split
  · exact ⟨List.append_ne_nil_of_left_ne_nil hne _, happend _ _ hdigits (hzeros _), nofun⟩
  · simp only
    split
    · next hplaces =>
      refine ⟨fun hnil => ?_, fun c hc => hdigits c (List.mem_of_mem_take hc),
        fun c hc => hdigits c (List.mem_of_mem_drop hc)⟩
      have hlength := congrArg List.length hnil
      rw [List.length_take, List.length_nil] at hlength
      omega
    · exact ⟨List.cons_ne_nil _ _, by simp, happend _ _ (hzeros _) hdigits⟩

theorem write_plain_eq (d : Decimal) :
    d.write .plain = joinAtPoint (splitAtPoint (Nat.toDigits 10 d.digits) d.exponent) := by
  simp only [Decimal.write, Style.plain]
  rw [if_pos trivial]
  split
  · next h => rw [h]; rfl
  · rfl

/-- What is written without an exponent is a digit, further digits and a point. -/
theorem write_plain (d : Decimal) : ∃ first rest, d.write .plain = first :: rest ∧
    first.isDigit = true ∧ ∀ c ∈ first :: rest, isNumeralChar c = true := by
  obtain ⟨hne, hwhole, hfraction⟩ := splitAtPoint_spec
    (Nat.toDigits_ne_nil (n := d.digits) (b := 10)) isDigit_of_mem_digits d.exponent
  rw [write_plain_eq]
  generalize splitAtPoint (Nat.toDigits 10 d.digits) d.exponent = split at hne hwhole hfraction
  obtain ⟨whole, fraction⟩ := split
  simp only at hne hwhole hfraction
  obtain ⟨first, rest, rfl⟩ := List.exists_cons_of_ne_nil hne
  have hfirst : first.isDigit = true := hwhole first List.mem_cons_self
  have hdigit : ∀ c, c.isDigit = true → isNumeralChar c = true := fun c hc => by
    rw [isNumeralChar, hc, Bool.true_or]
  cases fraction with
  | nil => exact ⟨first, rest, rfl, hfirst, fun c hc => hdigit c (hwhole c hc)⟩
  | cons d fraction =>
    refine ⟨first, rest ++ '.' :: d :: fraction, rfl, hfirst, fun c hc => ?_⟩
    rw [← List.cons_append] at hc
    rcases List.mem_append.1 hc with hc | hc
    · exact hdigit c (hwhole c hc)
    · rcases List.mem_cons.1 hc with rfl | hc
      · rfl
      · exact hdigit c (hfraction c hc)

theorem isBlank_of_all {cs : List Char} (h : cs.all (fun c => !Text.isBlank c && c != '$') = true) :
    ∀ c ∈ cs, Text.isBlank c = false ∧ c ≠ '$' := by
  simpa using h

theorem isNumeral_formatChars (x : Float) : IsNumeral (formatChars x) := by
  unfold formatChars
  split
  · exact ⟨false, 'N', ['a', 'N'], rfl, rfl, isBlank_of_all rfl⟩
  · next negative _ => exact ⟨negative, 'I', infinityWord.tail, rfl, rfl, isBlank_of_all rfl⟩
  · next negative significand exponent _ =>
    obtain ⟨first, rest, hwrite, hfirst, hchars⟩ :=
      write_plain (writtenDecimal .up significand exponent)
    refine ⟨_, first, rest, congrArg _ hwrite, by rw [hfirst]; rfl,
      fun c hc => isBlank_of_isNumeralChar (hchars c hc)⟩

/-- The characters of a written number are those of a word. -/
theorem IsNumeral.isWord {cs : List Char} (h : IsNumeral cs) : Text.IsWord cs ∧ '$' ∉ cs := by
  obtain ⟨negative, first, rest, rfl, -, hchars⟩ := h
  have hall : ∀ c ∈ withSign negative (first :: rest), Text.isBlank c = false ∧ c ≠ '$' := by
    intro c hc
    cases negative with
    | false => exact hchars c hc
    | true =>
      rcases List.mem_cons.1 hc with rfl | hc
      · decide
      · exact hchars c hc
  refine ⟨⟨?_, fun c hc => (hall c hc).1⟩, fun h => (hall _ h).2 rfl⟩
  cases negative with
  | false => exact List.cons_ne_nil _ _
  | true => exact List.cons_ne_nil _ _

end Reckoner.Number
