import Mathlib.Data.List.TakeWhile
import Reckoner.Number.Literal

/-!
# What a written number is

The texts that are numbers, apart from any way to scan them: a sign that may be left out
(`Number.IsSign`), digits with a point after or among them or in front of them
(`Number.IsMantissa`), and an exponent that may be left out (`Number.IsExponent`).

A scan takes such a text (`Literal.exists_of_scan`), and it takes no less than any such text at
the start of what it scans (`Literal.scan_append`). A text that is such a number as a whole is
scanned as the one that it is (`Literal.scan_eq`).
-/

namespace Reckoner.Number

/-- A sign that may be left out, and whether it is `-`. -/
inductive IsSign : Bool → List Char → Prop
  | absent : IsSign false []
  | plus : IsSign false ['+']
  | minus : IsSign true ['-']

/-- Digits, of which there may be none. -/
def AreDigits (cs : List Char) : Prop := ∀ c ∈ cs, c.isDigit = true

/-- The digits before and behind a point, of which there is at least one. The point may be left
out if none is behind it. -/
inductive IsMantissa : List Char → List Char → List Char → Prop
  | whole {whole : List Char} : whole ≠ [] → AreDigits whole → IsMantissa whole [] whole
  | pointed {whole fraction : List Char} : AreDigits whole → AreDigits fraction →
      whole ≠ [] ∨ fraction ≠ [] → IsMantissa whole fraction (whole ++ '.' :: fraction)

/-- An exponent that may be left out, and its value. -/
inductive IsExponent : Int → List Char → Prop
  | absent : IsExponent 0 []
  | written {mark : Char} {negative : Bool} {sign digits : List Char} : mark = 'e' ∨ mark = 'E' →
      IsSign negative sign → digits ≠ [] → AreDigits digits →
      IsExponent
        (if negative then -(Nat.ofDigitChars 10 digits 0) else Nat.ofDigitChars 10 digits 0)
        (mark :: (sign ++ digits))

namespace Literal

/-! ## Digits and signs -/

theorem areDigits_scanDigits (cs : List Char) : AreDigits (scanDigits cs).1 :=
  fun _ => List.mem_takeWhile_imp

theorem scanDigits_eq_append (cs : List Char) : cs = (scanDigits cs).1 ++ (scanDigits cs).2 :=
  List.takeWhile_append_dropWhile.symm

/-- Digits in front of a text are scanned with those that it begins with. -/
theorem scanDigits_digits_append {digits : List Char} (h : AreDigits digits) (rest : List Char) :
    scanDigits (digits ++ rest) = (digits ++ (scanDigits rest).1, (scanDigits rest).2) := by
  rw [scanDigits, List.takeWhile_append_of_pos h, List.dropWhile_append_of_pos h]
  rfl

/-- Digits are scanned up to what is none. -/
theorem scanDigits_append {digits rest : List Char} (hdigits : ∀ c ∈ digits, c.isDigit = true)
    (hrest : ∀ c ∈ rest.head?, c.isDigit = false) :
    scanDigits (digits ++ rest) = (digits, rest) := by
  have hnone : scanDigits rest = ([], rest) := by
    cases rest with
    | nil => rfl
    | cons c rest => simp [scanDigits, hrest c rfl]
  rw [scanDigits_digits_append hdigits, hnone, List.append_nil]

theorem scanDigits_eq {digits : List Char} (hdigits : ∀ c ∈ digits, c.isDigit = true) :
    scanDigits digits = (digits, []) := by
  have hscan : scanDigits (digits ++ []) = (digits, []) := scanDigits_append hdigits nofun
  rwa [List.append_nil] at hscan

theorem scanDigits_suffix (cs : List Char) : (scanDigits cs).2 <:+ cs :=
  List.dropWhile_suffix _

/-- A sign is scanned up to what is none. -/
theorem scanSign_append {negative : Bool} {sign rest : List Char} (h : IsSign negative sign)
    (hrest : ∀ c ∈ rest.head?, c ≠ '+' ∧ c ≠ '-') :
    scanSign (sign ++ rest) = (negative, rest) := by
  cases h with
  | absent =>
    cases rest with
    | nil => rfl
    | cons c rest =>
      obtain ⟨hplus, hminus⟩ := hrest c rfl
      simp [scanSign, hplus, hminus]
  | plus => rfl
  | minus => rfl

/-- What is scanned as a sign is one. -/
theorem exists_of_scanSign (cs : List Char) :
    ∃ sign, IsSign (scanSign cs).1 sign ∧ cs = sign ++ (scanSign cs).2 := by
  unfold scanSign
  split
  · exact ⟨['-'], .minus, rfl⟩
  · exact ⟨['+'], .plus, rfl⟩
  · exact ⟨[], .absent, rfl⟩

theorem head_ne_sign_of_areDigits {digits : List Char} (h : AreDigits digits) (hne : digits ≠ [])
    (rest : List Char) : ∀ c ∈ (digits ++ rest).head?, c ≠ '+' ∧ c ≠ '-' := by
  obtain ⟨d, digits, rfl⟩ := List.exists_cons_of_ne_nil hne
  rintro _ ⟨⟩
  have hd := h d List.mem_cons_self
  constructor <;> rintro rfl <;> cases hd

/-! ## The exponent -/

/-- What is scanned as an exponent is one. -/
theorem exists_of_scanExponent (cs : List Char) :
    ∃ text, IsExponent (scanExponent cs).1 text ∧ cs = text ++ (scanExponent cs).2 := by
  cases cs with
  | nil => exact ⟨[], .absent, rfl⟩
  | cons c cs =>
    rw [scanExponent]
    by_cases hmark : c = 'e' ∨ c = 'E'
    · rw [if_pos hmark]
      obtain ⟨sign, hsign, hcs⟩ := exists_of_scanSign cs
      have hdigits := areDigits_scanDigits (scanSign cs).2
      have hunsigned := scanDigits_eq_append (scanSign cs).2
      generalize scanSign cs = scanned at hsign hcs hdigits hunsigned
      obtain ⟨negative, unsigned⟩ := scanned
      simp only at hcs hdigits hunsigned ⊢
      generalize scanDigits unsigned = taken at hdigits hunsigned
      obtain ⟨digits, rest⟩ := taken
      cases digits with
      | nil => exact ⟨[], .absent, rfl⟩
      | cons d digits =>
        refine ⟨c :: (sign ++ d :: digits), .written hmark hsign (List.cons_ne_nil _ _) hdigits, ?_⟩
        rw [hcs, hunsigned]
        simp
    · rw [if_neg hmark]
      exact ⟨[], .absent, rfl⟩

/-- A written exponent is scanned with the digits that follow it. -/
theorem scanExponent_written {mark : Char} {negative : Bool} {sign digits : List Char}
    (hmark : mark = 'e' ∨ mark = 'E') (hsign : IsSign negative sign) (hne : digits ≠ [])
    (hdigits : AreDigits digits) (rest : List Char) :
    scanExponent (mark :: (sign ++ digits) ++ rest) =
      (let n : Int := Nat.ofDigitChars 10 (digits ++ (scanDigits rest).1) 0
      (if negative then -n else n, (scanDigits rest).2)) := by
  have hscan : scanSign (sign ++ digits ++ rest) = (negative, digits ++ rest) := by
    rw [List.append_assoc]
    exact scanSign_append hsign (head_ne_sign_of_areDigits hdigits hne rest)
  obtain ⟨d, digits, rfl⟩ := List.exists_cons_of_ne_nil hne
  rw [List.cons_append, scanExponent, if_pos hmark, hscan]
  simp only [scanDigits_digits_append hdigits rest]
  rfl

/-- An exponent at the start of a text is scanned, if not more. -/
theorem scanExponent_append {e : Int} {text : List Char} (h : IsExponent e text)
    (rest : List Char) : (scanExponent (text ++ rest)).2 <:+ rest := by
  cases h with
  | absent =>
    obtain ⟨taken, -, htaken⟩ := exists_of_scanExponent rest
    exact ⟨taken, htaken.symm⟩
  | written hmark hsign hne hdigits =>
    rw [scanExponent_written hmark hsign hne hdigits]
    exact scanDigits_suffix rest

/-- A text that is an exponent as a whole is scanned as the one that it is. -/
theorem scanExponent_eq {e : Int} {text : List Char} (h : IsExponent e text) :
    scanExponent text = (e, []) := by
  cases h with
  | absent => rfl
  | written hmark hsign hne hdigits =>
    have hscan := scanExponent_written hmark hsign hne hdigits []
    rw [List.append_nil] at hscan
    rw [hscan]
    simp [scanDigits]

theorem head_of_isExponent {e : Int} {text : List Char} (h : IsExponent e text) :
    ∀ c ∈ text.head?, c.isDigit = false ∧ c ≠ '.' := by
  cases h with
  | absent => exact nofun
  | written hmark =>
    rintro _ ⟨⟩
    obtain rfl | rfl := hmark <;> decide

/-! ## The digits around the point -/

/-- A point belongs to the digits around it, if there is one. -/
theorem scanMantissa_pointed {whole : List Char} (h : AreDigits whole) (behind : List Char) :
    scanMantissa (whole ++ '.' :: behind) =
      if whole = [] ∧ (scanDigits behind).1 = [] then none
      else some (whole, scanDigits behind) := by
  have hscan : scanDigits (whole ++ '.' :: behind) = (whole, '.' :: behind) :=
    scanDigits_append h (by simp)
  unfold scanMantissa
  rw [hscan]
  cases whole with
  | cons d whole => rfl
  | nil =>
    simp only
    generalize scanDigits behind = taken
    obtain ⟨digits, rest⟩ := taken
    cases digits with
    | nil => rfl
    | cons d digits => rfl

/-- Digits without a point are scanned up to what is no digit. -/
theorem scanMantissa_whole {whole rest : List Char} (h : AreDigits whole)
    (hrest : ∀ c ∈ rest.head?, c.isDigit = false ∧ c ≠ '.') :
    scanMantissa (whole ++ rest) = if whole = [] then none else some (whole, [], rest) := by
  have hscan : scanDigits (whole ++ rest) = (whole, rest) :=
    scanDigits_append h fun c hc => (hrest c hc).1
  unfold scanMantissa
  rw [hscan]
  cases rest with
  | nil => cases whole <;> rfl
  | cons c rest =>
    have hpoint : c ≠ '.' := (hrest c rfl).2
    cases whole <;> simp [hpoint]

/-- The digits that a text begins with, which a point follows or nothing that belongs to them. -/
theorem exists_digits_append (cs : List Char) : ∃ digits rest, cs = digits ++ rest ∧
    AreDigits digits ∧ ((∃ behind, rest = '.' :: behind) ∨
      ∀ c ∈ rest.head?, c.isDigit = false ∧ c ≠ '.') := by
  refine ⟨_, _, scanDigits_eq_append cs, areDigits_scanDigits cs, ?_⟩
  have hhead := List.head?_dropWhile_not Char.isDigit cs
  unfold scanDigits
  simp only
  generalize List.dropWhile Char.isDigit cs = rest at hhead
  cases rest with
  | nil => exact .inr nofun
  | cons c behind =>
    by_cases hpoint : c = '.'
    · exact .inl ⟨behind, by rw [hpoint]⟩
    · refine .inr ?_
      rintro _ ⟨⟩
      exact ⟨hhead, hpoint⟩

/-- What is scanned as digits around a point is such. -/
theorem exists_of_scanMantissa {cs whole fraction rest : List Char}
    (h : scanMantissa cs = some (whole, fraction, rest)) :
    ∃ text, IsMantissa whole fraction text ∧ cs = text ++ rest := by
  obtain ⟨digits, unread, rfl, hdigits, ⟨behind, rfl⟩ | hunread⟩ := exists_digits_append cs
  · rw [scanMantissa_pointed hdigits] at h
    split at h
    · cases h
    · next hsome =>
      obtain ⟨rfl, hbehind⟩ := Prod.mk.inj (Option.some.inj h)
      have hfraction := areDigits_scanDigits behind
      have hsplit := scanDigits_eq_append behind
      rw [hbehind] at hsome hfraction hsplit
      exact ⟨_, .pointed hdigits hfraction (not_and_or.1 hsome), by rw [hsplit]; simp⟩
  · rw [scanMantissa_whole hdigits hunread] at h
    split at h
    · cases h
    · next hsome =>
      cases h
      exact ⟨_, .whole hsome hdigits, rfl⟩

/-- Digits around a point are scanned as they are written, up to what can be none of them. -/
theorem scanMantissa_eq {whole fraction text rest : List Char} (h : IsMantissa whole fraction text)
    (hrest : ∀ c ∈ rest.head?, c.isDigit = false ∧ c ≠ '.') :
    scanMantissa (text ++ rest) = some (whole, fraction, rest) := by
  cases h with
  | whole hne hwhole => rw [scanMantissa_whole hwhole hrest, if_neg hne]
  | pointed hwhole hfraction hne =>
    have hscan : scanDigits (fraction ++ rest) = (fraction, rest) :=
      scanDigits_append hfraction fun c hc => (hrest c hc).1
    rw [List.append_assoc, List.cons_append, scanMantissa_pointed hwhole, hscan]
    exact if_neg (not_and_or.2 hne)

/-- Digits around a point at the start of a text are scanned, if not more. -/
theorem scanMantissa_append {whole fraction text : List Char} (h : IsMantissa whole fraction text)
    (rest : List Char) : ∃ whole' fraction' unread,
      scanMantissa (text ++ rest) = some (whole', fraction', unread) ∧ unread <:+ rest := by
  cases h with
  | whole hne hwhole =>
    -- digits at the start of the rest go on with the whole ones
    obtain ⟨digits, unread, rfl, hdigits, hunread⟩ := exists_digits_append rest
    have hdigits' : AreDigits (whole ++ digits) := List.forall_mem_append.2 ⟨hwhole, hdigits⟩
    have hne' : whole ++ digits ≠ [] := List.append_ne_nil_of_left_ne_nil hne _
    rw [← List.append_assoc]
    obtain ⟨behind, rfl⟩ | hunread := hunread
    · rw [scanMantissa_pointed hdigits', if_neg fun h => hne' h.1]
      refine ⟨_, _, _, rfl, (scanDigits_suffix behind).trans ?_⟩
      exact (List.suffix_cons _ _).trans (List.suffix_append _ _)
    · rw [scanMantissa_whole hdigits' hunread, if_neg hne']
      exact ⟨_, _, _, rfl, List.suffix_append _ _⟩
  | pointed hwhole hfraction hne =>
    have hscan := scanDigits_digits_append hfraction rest
    have hsome : ¬(whole = [] ∧ fraction ++ (scanDigits rest).1 = []) := fun h =>
      not_and_or.2 hne ⟨h.1, (List.append_eq_nil_iff.1 h.2).1⟩
    rw [List.append_assoc, List.cons_append, scanMantissa_pointed hwhole, hscan, if_neg hsome]
    exact ⟨_, _, _, rfl, scanDigits_suffix rest⟩

/-! ## Numbers without a sign -/

/-- What is scanned as a number is one. -/
theorem exists_of_scan {cs rest : List Char} {l : Literal} (h : scan cs = some (l, rest)) :
    ∃ mantissa exponent, IsMantissa l.whole l.fraction mantissa ∧ IsExponent l.exponent exponent ∧
      cs = mantissa ++ exponent ++ rest := by
  unfold scan at h
  split at h
  · cases h
  · next whole fraction unread hscan =>
    obtain ⟨mantissa, hmantissa, rfl⟩ := exists_of_scanMantissa hscan
    obtain ⟨exponent, hexponent, hunread⟩ := exists_of_scanExponent unread
    generalize scanExponent unread = taken at h hexponent hunread
    obtain ⟨rfl, rfl⟩ := Prod.mk.inj (Option.some.inj h)
    refine ⟨mantissa, exponent, hmantissa, hexponent, ?_⟩
    rw [List.append_assoc, ← hunread]

variable {whole fraction mantissa exponent : List Char} {e : Int}

/-- A text that is a number as a whole is scanned as the one that it is. -/
theorem scan_eq (hmantissa : IsMantissa whole fraction mantissa)
    (hexponent : IsExponent e exponent) :
    scan (mantissa ++ exponent) = some (⟨whole, fraction, e⟩, []) := by
  rw [scan, scanMantissa_eq hmantissa (head_of_isExponent hexponent)]
  simp only [scanExponent_eq hexponent]

/-- A number at the start of a text is scanned, if not more. -/
theorem scan_append (hmantissa : IsMantissa whole fraction mantissa)
    (hexponent : IsExponent e exponent) (rest : List Char) :
    ∃ l unread, scan (mantissa ++ exponent ++ rest) = some (l, unread) ∧ unread <:+ rest := by
  obtain ⟨whole', fraction', after, hscan, hafter⟩ : ∃ whole' fraction' after,
      scanMantissa (mantissa ++ exponent ++ rest) = some (whole', fraction', after) ∧
        (scanExponent after).2 <:+ rest := by
    have hunread := scanExponent_append hexponent rest
    have hhead := head_of_isExponent hexponent
    cases exponent with
    | nil =>
      -- the exponent may be one that the rest begins with, after more digits
      obtain ⟨whole', fraction', after, hscan, hafter⟩ := scanMantissa_append hmantissa rest
      rw [List.append_nil]
      exact ⟨whole', fraction', after, hscan, (scanExponent_append .absent after).trans hafter⟩
    | cons mark exponent =>
      rw [List.append_assoc]
      exact ⟨whole, fraction, _, scanMantissa_eq hmantissa hhead, hunread⟩
  rw [scan, hscan]
  exact ⟨_, _, rfl, hafter⟩

end Literal

end Reckoner.Number
