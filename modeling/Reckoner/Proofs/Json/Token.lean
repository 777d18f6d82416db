import Mathlib.Data.List.Basic
import Mathlib.Tactic.NormNum
import Reckoner.Json.Token
import Reckoner.Proofs.Number.Reading

/-!
# Reading tokens that have been written

A written token is read as itself, whatever comes after it (`Json.IsExact.scanToken`); only
after a number there must be nothing that goes on with it (`Json.EndsNumber`). So the text of a
list of tokens is read as the list (`Json.Lexes`), as long as no number comes directly after
another.
-/

namespace Reckoner.Json

open Number.Literal (scanDigits scanSign)

/-! ## Texts -/

namespace Quoted

theorem hexDigit?_digitChar : ∀ n < 16, hexDigit? (Nat.digitChar n) = some n := by
  decide

theorem escapeControl_cases (c : Char) :
    (∃ letter, escapeControl c = ['\\', letter] ∧ letter ≠ 'u' ∧
        escaped? letter = some c.toNat) ∨
      escapeControl c =
        ['\\', 'u', '0', '0', Nat.digitChar (c.toNat / 16), Nat.digitChar (c.toNat % 16)] := by
  unfold escapeControl
  split
  · exact .inl ⟨'n', rfl, by decide, rfl⟩
  · exact .inl ⟨'t', rfl, by decide, rfl⟩
  · exact .inl ⟨'r', rfl, by decide, rfl⟩
  · by_cases hback : c.toNat = 0x08
    · exact .inl ⟨'b', by rw [if_pos hback], by decide, by rw [hback]; rfl⟩
    · by_cases hfeed : c.toNat = 0x0C
      · exact .inl ⟨'f', by rw [if_neg hback, if_pos hfeed], by decide, by rw [hfeed]; rfl⟩
      · exact .inr (by rw [if_neg hback, if_neg hfeed])

/-- An escape of one letter is read as its character. -/
theorem scan_letter {letter : Char} (hletter : letter ≠ 'u') {n : Nat}
    (h : escaped? letter = some n) (cs : List Char) :
    scan ('\\' :: letter :: cs) = (scan cs).map fun p => (n :: p.1, p.2) := by
  have hscan : scan ('\\' :: letter :: cs) =
      (escaped? letter).bind fun n => (scan cs).bind fun p => some (n :: p.1, p.2) := by
    simp [scan, hletter]
  rw [hscan, h, Option.bind_some, Option.map_eq_bind]
  rfl

/-- A character as it stands between the marks is read as its unit. -/
theorem scan_escape (c : Char) (cs : List Char) :
    scan (escape c ++ cs) = (scan cs).map fun p => (c.toNat :: p.1, p.2) := by
  unfold escape
  by_cases hmark : c = '"'
  · subst hmark
    exact scan_letter (by decide) rfl cs
  by_cases hslash : c = '\\'
  · subst hslash
    exact scan_letter (by decide) rfl cs
  rw [if_neg hmark, if_neg hslash]
  by_cases hcontrol : c.toNat < 0x20
  · rw [if_pos hcontrol]
    obtain ⟨letter, hescape, hletter, hunit⟩ | hescape := escapeControl_cases c
    · rw [hescape]
      exact scan_letter hletter hunit cs
    · have hhigh := hexDigit?_digitChar (c.toNat / 16) (by omega)
      have hlow := hexDigit?_digitChar (c.toNat % 16) (by omega)
      have hunit : c.toNat / 16 * 16 + c.toNat % 16 = c.toNat := by omega
      have hzero : hexDigit? '0' = some 0 := rfl
      rw [hescape]
      show scan ('\\' :: 'u' :: '0' :: '0' :: _ :: _ :: cs) = _
      rw [scan, hexUnit?, hzero, hhigh, hlow]
      simp only [Option.bind_eq_bind, Option.bind_some, Option.pure_def, Nat.zero_mul,
        Nat.zero_add, hunit, Option.map_eq_bind]
      rfl
  · rw [if_neg hcontrol]
    show scan (c :: cs) = _
    simp [scan, hslash, hcontrol, Option.map_eq_bind]

/-- A text between quotation marks is read as its characters. -/
theorem scan_quoted (cs rest : List Char) :
    scan (cs.flatMap escape ++ '"' :: rest) = some (cs.map Char.toNat, rest) := by
  induction cs with
  | nil => rfl
  | cons c cs ih => rw [List.flatMap_cons, List.append_assoc, scan_escape, ih]; rfl

end Quoted

/-! ## Numbers -/

/-- Nothing at the start of a text goes on with a number before it. -/
def EndsNumber (cs : List Char) : Prop :=
  ∀ c ∈ cs.head?, c.isDigit = false ∧ c ≠ '.' ∧ c ≠ 'e' ∧ c ≠ 'E'

variable {cs rest after : List Char}

theorem scanDigits_append_rest (hrest : EndsNumber rest) (cs : List Char) :
    scanDigits (cs ++ rest) = ((scanDigits cs).1, (scanDigits cs).2 ++ rest) := by
  induction cs with
  | nil =>
    have hnone : ∀ c ∈ ([] : List Char), c.isDigit = true := nofun
    exact Number.Literal.scanDigits_append hnone fun c hc => (hrest c hc).1
  | cons c cs ih =>
    simp only [scanDigits, Prod.mk.injEq] at ih
    cases hc : c.isDigit with
    | true => simp [scanDigits, hc, ih]
    | false => simp [scanDigits, hc]

/-- Digits are a whole number unless there are none or the first of several is a zero. -/
theorem scanWhole_eq (cs : List Char) : scanWhole cs =
    if (scanDigits cs).1 = [] ∨ (scanDigits cs).1.head? = some '0' ∧ (scanDigits cs).1 ≠ ['0'] then
      none
    else some (scanDigits cs) := by
  unfold scanWhole
  generalize scanDigits cs = split
  obtain ⟨whole, unread⟩ := split
  cases whole with
  | nil => rfl
  | cons c whole =>
    by_cases hc : c = '0'
    · subst hc
      cases whole with
      | nil => rfl
      | cons d whole => rfl
    · simp [hc]

theorem scanWhole_append {digits : List Char} (h : scanWhole cs = some (digits, after))
    (hrest : EndsNumber rest) : scanWhole (cs ++ rest) = some (digits, after ++ rest) := by
  rw [scanWhole_eq] at h
  rw [scanWhole_eq, scanDigits_append_rest hrest]
  split at h
  · cases h
  · next hdigits =>
    rw [if_neg hdigits, Option.some.inj h]

theorem scanFraction_append {digits : List Char} (h : scanFraction cs = some (digits, after))
    (hrest : EndsNumber rest) : scanFraction (cs ++ rest) = some (digits, after ++ rest) := by
  unfold scanFraction at h
  split at h
  · next cs =>
    rw [List.cons_append, scanFraction, scanDigits_append_rest hrest]
    generalize scanDigits cs = split at h
    obtain ⟨fraction, unread⟩ := split
    cases fraction with
    | nil => cases h
    | cons c fraction =>
      obtain ⟨rfl, rfl⟩ := Prod.mk.inj (Option.some.inj h)
      rfl
  · next hpoint =>
    obtain ⟨rfl, rfl⟩ := Prod.mk.inj (Option.some.inj h)
    cases cs with
    | nil =>
      cases rest with
      | nil => rfl
      | cons c rest =>
        have hc := (hrest c rfl).2.1
        simp [scanFraction, hc]
    | cons c cs =>
      have hc : c ≠ '.' := fun heq => hpoint cs (by rw [heq])
      simp [scanFraction, hc]

theorem scanSign_append (hne : cs ≠ []) (rest : List Char) : scanSign (cs ++ rest) =
    ((scanSign cs).1, (scanSign cs).2 ++ rest) := by
  obtain ⟨c, cs, rfl⟩ := List.exists_cons_of_ne_nil hne
  by_cases hminus : c = '-'
  · subst hminus
    rfl
  by_cases hplus : c = '+'
  · subst hplus
    rfl
  simp [scanSign, hminus, hplus]

/-- What follows the mark of an exponent is a sign and digits, of which there has to be one. -/
theorem scanExponent_mark {c : Char} (hc : c = 'e' ∨ c = 'E') (cs : List Char) :
    scanExponent (c :: cs) =
      if (scanDigits (scanSign cs).2).1 = [] then none
      else some (some (if (scanSign cs).1 then
          -(Nat.ofDigitChars 10 (scanDigits (scanSign cs).2).1 0 : Int)
        else Nat.ofDigitChars 10 (scanDigits (scanSign cs).2).1 0), (scanDigits (scanSign cs).2).2) := by
  rw [scanExponent, if_pos hc]
  generalize scanSign cs = sign
  obtain ⟨negative, unsigned⟩ := sign
  generalize hdigits : scanDigits unsigned = split
  obtain ⟨digits, unread⟩ := split
  cases digits with
  | nil => simp only [hdigits, if_true]
  | cons d digits => simp [hdigits]

theorem scanExponent_append {exponent : Option Int} (h : scanExponent cs = some (exponent, after))
    (hrest : EndsNumber rest) : scanExponent (cs ++ rest) = some (exponent, after ++ rest) := by
  cases cs with
  | nil =>
    obtain ⟨rfl, rfl⟩ := Prod.mk.inj (Option.some.inj h)
    cases rest with
    | nil => rfl
    | cons c rest =>
      obtain ⟨-, -, hlower, hupper⟩ := hrest c rfl
      simp [scanExponent, hlower, hupper]
  | cons c cs =>
    by_cases hmark : c = 'e' ∨ c = 'E'
    · rw [scanExponent_mark hmark] at h
      have hne : cs ≠ [] := by
        rintro rfl
        cases h
      by_cases hdigits : (scanDigits (scanSign cs).2).1 = []
      · rw [if_pos hdigits] at h
        cases h
      · rw [if_neg hdigits] at h
        obtain ⟨rfl, rfl⟩ := Prod.mk.inj (Option.some.inj h)
        rw [List.cons_append, scanExponent_mark hmark, scanSign_append hne,
          scanDigits_append_rest hrest, if_neg hdigits]
    · rw [scanExponent, if_neg hmark] at h
      obtain ⟨rfl, rfl⟩ := Prod.mk.inj (Option.some.inj h)
      rw [List.cons_append, scanExponent, if_neg hmark]

theorem scanNumber_append {negative : Bool} {t : Token}
    (h : scanNumber negative cs = some (t, after)) (hrest : EndsNumber rest) :
    scanNumber negative (cs ++ rest) = some (t, after ++ rest) := by
  simp only [scanNumber, Option.bind_eq_bind, Option.bind_eq_some_iff] at h
  obtain ⟨⟨whole, cs₁⟩, hwhole, ⟨fraction, cs₂⟩, hfraction, ⟨exponent, cs₃⟩, hexponent, h⟩ := h
  obtain ⟨rfl, rfl⟩ := Prod.mk.inj (Option.some.inj h)
  simp only [scanNumber, Option.bind_eq_bind, scanWhole_append hwhole hrest, Option.bind_some,
    scanFraction_append hfraction hrest, scanExponent_append hexponent hrest, Option.pure_def]

/-- A number begins with a digit. -/
theorem exists_digit_of_scanNumber {negative : Bool} {t : Token}
    (h : scanNumber negative cs = some (t, after)) :
    ∃ c rest, cs = c :: rest ∧ c.isDigit = true := by
  have hne : (scanDigits cs).1 ≠ [] := by
    intro hnil
    rw [scanNumber, scanWhole_eq, if_pos (.inl hnil)] at h
    cases h
  cases cs with
  | nil => exact absurd rfl hne
  | cons c cs =>
    refine ⟨c, cs, rfl, ?_⟩
    cases hc : c.isDigit with
    | true => rfl
    | false =>
      refine absurd ?_ hne
      rw [scanDigits, List.takeWhile_cons, hc]
      rfl

/-! ## Tokens -/

theorem scanToken_digit {c : Char} (hc : c.isDigit = true) (cs : List Char) :
    scanToken (c :: cs) = scanNumber false (c :: cs) := by
  unfold scanToken
  split
  case h_12 => rfl
  all_goals
    next heq =>
      obtain ⟨rfl, -⟩ := List.cons.inj heq
      exact absurd hc (by decide)

/-- A number is read in any context that does not go on with it. -/
theorem scanToken_append {n : Option Numeral} (h : scanToken cs = some (.number n, after))
    (hrest : EndsNumber rest) : scanToken (cs ++ rest) = some (.number n, after ++ rest) := by
  revert h
  fun_cases scanToken cs
  case case7 cs =>
    simp only [Option.bind_eq_bind, Option.bind_eq_some_iff]
    rintro ⟨units, -, heq⟩
    cases heq
  case case11 cs => exact fun h => scanNumber_append h hrest
  case case12 =>
    intro h
    obtain ⟨c, cs, rfl, hc⟩ := exists_digit_of_scanNumber h
    rw [List.cons_append, scanToken_digit hc]
    exact scanNumber_append h hrest
  all_goals
    intro h
    cases h

/-- A token that is read as itself wherever it stands, also after a number. -/
structure Token.IsPlain (t : Token) : Prop where
  scanToken : ∀ rest, scanToken (t.write ++ rest) = some (t, rest)
  endsNumber : ∀ rest, EndsNumber (t.write ++ rest)

theorem Token.isPlain_text (s : String) : (Token.text (some s)).IsPlain where
  scanToken rest := by
    have hscan := Quoted.scan_quoted s.toList rest
    show scanToken ('"' :: (s.toList.flatMap Quoted.escape ++ ['"']) ++ rest) = _
    rw [List.cons_append, List.append_assoc, List.singleton_append, Json.scanToken, hscan]
    show some (Token.text ((Quoted.ofUnits? (s.toList.map Char.toNat)).map String.ofList), rest) = _
    rw [Quoted.ofUnits?_map_toNat, Option.map_some, String.ofList_toList]
  endsNumber rest c hc := by
    obtain rfl := Option.some.inj hc
    decide

/-- All tokens are plain but numbers and texts that denote nothing. -/
theorem Token.isPlain {t : Token} (hnumber : ∀ n, t ≠ .number n) (htext : t ≠ .text none) :
    t.IsPlain := by
  cases t with
  | number n => exact absurd rfl (hnumber n)
  | text s =>
    cases s with
    | none => exact absurd rfl htext
    | some s => exact isPlain_text s
  | bool b => cases b <;> exact ⟨fun _ => rfl, fun _ c hc => by cases hc; decide⟩
  | _ => exact ⟨fun _ => rfl, fun _ c hc => by cases hc; decide⟩

/-! ## Lists of tokens -/

/-- What begins with a token does not begin with a blank. -/
theorem dropWhile_of_scanToken {t : Token} (h : scanToken cs = some (t, rest)) :
    cs.dropWhile isSpace = cs := by
  cases cs with
  | nil => rfl
  | cons c cs =>
    refine List.dropWhile_cons_of_neg fun hspace => ?_
    simp only [isSpace, Bool.or_eq_true, beq_iff_eq] at hspace
    obtain ((rfl | rfl) | rfl) | rfl := hspace <;> cases h

theorem lex?_eq (cs : List Char) : lex? cs =
    if cs.dropWhile isSpace = [] then some []
    else (scanToken (cs.dropWhile isSpace)).bind fun p => (lex? p.2).map (p.1 :: ·) := by
  rw [lex?]
  simp only [List.isEmpty_iff]
  refine if_congr Iff.rfl rfl ?_
  split
  · next hnone => rw [hnone, Option.bind_none]
  · next hsome => rw [hsome, Option.bind_some]

theorem lex?_nil : lex? [] = some [] := by
  rw [lex?_eq]
  rfl

theorem lex?_of_scanToken {t : Token} (h : scanToken (cs.dropWhile isSpace) = some (t, rest)) :
    lex? cs = (lex? rest).map (t :: ·) := by
  have hne : cs.dropWhile isSpace ≠ [] := by
    intro hnil
    rw [hnil] at h
    cases h
  rw [lex?_eq, if_neg hne, h, Option.bind_some]

/-- The text of a list of tokens is read as the list, if nothing goes on with a number at
its end. -/
def Lexes (ts : List Token) : Prop :=
  ∀ rest, EndsNumber rest →
    lex? (ts.flatMap Token.write ++ rest) = (lex? rest).map (ts ++ ·)

theorem lexes_nil : Lexes [] := fun _ _ => Option.map_id'.symm

theorem Token.IsPlain.lex?_append {t : Token} (ht : t.IsPlain) (rest : List Char) :
    lex? (t.write ++ rest) = (lex? rest).map (t :: ·) :=
  lex?_of_scanToken (by rw [dropWhile_of_scanToken (ht.scanToken rest), ht.scanToken])

theorem Lexes.cons {t : Token} {ts : List Token} (ht : t.IsPlain) (h : Lexes ts) :
    Lexes (t :: ts) := by
  intro rest hrest
  rw [List.flatMap_cons, List.append_assoc, ht.lex?_append, h rest hrest, Option.map_map]
  rfl

/-- Lists of tokens with a plain one between them. -/
theorem Lexes.append_cons {t : Token} {ts us : List Token} (h : Lexes ts) (ht : t.IsPlain)
    (hus : Lexes us) : Lexes (ts ++ t :: us) := by
  intro rest hrest
  have hends : EndsNumber ((t :: us).flatMap Token.write ++ rest) := by
    rw [List.flatMap_cons, List.append_assoc]
    exact ht.endsNumber _
  rw [List.flatMap_append, List.append_assoc, h _ hends, hus.cons ht rest hrest, Option.map_map]
  exact Option.map_congr fun _ _ => (List.append_assoc _ _ _).symm

/-- A number that is read from its text. -/
def Numeral.ReadsBack (n : Numeral) : Prop :=
  lex? n.write = some [.number (some n)]

theorem Numeral.readsBack_of_scanToken {n : Numeral}
    (h : scanToken n.write = some (.number (some n), [])) : n.ReadsBack := by
  rw [ReadsBack, lex?_of_scanToken ((dropWhile_of_scanToken h).symm ▸ h), lex?_nil,
    Option.map_some]

theorem Numeral.ReadsBack.lexes {n : Numeral} (h : n.ReadsBack) :
    Lexes [.number (some n)] := by
  intro rest hrest
  show lex? (n.write ++ [] ++ rest) = (lex? rest).map (.number (some n) :: ·)
  rw [ReadsBack, lex?_eq] at h
  split at h
  · cases h
  next hne =>
  obtain ⟨⟨t, after⟩, hscan, hmap⟩ := Option.bind_eq_some_iff.1 h
  obtain ⟨ts, hafter, hts⟩ := Option.map_eq_some_iff.1 hmap
  obtain ⟨rfl, rfl⟩ := List.cons.inj hts
  -- what stands after the number in its own text is blank
  have hblank : after.dropWhile isSpace = [] := by
    by_contra hafter'
    rw [lex?_eq, if_neg hafter'] at hafter
    obtain ⟨p, -, hp⟩ := Option.bind_eq_some_iff.1 hafter
    obtain ⟨us, -, hus⟩ := Option.map_eq_some_iff.1 hp
    cases hus
  have hdrop : (n.write ++ rest).dropWhile isSpace = n.write.dropWhile isSpace ++ rest := by
    rw [List.dropWhile_append, if_neg (by simpa using hne)]
  have hskip : (after ++ rest).dropWhile isSpace = rest.dropWhile isSpace :=
    List.dropWhile_append_of_pos (List.dropWhile_eq_nil_iff.1 hblank)
  have htext := scanToken_append hscan hrest
  rw [List.append_nil, lex?_of_scanToken (hdrop ▸ htext), lex?_eq (after ++ rest), hskip, ← lex?_eq]

/-! ## Whole numbers -/

/-- Only the digits of zero begin with a zero. -/
theorem eq_zero_of_head?_toDigits {n : Nat} (h : (Nat.toDigits 10 n).head? = some '0') : n = 0 := by
  induction n using Nat.strong_induction_on with
  | _ n ih =>
    rw [Nat.toDigits_eq_if (by decide)] at h
    split at h
    · exact Nat.digitChar_eq_zero.1 (Option.some.inj h)
    · next hten =>
      rw [List.head?_append_of_ne_nil _ Nat.toDigits_ne_nil] at h
      have hzero := ih (n / 10) (by omega) h
      omega

/-- The digits of a number are read as the number, if it fits 64 bits. -/
theorem scanNumber_toDigits {negative : Bool} {n : Nat} {numeral : Numeral}
    (h : Numeral.whole? negative n = some numeral) :
    scanNumber negative (Nat.toDigits 10 n) = some (.number (some numeral), []) := by
  have hdigits : scanDigits (Nat.toDigits 10 n) = (Nat.toDigits 10 n, []) :=
    Number.Literal.scanDigits_eq Number.isDigit_of_mem_digits
  have hwhole : scanWhole (Nat.toDigits 10 n) = some (Nat.toDigits 10 n, []) := by
    rw [scanWhole_eq, hdigits, if_neg]
    rintro (hnil | ⟨hhead, hne⟩)
    · exact Nat.toDigits_ne_nil hnil
    · rw [eq_zero_of_head?_toDigits hhead] at hne
      exact hne rfl
  have hvalue : Nat.ofDigitChars 10 (Nat.toDigits 10 n) 0 = n := Nat.ofDigitChars_ten_toDigits
  rw [scanNumber, hwhole]
  show some (Token.number (Numeral.ofParts? negative (Nat.toDigits 10 n) [] none), []) = _
  rw [Numeral.ofParts?, hvalue, h, Option.some_or]

/-- A whole number of 64 bits is read from its text. -/
theorem Numeral.readsBack_whole {n : Int} (hmin : -2 ^ 63 ≤ n) (hmax : n < 2 ^ 64) :
    (Numeral.whole n).ReadsBack := by
  refine readsBack_of_scanToken ?_
  rw [write, Number.withSign]
  by_cases hneg : n < 0
  · have hwhole : whole? true n.natAbs = some (.whole n) := by
      rw [whole?, if_pos rfl, if_pos (by norm_num; omega)]
      congr 2
      omega
    rw [decide_eq_true hneg, if_pos rfl]
    exact scanNumber_toDigits hwhole
  · have hwhole : whole? false n.natAbs = some (.whole n) := by
      rw [whole?, if_neg Bool.false_ne_true, if_pos (by norm_num; omega)]
      congr 2
      omega
    have hnumber := scanNumber_toDigits hwhole
    obtain ⟨c, rest, hcons, hc⟩ := exists_digit_of_scanNumber hnumber
    rw [decide_eq_false hneg, if_neg Bool.false_ne_true, hcons, scanToken_digit hc, ← hcons]
    exact hnumber

end Reckoner.Json
