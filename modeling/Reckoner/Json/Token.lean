import Reckoner.Json.Basic
import Reckoner.Json.Quoted

/-!
# Tokens of a JSON document

A document is a sequence of tokens with blanks between them. `lex?` reads the
tokens of a text and `Token.write` is the text of one. A number or a text that
obeys the grammar and denotes nothing is a token of its own.

* `scanToken_shorter`: reading a token consumes part of the text.
-/

namespace Reckoner.Json

/-- A token of a document. -/
inductive Token where
  | openArray
  | closeArray
  | openObject
  | closeObject
  | comma
  | colon
  | null
  | bool (b : Bool)
  /-- A number, `none` beyond the doubles. -/
  | number (n : Option Numeral)
  /-- A text, `none` with half a surrogate pair in it. -/
  | text (s : Option String)

namespace Token

/-- The text of a token. -/
def write : Token → List Char
  | .openArray => ['[']
  | .closeArray => [']']
  | .openObject => ['{']
  | .closeObject => ['}']
  | .comma => [',']
  | .colon => [':']
  | .null => ['n', 'u', 'l', 'l']
  | .bool true => ['t', 'r', 'u', 'e']
  | .bool false => ['f', 'a', 'l', 's', 'e']
  | .number n => (n.map Numeral.write).getD ['n', 'u', 'l', 'l']
  | .text s => Quoted.quote (s.getD "").toList

end Token

/-- The blanks of a document. -/
def isSpace (c : Char) : Bool :=
  c == ' ' || c == '\n' || c == '\t' || c == '\r'

/-! ## Numbers -/

/-- Digits without a needless leading zero, and what follows. -/
def scanWhole (cs : List Char) : Option (List Char × List Char) :=
  match Number.Literal.scanDigits cs with
  | ([], _) => none
  | (['0'], rest) => some (['0'], rest)
  | ('0' :: _, _) => none
  | split => some split

/-- The digits after a point, none if no point stands there, and what follows. -/
def scanFraction : List Char → Option (List Char × List Char)
  | '.' :: cs =>
    match Number.Literal.scanDigits cs with
    | ([], _) => none
    | split => some split
  | cs => some ([], cs)

/-- An exponent, absent if no mark stands there, and what follows. -/
def scanExponent (cs : List Char) : Option (Option Int × List Char) :=
  match cs with
  | c :: rest =>
    if c = 'e' ∨ c = 'E' then
      let (negative, unsigned) := Number.Literal.scanSign rest
      match Number.Literal.scanDigits unsigned with
      | ([], _) => none
      | (digits, rest) =>
        let n : Int := Nat.ofDigitChars 10 digits 0
        some (some (if negative then -n else n), rest)
    else some (none, cs)
  | [] => some (none, [])

theorem scanDigits_length {cs digits rest : List Char}
    (h : Number.Literal.scanDigits cs = (digits, rest)) :
    digits.length + rest.length = cs.length := by
  cases h
  rw [← List.length_append, List.takeWhile_append_dropWhile]

theorem scanWhole_shorter {cs digits rest : List Char} (h : scanWhole cs = some (digits, rest)) :
    rest.length < cs.length := by
  unfold scanWhole at h
  split at h
  · simp at h
  · next hd =>
    cases h
    have := scanDigits_length hd
    simp only [List.length_cons, List.length_nil] at this
    omega
  · simp at h
  · next hn _ _ =>
    have hd := scanDigits_length (Option.some.inj h)
    have : digits ≠ [] := by
      rintro rfl
      exact hn _ (Option.some.inj h)
    have := List.length_pos_iff.2 this
    omega

theorem scanFraction_length {cs digits rest : List Char}
    (h : scanFraction cs = some (digits, rest)) : rest.length ≤ cs.length := by
  unfold scanFraction at h
  split at h
  · split at h
    · simp at h
    · have := scanDigits_length (Option.some.inj h)
      simp only [List.length_cons]
      omega
  · cases h
    exact Nat.le_refl _

theorem scanSign_length (cs : List Char) :
    (Number.Literal.scanSign cs).2.length ≤ cs.length := by
  unfold Number.Literal.scanSign
  split <;> simp

theorem scanExponent_length {cs rest : List Char} {e : Option Int}
    (h : scanExponent cs = some (e, rest)) : rest.length ≤ cs.length := by
  unfold scanExponent at h
  split at h
  · next c cs =>
    split at h
    · have hs := scanSign_length cs
      split at h
      next hsign =>
      split at h
      · simp at h
      · next hd =>
        cases h
        have hd := scanDigits_length hd
        rw [hsign] at hs
        simp only [List.length_cons] at hs ⊢
        omega
    · cases h
      exact Nat.le_refl _
  · cases h
    exact Nat.le_refl _

/-- An unsigned number at the start of a text, and what follows. -/
def scanNumber (negative : Bool) (cs : List Char) : Option (Token × List Char) := do
  let (whole, cs) ← scanWhole cs
  let (fraction, cs) ← scanFraction cs
  let (exponent, cs) ← scanExponent cs
  return (.number (Numeral.ofParts? negative whole fraction exponent), cs)

/-! ## Tokens -/

/-- What stands at the start of a text that does not begin with a blank. -/
def scanToken : List Char → Option (Token × List Char)
  | '[' :: cs => some (.openArray, cs)
  | ']' :: cs => some (.closeArray, cs)
  | '{' :: cs => some (.openObject, cs)
  | '}' :: cs => some (.closeObject, cs)
  | ',' :: cs => some (.comma, cs)
  | ':' :: cs => some (.colon, cs)
  | '"' :: cs => do
    let (units, cs) ← Quoted.scan cs
    return (.text ((Quoted.ofUnits? units).map String.ofList), cs)
  | 'n' :: 'u' :: 'l' :: 'l' :: cs => some (.null, cs)
  | 't' :: 'r' :: 'u' :: 'e' :: cs => some (.bool true, cs)
  | 'f' :: 'a' :: 'l' :: 's' :: 'e' :: cs => some (.bool false, cs)
  | '-' :: cs => scanNumber true cs
  | cs => scanNumber false cs

/-- Reading a number consumes a digit. -/
theorem scanNumber_shorter {negative : Bool} {cs rest : List Char} {t : Token}
    (h : scanNumber negative cs = some (t, rest)) : rest.length < cs.length := by
  simp only [scanNumber, Option.bind_eq_bind, Option.bind_eq_some_iff] at h
  obtain ⟨⟨whole, cs₁⟩, h₁, ⟨fraction, cs₂⟩, h₂, ⟨exponent, cs₃⟩, h₃, h⟩ := h
  cases h
  exact Nat.lt_of_le_of_lt (scanExponent_length h₃)
    (Nat.lt_of_le_of_lt (scanFraction_length h₂) (scanWhole_shorter h₁))

/-- Reading a token consumes part of the text. -/
theorem scanToken_shorter {cs rest : List Char} {t : Token}
    (h : scanToken cs = some (t, rest)) : rest.length < cs.length := by
  revert h
  fun_cases scanToken cs
  case case7 cs =>
    simp only [Option.bind_eq_bind, Option.bind_eq_some_iff]
    rintro ⟨⟨units, rest'⟩, hs, he⟩
    cases he
    exact Nat.lt_succ_of_lt (Quoted.scan_shorter hs)
  case case11 cs => exact fun h => Nat.lt_succ_of_lt (scanNumber_shorter h)
  case case12 => exact scanNumber_shorter
  all_goals
    intro h
    cases h
    simp only [List.length_cons]
    omega

theorem scanToken_dropWhile_shorter {cs rest : List Char} {t : Token}
    (h : scanToken (cs.dropWhile isSpace) = some (t, rest)) : rest.length < cs.length :=
  Nat.lt_of_lt_of_le (scanToken_shorter h) (List.dropWhile_sublist isSpace).length_le

/-- The tokens of a text. -/
def lex? (cs : List Char) : Option (List Token) :=
  if (cs.dropWhile isSpace).isEmpty then some []
  else
    match h : scanToken (cs.dropWhile isSpace) with
    | none => none
    | some (t, rest) =>
      have := scanToken_dropWhile_shorter h
      (lex? rest).map (t :: ·)
  termination_by cs.length

end Reckoner.Json
