import Reckoner.Proofs.Number.Grammar
import Reckoner.Proofs.Number.Nearest

/-!
# The longest number at the start of a text

`Number.read?` gives a number exactly if the text after its blanks begins with one
(`Number.IsNumber`), and it is then the double to which the longest number that the text begins
with is rounded (`Number.IsLongest`, `Number.IsRounded`), as the strict reading of this number
alone gives it.

* `Number.exists_of_readUnsigned?`: what is taken as a number is one;
* `Number.readUnsigned?_append`: no number at the start of a text is longer than what is taken;
* `Number.readWhole?_of_isWritten`: every number is read as a whole.
-/

namespace Reckoner.Number

/-- A number without a sign, and its value, which `Infinity` has none of. -/
inductive IsUnsigned : Option ℚ → List Char → Prop
  | infinity : IsUnsigned none infinityWord
  | decimal {whole fraction mantissa exponent : List Char} {e : Int} :
      IsMantissa whole fraction mantissa → IsExponent e exponent →
      IsUnsigned (some (Nat.ofDigitChars 10 (whole ++ fraction) 0 * 10 ^ (e - fraction.length)))
        (mantissa ++ exponent)

/-- A number, whether its sign is `-` and what its value is without the sign. -/
def IsWritten (negative : Bool) (value : Option ℚ) (text : List Char) : Prop :=
  ∃ sign unsigned, IsSign negative sign ∧ IsUnsigned value unsigned ∧ text = sign ++ unsigned

/-- A text that is a number. -/
def IsNumber (text : List Char) : Prop := ∃ negative value, IsWritten negative value text

/-- The double that a number is rounded to. -/
inductive IsRounded (negative : Bool) : Option ℚ → Float → Prop
  | infinity : IsRounded negative none (infinity negative)
  | nearest {bits : Nat} {q : ℚ} : IsNearest bits q →
      IsRounded negative (some q) (ofBits negative bits)

/-- The longest number that a text begins with. -/
structure IsLongest (p text : List Char) : Prop where
  start : p <+: text
  number : IsNumber p
  longest : ∀ q, q <+: text → IsNumber q → q.length ≤ p.length

theorem IsRounded.unique {negative : Bool} {value : Option ℚ} {x y : Float}
    (hx : IsRounded negative value x) (hy : IsRounded negative value y) : x = y := by
  cases hx with
  | infinity =>
    cases hy
    rfl
  | nearest hx =>
    cases hy with
    | nearest hy => rw [hx.unique hy]

theorem IsLongest.unique {p q text : List Char} (hp : IsLongest p text) (hq : IsLongest q text) :
    p = q := by
  have hlength : p.length = q.length :=
    le_antisymm (hq.longest p hp.start hp.number) (hp.longest q hq.start hq.number)
  exact (List.prefix_of_prefix_length_le hp.start hq.start hlength.le).eq_of_length hlength

/-! ## Numbers without a sign -/

/-- The number without a sign that a text begins with, and the rest. -/
def readUnsigned? (negative : Bool) (cs : List Char) : Option (Float × List Char) :=
  if infinityWord.isPrefixOf cs then some (infinity negative, cs.drop infinityWord.length)
  else (Literal.scan cs).map fun (l, rest) => (l.toDecimal.toFloat negative, rest)

theorem readChars?_eq (cs : List Char) :
    readChars? cs = (readUnsigned? (Literal.scanSign (Text.trimStart cs)).1
      (Literal.scanSign (Text.trimStart cs)).2).map Prod.fst := by
  unfold readChars? readUnsigned?
  simp only
  split
  · rfl
  · cases Literal.scan (Literal.scanSign (Text.trimStart cs)).2 <;> rfl

section Unsigned

variable {negative : Bool} {value : Option ℚ} {text whole fraction mantissa : List Char}

/-- The digits of a number begin with a digit or the point. -/
theorem exists_head_of_isMantissa (h : IsMantissa whole fraction mantissa) :
    ∃ c cs, mantissa = c :: cs ∧ (c.isDigit = true ∨ c = '.') := by
  cases h with
  | whole hne hdigits =>
    obtain ⟨c, cs, rfl⟩ := List.exists_cons_of_ne_nil hne
    exact ⟨c, cs, rfl, .inl (hdigits c List.mem_cons_self)⟩
  | pointed hdigits =>
    cases whole with
    | nil => exact ⟨'.', fraction, rfl, .inr rfl⟩
    | cons c cs => exact ⟨c, cs ++ '.' :: fraction, rfl, .inl (hdigits c List.mem_cons_self)⟩

theorem isPrefixOf_infinityWord_mantissa (h : IsMantissa whole fraction mantissa)
    (rest : List Char) : infinityWord.isPrefixOf (mantissa ++ rest) = false := by
  obtain ⟨c, cs, rfl, hc⟩ := exists_head_of_isMantissa h
  have hne : 'I' ≠ c := by
    rintro rfl
    exact absurd hc (by decide)
  rw [List.cons_append, infinityWord, List.isPrefixOf, beq_false_of_ne hne, Bool.false_and]

/-- What is taken as a number is one, and it is rounded. -/
theorem exists_of_readUnsigned? {cs rest : List Char} {x : Float}
    (h : readUnsigned? negative cs = some (x, rest)) :
    ∃ value text, IsUnsigned value text ∧ IsRounded negative value x ∧ cs = text ++ rest := by
  unfold readUnsigned? at h
  split at h
  · next hword =>
    obtain ⟨unread, rfl⟩ := List.isPrefixOf_iff_prefix.1 hword
    obtain ⟨rfl, rfl⟩ := Prod.mk.inj (Option.some.inj h)
    exact ⟨none, infinityWord, .infinity, .infinity, by rw [List.drop_left]⟩
  · obtain ⟨⟨l, unread⟩, hscan, hl⟩ := Option.map_eq_some_iff.1 h
    obtain ⟨rfl, rfl⟩ := Prod.mk.inj hl
    obtain ⟨mantissa, exponent, hmantissa, hexponent, rfl⟩ := Literal.exists_of_scan hscan
    exact ⟨_, _, .decimal hmantissa hexponent, .nearest l.toDecimal.isNearest_bits, rfl⟩

/-- A number at the start of a text is taken, if not more. -/
theorem readUnsigned?_append (negative : Bool) (h : IsUnsigned value text) (rest : List Char) :
    ∃ x unread, readUnsigned? negative (text ++ rest) = some (x, unread) ∧ unread <:+ rest := by
  unfold readUnsigned?
  cases h with
  | infinity =>
    rw [if_pos (List.isPrefixOf_iff_prefix.2 (List.prefix_append _ _)), List.drop_left]
    exact ⟨_, _, rfl, List.suffix_refl rest⟩
  | decimal hmantissa hexponent =>
    obtain ⟨l, unread, hscan, hunread⟩ := Literal.scan_append hmantissa hexponent rest
    have hword := isPrefixOf_infinityWord_mantissa hmantissa
    rw [hscan, List.append_assoc, hword, if_neg Bool.false_ne_true]
    exact ⟨_, _, rfl, hunread⟩

theorem head_ne_sign_of_isUnsigned (h : IsUnsigned value text) (rest : List Char) :
    ∀ c ∈ (text ++ rest).head?, c ≠ '+' ∧ c ≠ '-' := by
  cases h with
  | infinity =>
    rintro _ ⟨⟩
    decide
  | decimal hmantissa =>
    obtain ⟨c, cs, rfl, hc⟩ := exists_head_of_isMantissa hmantissa
    rintro _ ⟨⟩
    constructor <;> rintro rfl <;> exact absurd hc (by decide)

end Unsigned

/-! ## Numbers -/

/-- What is taken is the longest number that a text begins with. -/
theorem isLongest_of_readUnsigned? {negative : Bool} {sign text rest : List Char} {x : Float}
    (hsign : IsSign negative sign)
    (hread : readUnsigned? negative (text ++ rest) = some (x, rest)) :
    IsLongest (sign ++ text) (sign ++ text ++ rest) := by
  obtain ⟨value, text', htext, -, hsplit⟩ := exists_of_readUnsigned? hread
  obtain rfl := List.append_cancel_right hsplit
  refine ⟨List.prefix_append _ _, ⟨_, _, _, _, hsign, htext, rfl⟩, ?_⟩
  rintro _ ⟨after, hafter⟩ ⟨_, _, sign', text', hsign', htext', rfl⟩
  have hscan := Literal.scanSign_append hsign (head_ne_sign_of_isUnsigned htext rest)
  have hscan' := Literal.scanSign_append hsign' (head_ne_sign_of_isUnsigned htext' after)
  -- both have the sign that is scanned, so both go on with the same text
  rw [← List.append_assoc, hafter, List.append_assoc, hscan] at hscan'
  obtain ⟨rfl, hunsigned⟩ := Prod.mk.inj hscan'
  obtain ⟨y, unread, hread', hunread⟩ := readUnsigned?_append negative htext' after
  rw [← hunsigned, hread] at hread'
  obtain ⟨rfl, rfl⟩ := Prod.mk.inj (Option.some.inj hread')
  have hlength := congrArg List.length hafter
  simp only [List.length_append] at hlength ⊢
  have := hunread.length_le
  omega

variable {cs p : List Char} {x : Float}

/-- The number that is read is the longest one that the text begins with after its blanks. -/
theorem exists_of_readChars? (h : readChars? cs = some x) : ∃ p negative value,
    IsLongest p (Text.trimStart cs) ∧ IsWritten negative value p ∧ IsRounded negative value x := by
  rw [readChars?_eq] at h
  obtain ⟨sign, hsign, hsplit⟩ := Literal.exists_of_scanSign (Text.trimStart cs)
  generalize Literal.scanSign (Text.trimStart cs) = scanned at h hsign hsplit
  obtain ⟨negative, unsigned⟩ := scanned
  obtain ⟨⟨y, rest⟩, hread, rfl⟩ := Option.map_eq_some_iff.1 h
  obtain ⟨value, text, htext, hrounded, rfl⟩ := exists_of_readUnsigned? hread
  refine ⟨sign ++ text, negative, value, ?_, ⟨_, _, hsign, htext, rfl⟩, hrounded⟩
  rw [hsplit, ← List.append_assoc]
  exact isLongest_of_readUnsigned? hsign hread

/-- A text that begins with a number after its blanks is read. -/
theorem exists_readChars?_of_prefix (hstart : p <+: Text.trimStart cs) (hp : IsNumber p) :
    ∃ x, readChars? cs = some x := by
  obtain ⟨rest, hrest⟩ := hstart
  obtain ⟨negative, value, sign, text, hsign, htext, rfl⟩ := hp
  obtain ⟨x, unread, hread, -⟩ := readUnsigned?_append negative htext rest
  refine ⟨x, ?_⟩
  rw [readChars?_eq, ← hrest, List.append_assoc,
    Literal.scanSign_append hsign (head_ne_sign_of_isUnsigned htext rest)]
  simp only [hread, Option.map_some]

theorem toLower_of_isDigit {c : Char} (h : c.isDigit = true) : c.toLower = c := by
  obtain ⟨-, hle⟩ := Char.isDigit_iff_toNat.1 h
  refine dif_neg fun hupper => ?_
  have hge : 'A'.toNat ≤ c.toNat := hupper.1
  exact absurd (hge.trans hle) (by decide)

/-- A decimal number is none of the words of the strict reading. -/
theorem specialWord?_mantissa (negative : Bool) {whole fraction mantissa : List Char}
    (h : IsMantissa whole fraction mantissa) (rest : List Char) :
    specialWord? negative ((mantissa ++ rest).map Char.toLower) = none := by
  obtain ⟨c, cs, rfl, hc⟩ := exists_head_of_isMantissa h
  have hlower : c.toLower = c := hc.elim toLower_of_isDigit (by rintro rfl; rfl)
  have hletter : c ≠ 'n' ∧ c ≠ 'i' := by
    constructor <;> rintro rfl <;> exact absurd hc (by decide)
  simp [specialWord?, hlower, hletter]

/-- Every number is read as a whole. -/
theorem readWhole?_of_isWritten {negative : Bool} {value : Option ℚ}
    (h : IsWritten negative value p) : ∃ x, readWhole? p = some x ∧ IsRounded negative value x := by
  obtain ⟨sign, text, hsign, htext, rfl⟩ := h
  have hhead := head_ne_sign_of_isUnsigned htext []
  rw [List.append_nil] at hhead
  unfold readWhole?
  rw [Literal.scanSign_append hsign hhead]
  cases htext with
  | infinity => exact ⟨_, rfl, .infinity⟩
  | decimal hmantissa hexponent =>
    simp only [specialWord?_mantissa negative hmantissa, Literal.scan_eq hmantissa hexponent]
    exact ⟨_, rfl, .nearest (Decimal.isNearest_bits _)⟩

/-- The longest number that a text begins with after its blanks is read as it is read as a
whole. -/
theorem readChars?_of_isLongest {negative : Bool} {value : Option ℚ}
    (hp : IsLongest p (Text.trimStart cs)) (hwritten : IsWritten negative value p) :
    ∃ x, readWhole? p = some x ∧ readChars? cs = some x ∧ IsRounded negative value x := by
  obtain ⟨x, hread⟩ := exists_readChars?_of_prefix hp.start hp.number
  obtain ⟨q, negative', value', hq, hwritten', hrounded'⟩ := exists_of_readChars? hread
  obtain rfl := hp.unique hq
  -- the number may be written in two ways, but as a whole it is read once
  obtain ⟨y, hwhole, hrounded⟩ := readWhole?_of_isWritten hwritten
  obtain ⟨y', hwhole', hrounded''⟩ := readWhole?_of_isWritten hwritten'
  obtain rfl : y = y' := Option.some.inj (hwhole.symm.trans hwhole')
  obtain rfl := hrounded'.unique hrounded''
  exact ⟨x, hwhole, hread, hrounded⟩

/-! ## Bytes -/

/-- Characters of one byte each. -/
def AreAscii (cs : List Char) : Prop := ∀ c ∈ cs, c.toNat ≤ 127

theorem AreDigits.areAscii {digits : List Char} (h : AreDigits digits) : AreAscii digits := by
  intro c hc
  obtain ⟨-, hle⟩ := Char.isDigit_iff_toNat.1 (h c hc)
  exact hle.trans (by decide)

theorem IsSign.areAscii {negative : Bool} {sign : List Char} (h : IsSign negative sign) :
    AreAscii sign := by
  cases h <;> simp [AreAscii]

theorem IsNumber.areAscii (h : IsNumber p) : AreAscii p := by
  obtain ⟨negative, value, sign, text, hsign, htext, rfl⟩ := h
  refine List.forall_mem_append.2 ⟨hsign.areAscii, ?_⟩
  cases htext with
  | infinity => simp [infinityWord]
  | decimal hmantissa hexponent =>
    refine List.forall_mem_append.2 ⟨?_, ?_⟩
    · cases hmantissa with
      | whole hne hwhole => exact hwhole.areAscii
      | pointed hwhole hfraction =>
        exact List.forall_mem_append.2
          ⟨hwhole.areAscii, List.forall_mem_cons.2 ⟨by decide, hfraction.areAscii⟩⟩
    · cases hexponent with
      | absent => exact List.forall_mem_nil _
      | written hmark hsign hne hdigits =>
        refine List.forall_mem_cons.2 ⟨by obtain rfl | rfl := hmark <;> decide, ?_⟩
        exact List.forall_mem_append.2 ⟨hsign.areAscii, hdigits.areAscii⟩

theorem AreAscii.utf8Len (h : AreAscii p) : String.utf8Len p = p.length := by
  induction p with
  | nil => rfl
  | cons c p ih =>
    obtain ⟨hc, hp⟩ := List.forall_mem_cons.1 h
    have hsize : c.utf8Size = 1 := Char.utf8Size_eq_one_iff.2 (UInt32.le_iff_toNat_le.2 hc)
    rw [String.utf8Len_cons, ih hp, hsize, List.length_cons]

/-- A text can be cut behind characters of one byte each, as many bytes in as there are of them. -/
theorem AreAscii.isValid_length {text : List Char} (hp : AreAscii p) (h : p <+: text) :
    (⟨p.length⟩ : String.Pos.Raw).IsValid (String.ofList text) := by
  obtain ⟨rest, rfl⟩ := h
  refine String.Pos.Raw.isValid_iff_exists_append.2
    ⟨String.ofList p, String.ofList rest, String.ofList_append, String.Pos.Raw.ext ?_⟩
  exact hp.utf8Len.symm.trans (String.utf8ByteSize_ofList p).symm

/-- A text is read exactly if it begins with a number after its blanks. What is read is then the
longest such number, which is read as a whole, rounded to the nearest double. The sign and the
number end between characters, as many bytes in as they have characters. -/
theorem read?_longest (s : String) :
    let text := Text.trimStart s.toList
    ((∃ x, read? s = some x) ↔ ∃ p, p <+: text ∧ IsNumber p) ∧
    (∀ x, read? s = some x ↔ ∃ p negative value,
      IsLongest p text ∧ IsWritten negative value p ∧ IsRounded negative value x) ∧
    (∀ p, IsLongest p text → ∃ x, readWhole? p = some x ∧ read? s = some x) ∧
    ∀ p, p <+: text → (IsNumber p ∨ ∃ negative, IsSign negative p) →
      (⟨p.length⟩ : String.Pos.Raw).IsValid (String.ofList text) := by
  intro text
  refine ⟨⟨?_, ?_⟩, fun x => ⟨exists_of_readChars?, ?_⟩, ?_, ?_⟩
  · rintro ⟨x, hread⟩
    obtain ⟨p, -, -, hp, -, -⟩ := exists_of_readChars? hread
    exact ⟨p, hp.start, hp.number⟩
  · rintro ⟨p, hstart, hp⟩
    exact exists_readChars?_of_prefix hstart hp
  · rintro ⟨p, negative, value, hp, hwritten, hrounded⟩
    obtain ⟨y, -, hread, hrounded'⟩ := readChars?_of_isLongest hp hwritten
    rw [read?, hread, hrounded.unique hrounded']
  · intro p hp
    obtain ⟨negative, value, hwritten⟩ := hp.number
    obtain ⟨x, hwhole, hread, -⟩ := readChars?_of_isLongest hp hwritten
    exact ⟨x, hwhole, hread⟩
  · intro p hstart hp
    obtain hp | ⟨negative, hp⟩ := hp
    · exact hp.areAscii.isValid_length hstart
    · exact hp.areAscii.isValid_length hstart

theorem read?_longest_cut :
    IsLongest "-1.5".toList (Text.trimStart "  -1.5e+é".toList) ∧
      (∃ x, readWhole? "-1.5".toList = some x ∧ read? "  -1.5e+é" = some x) ∧
      (⟨4⟩ : String.Pos.Raw).IsValid (String.ofList (Text.trimStart "  -1.5e+é".toList)) := by
  have hp : IsLongest "-1.5".toList (Text.trimStart "  -1.5e+é".toList) :=
    isLongest_of_readUnsigned? .minus rfl
  obtain ⟨-, -, hread, hvalid⟩ := read?_longest "  -1.5e+é"
  exact ⟨hp, hread _ hp, hvalid _ hp.start (.inl hp.number)⟩

end Reckoner.Number
