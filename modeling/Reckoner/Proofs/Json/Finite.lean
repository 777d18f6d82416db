import Reckoner.Json.Document
import Reckoner.Proofs.Json.Token
import Reckoner.Proofs.Number.Lossless
import Reckoner.Proofs.Number.Arithmetic

/-!
# The numbers of a document are finite

The digits of a number count up to 64 bits, and are multiplied or divided by a power of ten. A
product that is not finite is refused, and a quotient by one or more is finite, so every
number that is read is finite (`Json.Numeral.isFinite_of_ofParts?`). So are all numbers of a
value that is read (`Json.isFinite_of_parse?`): the tokens of the text are, and whatever a
reader holds is made of them.
-/

namespace Reckoner.Json

open Number (IsNearest magnitude infinityBits ofBits overflow)

/-! ## Numbers -/

namespace Numeral

/-- The double that is kept for a number is finite. -/
def IsFinite : Numeral → Prop
  | .whole _ => True
  | .real x => x.isFinite = true

/-- A power of ten that is taken in one step is between one and infinity. -/
theorem powerOfTen_bounds {n : Nat} (h : n ≤ maxPower) :
    1023 * 2 ^ 52 ≤ (Number.Decimal.mk 1 n).bits ∧ (Number.Decimal.mk 1 n).bits < infinityBits := by
  have hnearest := Number.Decimal.isNearest_bits ⟨1, n⟩
  have hvalue : (Number.Decimal.mk 1 n).toRat = 10 ^ n := by simp [Number.Decimal.toRat]
  have hone : magnitude (1023 * 2 ^ 52) = 2 ^ (0 : Int) := Number.magnitude_binade 1022
  rw [hvalue] at hnearest
  constructor
  · refine hnearest.le_of_magnitude_le (by decide) ?_
    rw [hone, zpow_zero]
    exact one_le_pow₀ (by norm_num)
  · have hpower : (10 : ℚ) ^ n ≤ 10 ^ 308 := pow_le_pow_right₀ (by norm_num) h
    have hlast : 10 ^ 308 + 2 ^ 970 < 2 ^ 1024 := by decide +kernel
    have hcast : (10 : ℚ) ^ 308 + 2 ^ (970 : Int) < 2 ^ (1024 : Int) := by exact_mod_cast hlast
    rw [hnearest.lt_infinityBits_iff, overflow, lt_sub_iff_add_lt]
    exact (add_le_add_left hpower _).trans_lt hcast

theorem isFinite_powerOfTen {n : Nat} (h : n ≤ maxPower) : (powerOfTen n).isFinite = true :=
  Number.isFinite_ofBits false (powerOfTen_bounds h).2

theorem one_le_powerOfTen {n : Nat} (h : n ≤ maxPower) : 1 ≤ Number.toRat (powerOfTen n) := by
  obtain ⟨hle, hlt⟩ := powerOfTen_bounds h
  have hone : magnitude (1023 * 2 ^ 52) = 1 := Number.magnitude_binade 1022
  have hrat : Number.toRat (powerOfTen n) =
      Number.unit false * magnitude (Number.Decimal.mk 1 n).bits := Number.toRat_ofBits false hlt
  rw [hrat, Number.unit, if_neg Bool.false_ne_true, one_mul, ← hone]
  exact Number.magnitude_strictMono.monotone hle

/-- Scaling a number that is finite gives a finite one. -/
theorem isFinite_of_scaled? {x y : Float} {e : Int} (hx : x.isFinite = true)
    (h : scaled? x e = some y) : y.isFinite = true := by
  have hpower : (maxPower : Int) = 308 := rfl
  have hdiv {x : Float} (hx : x.isFinite = true) {n : Nat} (hn : n ≤ maxPower) :
      (x / powerOfTen n).isFinite = true :=
    Number.isFinite_div hx (isFinite_powerOfTen hn) (one_le_powerOfTen hn)
  unfold scaled? at h
  split at h
  · obtain rfl := Option.some.inj h
    exact hx
  split at h
  · cases h
  next hgreatest =>
  split at h
  · have hn : e.toNat ≤ maxPower := by omega
    simp only at h
    split at h
    · cases h
    · next hfinite =>
      obtain rfl := Option.some.inj h
      exact Number.isFinite_mul hx (isFinite_powerOfTen hn) (Bool.eq_false_iff.2 hfinite)
  split at h
  · obtain rfl := Option.some.inj h
    exact hdiv hx (by omega)
  split at h
  · obtain rfl := Option.some.inj h
    exact hdiv (hdiv hx le_rfl) (by omega)
  · obtain rfl := Option.some.inj h
    decide +kernel

/-- A number of 64 bits is far within the doubles. -/
theorem isFinite_ofNat {n : Nat} (h : n < 2 ^ 64) : (Number.ofNat n).isFinite = true := by
  refine (Number.isRounding_ofNat n).isFinite_iff.2 ?_
  have hcast : (n : ℚ) < 2 ^ (64 : Int) := by exact_mod_cast h
  calc |(n : ℚ)| = n := abs_of_nonneg (Nat.cast_nonneg n)
    _ < 2 ^ (64 : Int) := hcast
    _ ≤ 2 ^ (1023 : Int) := zpow_le_zpow_right₀ one_le_two (by decide)
    _ ≤ overflow := Number.two_pow_le_overflow

/-- The digits that count fit 64 bits. -/
theorem leadingDigits_lt {n : Nat} (h : n < 2 ^ 64) (cs : List Char) :
    (leadingDigits n cs).1 < 2 ^ 64 := by
  induction cs generalizing n with
  | nil => exact h
  | cons c cs ih =>
    rw [leadingDigits]
    split
    · next hnext => exact ih hnext
    · exact h

theorem isFinite_of_real? {negative : Bool} {whole fraction : List Char} {exponent : Int}
    {n : Numeral} (h : real? negative whole fraction exponent = some n) : n.IsFinite := by
  have hdigits := leadingDigits_lt (leadingDigits_lt (n := 0) (by norm_num) whole) fraction
  unfold real? at h
  simp only at h
  obtain ⟨x, hscaled, hn⟩ := Option.bind_eq_some_iff.1 h
  have hx := isFinite_of_scaled? (isFinite_ofNat hdigits) hscaled
  obtain rfl := Option.some.inj hn
  cases negative with
  | false => exact hx
  | true => exact Number.isFinite_neg hx

theorem isFinite_of_whole? {negative : Bool} {n : Nat} {numeral : Numeral}
    (h : whole? negative n = some numeral) : numeral.IsFinite := by
  unfold whole? at h
  split at h
  · split at h
    · obtain rfl := Option.some.inj h
      trivial
    · cases h
  · split at h
    · obtain rfl := Option.some.inj h
      trivial
    · cases h

theorem isFinite_of_ofParts? {negative : Bool} {whole fraction : List Char}
    {exponent : Option Int} {n : Numeral}
    (h : ofParts? negative whole fraction exponent = some n) : n.IsFinite := by
  unfold ofParts? at h
  simp only at h
  split at h
  · obtain hwhole | ⟨-, hreal⟩ := Option.or_eq_some_iff.1 h
    · exact isFinite_of_whole? hwhole
    · exact isFinite_of_real? hreal
  · exact isFinite_of_real? h

/-- A number of a document is what is read from its text. -/
theorem read?_write {n : Numeral} (h : n.IsFinite) :
    Number.read? (Json.number n).write = some n.toFloat := by
  rw [Number.read?, Number.toList_write_number]
  cases n with
  | whole n => exact Number.readChars?_whole _ n.natAbs
  | real x => exact Number.readChars?_write_real h

end Numeral

/-! ## Tokens -/

/-- If a token is a number, it is finite. -/
def Token.IsFinite (t : Token) : Prop :=
  ∀ n, t = .number (some n) → n.IsFinite

variable {cs rest : List Char} {t : Token}

theorem isFinite_of_scanNumber {negative : Bool} (h : scanNumber negative cs = some (t, rest)) :
    t.IsFinite := by
  simp only [scanNumber, Option.bind_eq_bind, Option.bind_eq_some_iff] at h
  obtain ⟨⟨whole, cs₁⟩, -, ⟨fraction, cs₂⟩, -, ⟨exponent, cs₃⟩, -, h⟩ := h
  cases h
  exact fun n hn => Numeral.isFinite_of_ofParts? (Token.number.inj hn)

theorem isFinite_of_scanToken (h : scanToken cs = some (t, rest)) : t.IsFinite := by
  revert h
  fun_cases scanToken cs
  case case7 cs =>
    simp only [Option.bind_eq_bind, Option.bind_eq_some_iff]
    rintro ⟨⟨units, rest'⟩, -, he⟩
    cases he
    intro n hn
    cases hn
  case case11 cs => exact isFinite_of_scanNumber
  case case12 => exact isFinite_of_scanNumber
  all_goals
    intro h
    cases h
    intro n hn
    cases hn

theorem isFinite_of_lex? {ts : List Token} (h : lex? cs = some ts) : ∀ t ∈ ts, t.IsFinite := by
  induction ts generalizing cs with
  | nil => exact nofun
  | cons t ts ih =>
    rw [lex?_eq] at h
    split at h
    · cases h
    · obtain ⟨⟨t', rest⟩, hscan, hmap⟩ := Option.bind_eq_some_iff.1 h
      obtain ⟨ts', hrest, hts⟩ := Option.map_eq_some_iff.1 hmap
      obtain ⟨rfl, rfl⟩ := List.cons.inj hts
      exact List.forall_mem_cons.2 ⟨isFinite_of_scanToken hscan, ih hrest⟩

/-! ## Values -/

/-- All numbers of a value are finite. -/
inductive IsFinite : Json → Prop
  | null : IsFinite .null
  | bool (b : Bool) : IsFinite (.bool b)
  | number {n : Numeral} (h : n.IsFinite) : IsFinite (.number n)
  | string (s : String) : IsFinite (.string s)
  | array {items : List Json} (h : ∀ v ∈ items, IsFinite v) : IsFinite (.array items)
  | object {members : List (String × Json)} (h : ∀ m ∈ members, IsFinite m.2) :
    IsFinite (.object members)
  | invalid : IsFinite .invalid

/-- All numbers of what is open are finite. -/
def Frame.IsFinite : Frame → Prop
  | .array items => ∀ v ∈ items, v.IsFinite
  | .object members _ => ∀ m ∈ members, m.2.IsFinite

/-- All numbers that a reader holds are finite. -/
structure Reader.IsFinite (r : Reader) : Prop where
  frames : ∀ f ∈ r.frames, f.IsFinite
  nothing : ∀ v, r.awaiting = .nothing v → v.IsFinite

theorem exists_of_mem_mapM {α β : Type} {f : α → Option β} {l : List α} {l' : List β}
    (h : l.mapM f = some l') {b : β} (hb : b ∈ l') : ∃ a ∈ l, f a = some b := by
  induction l generalizing l' with
  | nil =>
    obtain rfl := Option.some.inj h
    cases hb
  | cons a l ih =>
    rw [List.mapM_cons] at h
    obtain ⟨c, hc, h⟩ := Option.bind_eq_some_iff.1 h
    obtain ⟨cs, hcs, h⟩ := Option.bind_eq_some_iff.1 h
    obtain rfl := Option.some.inj h
    obtain rfl | hb := List.mem_cons.1 hb
    · exact ⟨a, List.mem_cons_self, hc⟩
    · obtain ⟨a', ha', hfa'⟩ := ih hcs hb
      exact ⟨a', List.mem_cons_of_mem a ha', hfa'⟩

theorem isFinite_ofMembers {members : List (Option String × Json)}
    (h : ∀ m ∈ members, m.2.IsFinite) : (ofMembers members).IsFinite := by
  unfold ofMembers
  split
  · next named hnamed =>
    refine .object fun m hm => ?_
    obtain ⟨m', hm', hmap⟩ := exists_of_mem_mapM hnamed hm
    obtain ⟨name, -, rfl⟩ := Option.map_eq_some_iff.1 hmap
    exact h m' hm'
  · exact .invalid

namespace Reader

variable {frames : List Frame} {r r' : Reader}

theorem isFinite_put {v : Json} (hv : v.IsFinite) (h : ∀ f ∈ frames, f.IsFinite) :
    (put v frames).IsFinite := by
  cases frames with
  | nil => exact ⟨nofun, fun w hw => Awaiting.nothing.inj hw ▸ hv⟩
  | cons f frames =>
    obtain ⟨hf, hframes⟩ := List.forall_mem_cons.1 h
    cases f with
    | array items =>
      exact ⟨List.forall_mem_cons.2 ⟨List.forall_mem_cons.2 ⟨hv, hf⟩, hframes⟩, nofun⟩
    | object members name =>
      exact ⟨List.forall_mem_cons.2 ⟨List.forall_mem_cons.2 ⟨hv, hf⟩, hframes⟩, nofun⟩

theorem isFinite_beginValue (ht : t.IsFinite) (hframes : ∀ f ∈ frames, f.IsFinite)
    (h : beginValue frames t = some r) : r.IsFinite := by
  cases t with
  | null =>
    cases h
    exact isFinite_put .null hframes
  | bool b =>
    cases h
    exact isFinite_put (.bool b) hframes
  | number n =>
    cases h
    cases n with
    | none => exact isFinite_put .invalid hframes
    | some n => exact isFinite_put (.number (ht n rfl)) hframes
  | text s =>
    cases h
    cases s with
    | none => exact isFinite_put .invalid hframes
    | some s => exact isFinite_put (.string s) hframes
  | openArray =>
    cases h
    exact ⟨List.forall_mem_cons.2 ⟨nofun, hframes⟩, nofun⟩
  | openObject =>
    cases h
    exact ⟨List.forall_mem_cons.2 ⟨nofun, hframes⟩, nofun⟩
  | _ => cases h

theorem isFinite_step (hr : r.IsFinite) (ht : t.IsFinite) (h : r.step t = some r') :
    r'.IsFinite := by
  obtain ⟨frames, awaiting⟩ := r
  have hframes : ∀ f ∈ frames, f.IsFinite := hr.frames
  simp only [step] at h
  split at h
  · exact isFinite_beginValue ht hframes h
  · cases h
    exact isFinite_put (.array nofun) (List.forall_mem_cons.1 hframes).2
  · exact isFinite_beginValue ht hframes h
  · cases h
    exact isFinite_put (.object nofun) (List.forall_mem_cons.1 hframes).2
  · cases h
    obtain ⟨hmembers, hrest⟩ := List.forall_mem_cons.1 hframes
    exact ⟨List.forall_mem_cons.2 ⟨hmembers, hrest⟩, nofun⟩
  · cases h
    obtain ⟨hmembers, hrest⟩ := List.forall_mem_cons.1 hframes
    exact ⟨List.forall_mem_cons.2 ⟨hmembers, hrest⟩, nofun⟩
  · cases h
    exact ⟨hframes, nofun⟩
  · cases h
    exact ⟨hframes, nofun⟩
  · cases h
    obtain ⟨hitems, hrest⟩ := List.forall_mem_cons.1 hframes
    exact isFinite_put (.array fun v hv => hitems v (List.mem_reverse.1 hv)) hrest
  · cases h
    exact ⟨hframes, nofun⟩
  · cases h
    obtain ⟨hmembers, hrest⟩ := List.forall_mem_cons.1 hframes
    exact isFinite_put (isFinite_ofMembers fun m hm => hmembers m (List.mem_reverse.1 hm)) hrest
  · cases h

theorem isFinite_foldlM {ts : List Token} (hts : ∀ t ∈ ts, t.IsFinite) (hr : r.IsFinite)
    (h : ts.foldlM step r = some r') : r'.IsFinite := by
  induction ts generalizing r with
  | nil =>
    obtain rfl := Option.some.inj h
    exact hr
  | cons t ts ih =>
    obtain ⟨ht, hrest⟩ := List.forall_mem_cons.1 hts
    rw [List.foldlM_cons] at h
    obtain ⟨next, hstep, hfold⟩ := Option.bind_eq_some_iff.1 h
    exact ih hrest (isFinite_step hr ht hstep) hfold

end Reader

/-- All numbers of a document are finite. -/
theorem isFinite_of_parse? {s : String} {v : Json} (h : parse? s = some v) : v.IsFinite := by
  obtain ⟨ts, hlex, h⟩ := Option.bind_eq_some_iff.1 h
  obtain ⟨r, hread, hvalue⟩ := Option.bind_eq_some_iff.1 h
  have hstart : Reader.start.IsFinite := ⟨fun f hf => (nomatch hf), fun v hv => (nomatch hv)⟩
  have hr : r.IsFinite := Reader.isFinite_foldlM (isFinite_of_lex? hlex) hstart hread
  unfold Reader.value? at hvalue
  split at hvalue
  · next w hw =>
    obtain rfl := Option.some.inj hvalue
    exact hr.nothing _ hw
  · cases hvalue

end Reckoner.Json
