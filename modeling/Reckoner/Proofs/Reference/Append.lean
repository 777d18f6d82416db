import Mathlib.Data.List.Basic
import Mathlib.Data.List.TakeWhile
import Reckoner.Proofs.Text.Words
import Reckoner.Reference.Substitution

/-!
# Substitution part by part

No reference goes on over a character that is no name character. So references are
filled in on both sides of it separately (`Referenced.fill_append`), and the words of a
substituted expression are those of its words, each substituted by itself
(`words_substitute`).
-/

namespace Reckoner

open Text (IsWord Ended Parted splitWords)

namespace Reference

/-- The name characters are ASCII letters, ASCII digits and four others. -/
theorem isNameChar_iff {c : Char} : isNameChar c = true ↔
    ('A' ≤ c ∧ c ≤ 'Z') ∨ ('a' ≤ c ∧ c ≤ 'z') ∨ ('0' ≤ c ∧ c ≤ '9') ∨
      c ∈ ['_', '-', '.', '*'] := by
  have hclass : c.isAlphanum = true ↔
      ('A' ≤ c ∧ c ≤ 'Z') ∨ ('a' ≤ c ∧ c ≤ 'z') ∨ ('0' ≤ c ∧ c ≤ '9') := by
    change (decide (65 ≤ c.val ∧ c.val ≤ 90) ||
      decide (97 ≤ c.val) && decide (c.val ≤ 122) ||
        decide (48 ≤ c.val) && decide (c.val ≤ 57)) = true ↔ _
    simp only [Bool.or_eq_true, Bool.and_eq_true, decide_eq_true_eq, or_assoc]
    rfl
  simp only [isNameChar, Bool.or_eq_true, beq_iff_eq, hclass, List.mem_cons, List.not_mem_nil,
    or_false, or_assoc]

theorem isBlank_of_isNameChar {c : Char} (h : isNameChar c = true) : Text.isBlank c = false := by
  have hcode : 33 ≤ c.toNat ∧ c.toNat < 128 := by
    obtain h | h | h | h := isNameChar_iff.1 h
    · change 65 ≤ c.toNat ∧ c.toNat ≤ 90 at h
      omega
    · change 97 ≤ c.toNat ∧ c.toNat ≤ 122 at h
      omega
    · change 48 ≤ c.toNat ∧ c.toNat ≤ 57 at h
      omega
    · simp only [List.mem_cons, List.not_mem_nil, or_false] at h
      rcases h with rfl | rfl | rfl | rfl <;> decide
  simp only [Text.isBlank, Bool.or_eq_false_iff, Bool.and_eq_false_iff, decide_eq_false_iff_not,
    beq_eq_false_iff_ne]
  omega

/-- Nothing, or a text that does not begin with a name character, so that a reference
before it does not go on. -/
def Apart (cs : List Char) : Prop := ∀ c ∈ cs.head?, isNameChar c = false

theorem apart_dropWhile (cs : List Char) : Apart (cs.dropWhile isNameChar) := by
  intro c hc
  have hhead := List.head?_dropWhile_not isNameChar cs
  rwa [Option.mem_def.1 hc] at hhead

theorem apart_of_ended {cs : List Char} (h : Ended cs) : Apart cs := by
  intro c hc
  cases hname : isNameChar c with
  | false => rfl
  | true =>
    have hblank := h c hc
    rw [isBlank_of_isNameChar hname] at hblank
    cases hblank

end Reference

open Reference (isNameChar Apart)

namespace Referenced

theorem ofChars_cons (c : Char) (cs : List Char) : ofChars (c :: cs) = (ofChars cs).cons c := rfl

theorem cons_of_ne {c : Char} (hc : c ≠ '$') (t : Referenced) : t.cons c = ⟨c :: t.gap, t.rest⟩ :=
  if_neg hc

theorem cons_dollar_of_nil {t : Referenced} (h : t.gap.takeWhile isNameChar = []) :
    t.cons '$' = ⟨'$' :: t.gap, t.rest⟩ := by
  rw [cons, if_pos rfl, h]

theorem cons_dollar_of_ne_nil {t : Referenced} (h : t.gap.takeWhile isNameChar ≠ []) :
    t.cons '$' =
      ⟨[], (t.gap.takeWhile isNameChar, t.gap.dropWhile isNameChar) :: t.rest⟩ := by
  rw [cons, if_pos rfl]
  split
  · next hnil => exact absurd hnil h
  · rfl

/-! ## One text after another -/

/-- The cut of a text after a gap and references with the gaps after them. -/
def glue (t : Referenced) : List Char → List (List Char × List Char) → Referenced
  | gap, [] => ⟨gap ++ t.gap, t.rest⟩
  | gap, (name, next) :: rest => ⟨gap, (name, (t.glue next rest).gap) :: (t.glue next rest).rest⟩

/-- Two texts of which no reference goes on from the first to the second. -/
instance : Append Referenced := ⟨fun s t => t.glue s.gap s.rest⟩

theorem append_def (s t : Referenced) : s ++ t = t.glue s.gap s.rest := rfl

theorem fill_cons (f : List Char → List Char) (gap name next : List Char)
    (rest : List (List Char × List Char)) :
    fill f ⟨gap, (name, next) :: rest⟩ = gap ++ (f name ++ fill f ⟨next, rest⟩) := by
  simp [fill]

theorem fill_append (f : List Char → List Char) (s t : Referenced) :
    (s ++ t).fill f = s.fill f ++ t.fill f := by
  obtain ⟨gap, rest⟩ := s
  rw [append_def]
  induction rest generalizing gap with
  | nil => simp [glue, fill]
  | cons e rest ih =>
    obtain ⟨name, next⟩ := e
    have hrest := ih next
    simp only [glue] at hrest ⊢
    rw [fill_cons, fill_cons, hrest, List.append_assoc, List.append_assoc]

theorem names_append (s t : Referenced) : (s ++ t).names = s.names ++ t.names := by
  obtain ⟨gap, rest⟩ := s
  rw [append_def]
  induction rest generalizing gap with
  | nil => rfl
  | cons e rest ih =>
    obtain ⟨name, next⟩ := e
    exact congrArg (name :: ·) (ih next)

theorem append_assoc (s t t' : Referenced) : s ++ t ++ t' = s ++ (t ++ t') := by
  obtain ⟨gap, rest⟩ := s
  induction rest generalizing gap with
  | nil =>
    obtain ⟨next, _ | ⟨e, rest⟩⟩ := t
    · simp [append_def, glue]
    · rfl
  | cons e rest ih =>
    obtain ⟨name, next⟩ := e
    have hrest := ih next
    simp only [append_def, glue] at hrest ⊢
    rw [hrest]

/-- A name is over at the end of a text if the next one does not go on with it. -/
theorem splitName_append (gap : List Char) {next : List Char} (h : next.takeWhile isNameChar = []) :
    (gap ++ next).takeWhile isNameChar = gap.takeWhile isNameChar ∧
      (gap ++ next).dropWhile isNameChar = gap.dropWhile isNameChar ++ next := by
  have hdrop : next.dropWhile isNameChar = next := by
    have happend := List.takeWhile_append_dropWhile (p := isNameChar) (l := next)
    rwa [h, List.nil_append] at happend
  induction gap with
  | nil => exact ⟨h, hdrop⟩
  | cons c gap ih =>
    rw [List.cons_append, List.takeWhile_cons, List.takeWhile_cons, List.dropWhile_cons,
      List.dropWhile_cons, ih.1, ih.2]
    split
    · exact ⟨rfl, rfl⟩
    · exact ⟨rfl, rfl⟩

theorem cons_append {t : Referenced} (ht : t.gap.takeWhile isNameChar = []) (c : Char)
    (s : Referenced) : (s ++ t).cons c = s.cons c ++ t := by
  obtain ⟨gap, rest⟩ := s
  by_cases hc : c = '$'
  · subst hc
    cases rest with
    | nil =>
      obtain ⟨htake, hdrop⟩ := splitName_append gap ht
      change (⟨gap ++ t.gap, t.rest⟩ : Referenced).cons '$' = _
      by_cases hnil : gap.takeWhile isNameChar = []
      · rw [cons_dollar_of_nil (htake.trans hnil), cons_dollar_of_nil hnil]
        rfl
      · rw [cons_dollar_of_ne_nil (htake ▸ hnil), cons_dollar_of_ne_nil hnil, htake, hdrop]
        rfl
    | cons e rest =>
      by_cases hnil : gap.takeWhile isNameChar = []
      · rw [cons_dollar_of_nil hnil, cons_dollar_of_nil hnil]
        rfl
      · rw [cons_dollar_of_ne_nil hnil, cons_dollar_of_ne_nil hnil]
        rfl
  · rw [cons_of_ne hc, cons_of_ne hc]
    cases rest with
    | nil => rfl
    | cons e rest => rfl

theorem takeWhile_gap {cs : List Char} (h : Apart cs) :
    (ofChars cs).gap.takeWhile isNameChar = [] := by
  cases cs with
  | nil => rfl
  | cons c cs =>
    have hc : isNameChar c = false := h c rfl
    rw [ofChars_cons]
    by_cases hdollar : c = '$'
    · subst hdollar
      by_cases htake : (ofChars cs).gap.takeWhile isNameChar = []
      · rw [cons_dollar_of_nil htake]
        rfl
      · rw [cons_dollar_of_ne_nil htake]
        rfl
    · rw [cons_of_ne hdollar, List.takeWhile_cons, hc]
      rfl

/-- The cut of a text on both sides of a place where no reference goes on. -/
theorem ofChars_append (u : List Char) {cs : List Char} (h : Apart cs) :
    ofChars (u ++ cs) = ofChars u ++ ofChars cs := by
  induction u with
  | nil => rfl
  | cons c u ih => rw [List.cons_append, ofChars_cons, ih, cons_append (takeWhile_gap h)]; rfl

theorem ofChars_eq_self {w : List Char} (h : '$' ∉ w) : ofChars w = ⟨w, []⟩ := by
  induction w with
  | nil => rfl
  | cons c w ih =>
    obtain ⟨hc, hw⟩ := not_or.1 (List.mem_cons.not.1 h)
    rw [ofChars_cons, ih hw, cons_of_ne (Ne.symm hc)]

theorem ofChars_reference {name : List Char} (hne : name ≠ [])
    (hname : ∀ c ∈ name, isNameChar c = true) : ofChars ('$' :: name) = ⟨[], [(name, [])]⟩ := by
  have hdollar : '$' ∉ name := fun hmem => absurd (hname _ hmem) (by decide)
  have htake : name.takeWhile isNameChar = name := List.takeWhile_eq_self_iff.2 hname
  have hdrop : name.dropWhile isNameChar = [] := List.dropWhile_eq_nil_iff.2 hname
  rw [ofChars_cons, ofChars_eq_self hdollar, cons_dollar_of_ne_nil (htake.symm ▸ hne), htake, hdrop]

/-! ## Words -/

theorem ofChars_cons_blank {b : Char} (hb : Text.isBlank b = true) (cs : List Char) :
    ofChars (b :: cs) = ⟨[b], []⟩ ++ ofChars cs := by
  have hdollar : b ≠ '$' := by
    rintro rfl
    exact absurd hb (by decide)
  rw [ofChars_cons, cons_of_ne hdollar]
  rfl

theorem ofChars_append_blank (left : List Char) {b : Char} (hb : Text.isBlank b = true)
    (cs : List Char) : ofChars (left ++ b :: cs) = ofChars left ++ ⟨[b], []⟩ ++ ofChars cs := by
  have hended : Ended (b :: cs) := by
    intro c hc
    obtain rfl := Option.some.inj hc
    exact hb
  rw [ofChars_append left (Reference.apart_of_ended hended), ofChars_cons_blank hb, append_assoc]

/-- The part of a text between blanks is cut by itself. -/
theorem ofChars_between {u v : List Char} (hu : Parted u) (w : List Char) (hv : Ended v) :
    ofChars (u ++ w ++ v) = ofChars u ++ ofChars w ++ ofChars v := by
  rw [ofChars_append (u ++ w) (Reference.apart_of_ended hv)]
  rcases hu.cases with rfl | ⟨left, b, rfl, hb⟩
  · rfl
  · rw [List.append_assoc, List.singleton_append, ofChars_append_blank left hb w,
      ofChars_append_blank left hb [], append_assoc _ (ofChars []) (ofChars w)]
    rfl

variable (f : List Char → List Char)

theorem fill_gap (gap : List Char) : fill f ⟨gap, []⟩ = gap := by simp [fill]

theorem fill_cons_blank {b : Char} (hb : Text.isBlank b = true) (cs : List Char) :
    (ofChars (b :: cs)).fill f = b :: (ofChars cs).fill f := by
  rw [ofChars_cons_blank hb, fill_append, fill_gap, List.singleton_append]

theorem fill_ended {cs : List Char} (h : Ended cs) : Ended ((ofChars cs).fill f) := by
  cases cs with
  | nil => exact h
  | cons b cs =>
    rw [fill_cons_blank f (h b rfl)]
    exact h

theorem fill_parted {cs : List Char} (h : Parted cs) : Parted ((ofChars cs).fill f) := by
  rcases h.cases with rfl | ⟨left, b, rfl, hb⟩
  · exact h
  · rw [ofChars_append_blank left hb [], fill_append, fill_append, fill_gap]
    exact List.append_nil _ ▸ Text.parted_append_singleton _ hb

/-- The words of a text with its references filled in. -/
theorem splitWords_fill (cs : List Char) : splitWords ((ofChars cs).fill f) =
    (splitWords cs).flatMap fun w => splitWords ((ofChars w).fill f) := by
  induction cs using Text.word_induction with
  | nil => rfl
  | blank b cs hb ih =>
    rw [Text.splitWords_cons_blank hb, ← ih, fill_cons_blank f hb, Text.splitWords_cons_blank hb]
  | word w cs hw hcs ih =>
    rw [Text.splitWords_append w hcs, Text.splitWords_of_isWord hw, List.singleton_append,
      List.flatMap_cons, ← ih, ofChars_append w (Reference.apart_of_ended hcs), fill_append,
      Text.splitWords_append _ (fill_ended f hcs)]

end Referenced

/-- A text without references is left as it is. -/
theorem substitute_eq_self {s : String} (h : '$' ∉ s.toList) (source : ValueSource) :
    substitute s source = s := by
  rw [substitute, Referenced.ofChars_eq_self h, Referenced.fill_gap, String.ofList_toList]

theorem substitute_reference {token : String} {name : List Char}
    (htoken : token.toList = '$' :: name) (hne : name ≠ [])
    (hname : ∀ c ∈ name, isNameChar c = true) (source : ValueSource) :
    substitute token source = String.ofList (Reference.replacement source name) := by
  rw [substitute, htoken, Referenced.ofChars_reference hne hname]
  simp [Referenced.fill]

/-- The part of an expression between blanks is substituted by itself. -/
theorem substitute_between {u v : String} (hu : Parted u.toList) (w : String)
    (hv : Ended v.toList) (source : ValueSource) : substitute (u ++ w ++ v) source =
      substitute u source ++ substitute w source ++ substitute v source := by
  simp only [substitute, String.toList_append, ← String.ofList_append]
  rw [Referenced.ofChars_between hu w.toList hv, Referenced.fill_append, Referenced.fill_append]

/-- Each word is substituted by itself. -/
theorem words_substitute (expression : String) (source : ValueSource) :
    Text.words (substitute expression source) =
      (Text.words expression).flatMap fun w => Text.words (substitute w source) := by
  simp only [Text.words, substitute, String.toList_ofList, List.flatMap_map]
  rw [Referenced.splitWords_fill, List.map_flatMap]

end Reckoner
