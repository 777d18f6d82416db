import Mathlib.Data.List.TakeWhile
import Reckoner.Proofs.Reference.Expansion
import Reckoner.Proofs.Reference.Substitution

/-!
# One source behind another

Filling in references from one source and then from another is filling them in once from both,
the second having what the first has not (`ValueSource.orElse`), if the numbers of the first are
no part of a reference in the text that the second is asked about. They are part of one where a
reference that is filled in stands directly after a dollar sign, or directly after a reference
that is left in place: nothing ends these. Where none does (`Reference.Detached`), the references
that the first source leaves are the references of the text (`names_substitute`), and elsewhere
the second source can tell the difference (`detached_iff`).
-/

namespace Reckoner

open Reference (isNameChar Apart)

/-! ## Two sources as one -/

/-- The source that asks another one for what it has no values for. -/
def ValueSource.orElse (source other : ValueSource) : ValueSource where
  named name := if source.named name = [] then other.named name else source.named name
  nested parent name :=
    if source.nested parent name = [] then other.nested parent name else source.nested parent name
  everywhere name :=
    if source.everywhere name = [] then other.everywhere name else source.everywhere name

namespace Reference

theorem lookup_orElse (source other : ValueSource) (reference : Reference) :
    reference.lookup (source.orElse other) =
      if reference.lookup source = [] then reference.lookup other else reference.lookup source := by
  cases reference with
  | named name => rfl
  | nested parent name => rfl
  | everywhere name => rfl

/-- Whether a source has values for a reference. -/
def known (source : ValueSource) (name : List Char) : Bool :=
  !(resolve source name).isEmpty

theorem replacement_of_not_known {source : ValueSource} {name : List Char}
    (h : known source name = false) : replacement source name = '$' :: name := by
  rw [known, Bool.not_eq_false', List.isEmpty_iff] at h
  rw [replacement, h]

theorem isNameChar_of_beginsPlain {c : Char} (h : Program.beginsPlain c = true) (hc : c ≠ '$') :
    isNameChar c = true := by
  simp only [Program.beginsPlain, Bool.or_eq_true, beq_iff_eq] at h
  rcases h with (((hdigit | rfl) | rfl) | rfl) | rfl
  · simp [isNameChar, Char.isAlphanum, hdigit]
  · rfl
  · rfl
  · rfl
  · exact absurd rfl hc

/-- Written numbers on one line begin with a name character, and hold no dollar sign. -/
theorem intercalate_numerals {ws : List (List Char)} (hne : ws ≠ [])
    (hws : ∀ w ∈ ws, Number.IsNumeral w) :
    '$' ∉ [' '].intercalate ws ∧
      ∃ c ∈ ([' '].intercalate ws).head?, isNameChar c = true := by
  induction ws with
  | nil => exact absurd rfl hne
  | cons w ws ih =>
    obtain ⟨hw, hws⟩ := List.forall_mem_cons.1 hws
    obtain ⟨c, rest, hcons, hbegins, hc, -⟩ := Program.exists_head_of_isNumeral hw
    have hname := isNameChar_of_beginsPlain hbegins hc
    cases ws with
    | nil =>
      rw [List.intercalate_singleton]
      exact ⟨hw.isWord.2, c, by rw [hcons]; rfl, hname⟩
    | cons v ws =>
      rw [List.intercalate_cons_cons]
      refine ⟨?_, c, by rw [hcons]; rfl, hname⟩
      simp only [List.mem_append, List.mem_singleton, not_or]
      exact ⟨⟨hw.isWord.2, by decide⟩, (ih (List.cons_ne_nil _ _) hws).1⟩

/-- What a reference is filled in with begins with a name character, and holds no dollar sign. -/
theorem replacement_of_known {source : ValueSource} {name : List Char}
    (h : known source name = true) : '$' ∉ replacement source name ∧
      ∃ c ∈ (replacement source name).head?, isNameChar c = true := by
  rw [replacement]
  cases hresolve : resolve source name with
  | nil =>
    rw [known, hresolve] at h
    cases h
  | cons x xs =>
    simp only [Text.unwords, String.toList_intercalate, List.map_map]
    refine intercalate_numerals (List.cons_ne_nil _ _) fun w hw => ?_
    obtain ⟨y, -, rfl⟩ := List.mem_map.1 hw
    exact isNumeral_format y

theorem replacement_orElse (source other : ValueSource) (name : List Char) :
    replacement (source.orElse other) name =
      if known source name then replacement source name else replacement other name := by
  have hresolve : resolve (source.orElse other) name =
      if known source name then resolve source name else resolve other name := by
    rw [known, resolve, lookup_orElse, resolve, resolve]
    cases (ofName name).lookup source with
    | nil => rfl
    | cons raw rest => rfl
  rw [replacement, hresolve]
  cases known source name with
  | false => rfl
  | true => rfl

end Reference

/-! ## What a cut is -/

namespace Referenced

open Reference (known replacement replacement_of_known replacement_of_not_known)

theorem ofChars_of_rest_nil {cs : List Char} (h : (ofChars cs).rest = []) :
    ofChars cs = ⟨cs, []⟩ := by
  have hchars := toChars_ofChars cs
  generalize ofChars cs = t at h hchars
  obtain ⟨gap, rest⟩ := t
  obtain rfl : rest = [] := h
  rw [toChars, fill_gap] at hchars
  rw [hchars]

theorem rest_cons_eq_nil {c : Char} {t : Referenced} (h : (t.cons c).rest = []) :
    t.rest = [] ∧ (c = '$' → t.gap.takeWhile isNameChar = []) := by
  by_cases hc : c = '$'
  · subst hc
    by_cases hnil : t.gap.takeWhile isNameChar = []
    · rw [cons_dollar_of_nil hnil] at h
      exact ⟨h, fun _ => hnil⟩
    · rw [cons_dollar_of_ne_nil hnil] at h
      cases h
  · rw [cons_of_ne hc] at h
    exact ⟨h, fun heq => absurd heq hc⟩

/-- No reference in a text, none in its end. -/
theorem rest_ofChars_of_append {u v : List Char} (h : (ofChars (u ++ v)).rest = []) :
    (ofChars v).rest = [] := by
  induction u with
  | nil => exact h
  | cons c u ih => exact ih (rest_cons_eq_nil h).1

/-- The cut of a text: no gap holds a reference or goes on with the one before it. -/
structure IsCut (t : Referenced) : Prop where
  gap : (ofChars t.gap).rest = []
  names : ∀ e ∈ t.rest, e.1 ≠ [] ∧ ∀ c ∈ e.1, isNameChar c = true
  gaps : ∀ e ∈ t.rest, (ofChars e.2).rest = [] ∧ Apart e.2

theorem IsCut.tail {gap name next : List Char} {rest : List (List Char × List Char)}
    (h : IsCut ⟨gap, (name, next) :: rest⟩) : IsCut ⟨next, rest⟩ where
  gap := (h.gaps _ List.mem_cons_self).1
  names e he := h.names e (List.mem_cons_of_mem _ he)
  gaps e he := h.gaps e (List.mem_cons_of_mem _ he)

theorem isCut_ofChars (cs : List Char) : IsCut (ofChars cs) := by
  induction cs with
  | nil => exact ⟨rfl, nofun, nofun⟩
  | cons c cs ih =>
    rw [ofChars_cons]
    generalize ofChars cs = t at ih
    have hgap := ofChars_of_rest_nil ih.gap
    by_cases hc : c = '$'
    · subst hc
      by_cases hnil : t.gap.takeWhile isNameChar = []
      · rw [cons_dollar_of_nil hnil]
        refine ⟨?_, ih.names, ih.gaps⟩
        rw [ofChars_cons, hgap, cons_dollar_of_nil (t := ⟨t.gap, []⟩) hnil]
      · rw [cons_dollar_of_ne_nil hnil]
        have hnext : (ofChars (t.gap.dropWhile isNameChar)).rest = [] := by
          refine rest_ofChars_of_append (u := t.gap.takeWhile isNameChar) ?_
          rw [List.takeWhile_append_dropWhile]
          exact ih.gap
        have hapart := Reference.apart_dropWhile t.gap
        exact ⟨rfl, List.forall_mem_cons.2 ⟨⟨hnil, fun c hc => List.mem_takeWhile_imp hc⟩, ih.names⟩,
          List.forall_mem_cons.2 ⟨⟨hnext, hapart⟩, ih.gaps⟩⟩
    · rw [cons_of_ne hc]
      refine ⟨?_, ih.names, ih.gaps⟩
      rw [ofChars_cons, hgap, cons_of_ne hc]

/-- A gap that does not end with a dollar sign takes nothing from what follows it. -/
theorem ofChars_gap_append {gap : List Char} (hgap : (ofChars gap).rest = [])
    (hlast : gap.getLast? ≠ some '$') (cs : List Char) :
    ofChars (gap ++ cs) = ⟨gap, []⟩ ++ ofChars cs := by
  induction gap with
  | nil => rfl
  | cons c gap ih =>
    obtain ⟨hrest, htake⟩ := rest_cons_eq_nil (t := ofChars gap) hgap
    rw [ofChars_of_rest_nil hrest] at htake
    cases gap with
    | nil =>
      have hc : c ≠ '$' := fun heq => hlast (heq ▸ rfl)
      exact cons_of_ne hc _
    | cons d gap =>
      rw [List.cons_append, ofChars_cons, ih hrest (by rwa [List.getLast?_cons_cons] at hlast)]
      by_cases hc : c = '$'
      · subst hc
        have hd : isNameChar d = false := by
          have hnil := htake rfl
          rw [List.takeWhile_cons] at hnil
          cases hd : isNameChar d with
          | false => rfl
          | true => simp [hd] at hnil
        refine cons_dollar_of_nil ?_
        show (d :: (gap ++ (ofChars cs).gap)).takeWhile isNameChar = []
        rw [List.takeWhile_cons, hd]
        rfl
      · exact cons_of_ne hc _

/-- A text without dollar signs takes nothing from what follows it. -/
theorem ofChars_plain_append {w : List Char} (h : '$' ∉ w) (cs : List Char) :
    ofChars (w ++ cs) = ⟨w, []⟩ ++ ofChars cs := by
  refine ofChars_gap_append (by rw [ofChars_eq_self h]) (fun hlast => h ?_) cs
  exact List.mem_of_getLast? hlast

/-! ## What is left for a second source -/

/-- No reference that a source has values for stands directly after a dollar sign, or directly
after a reference that it has no values for. -/
def Detached (source : ValueSource) : List Char → List (List Char × List Char) → Prop
  | _, [] => True
  | gap, (name, next) :: rest =>
    (known source name = true → gap.getLast? ≠ some '$') ∧
      (known source name = false → next = [] → ∀ e ∈ rest.head?, known source e.1 = false) ∧
        Detached source next rest

instance decidableDetached (source : ValueSource) : (gap : List Char) →
    (rest : List (List Char × List Char)) → Decidable (Detached source gap rest)
  | _, [] => .isTrue trivial
  | _, (_, next) :: rest =>
    have := decidableDetached source next rest
    inferInstanceAs (Decidable (_ ∧ _ ∧ _))

/-- The cut in which the references that a source has values for have become part of the gaps. -/
def absorb (source : ValueSource) : List Char → List (List Char × List Char) → Referenced
  | gap, [] => ⟨gap, []⟩
  | gap, (name, next) :: rest =>
    ⟨gap, []⟩ ++ ((if known source name then ⟨replacement source name, []⟩ else ⟨[], [(name, [])]⟩) ++
      absorb source next rest)

variable {source : ValueSource} {gap : List Char} {rest : List (List Char × List Char)}

theorem fill_absorb (f : List Char → List Char) : (absorb source gap rest).fill f =
    fill (fun name => if known source name then replacement source name else f name)
      ⟨gap, rest⟩ := by
  induction rest generalizing gap with
  | nil => rw [absorb, fill_gap, fill_gap]
  | cons e rest ih =>
    obtain ⟨name, next⟩ := e
    rw [absorb, fill_append, fill_append, fill_cons, ih, fill_gap]
    cases known source name with
    | false => simp [fill]
    | true => simp [fill]

theorem names_absorb : (absorb source gap rest).names =
    (rest.map Prod.fst).filter fun name => !known source name := by
  induction rest generalizing gap with
  | nil => rfl
  | cons e rest ih =>
    obtain ⟨name, next⟩ := e
    rw [absorb, names_append, names_append, ih]
    cases hknown : known source name with
    | false => simp [names, hknown]
    | true => simp [names, hknown]

/-- What follows a reference that is left in place does not go on with it. -/
theorem Detached.apart {name next : List Char} (hcut : IsCut ⟨gap, (name, next) :: rest⟩)
    (h : Detached source gap ((name, next) :: rest)) (hknown : known source name = false) :
    Apart (fill (replacement source) ⟨next, rest⟩) := by
  obtain ⟨-, hleft, -⟩ := h
  have hnext : Apart next := (hcut.gaps _ List.mem_cons_self).2
  cases next with
  | cons c next => exact hnext
  | nil =>
    cases rest with
    | nil => exact nofun
    | cons e rest =>
      obtain ⟨other, after⟩ := e
      rw [fill_cons, replacement_of_not_known (hleft hknown rfl _ rfl)]
      intro c hc
      obtain rfl := Option.some.inj hc
      rfl

/-- The references that a source leaves are those of the text, if it fills in none where
it would be taken for a part of another one. -/
theorem ofChars_fill (hcut : IsCut ⟨gap, rest⟩) (h : Detached source gap rest) :
    ofChars (fill (replacement source) ⟨gap, rest⟩) = absorb source gap rest := by
  induction rest generalizing gap with
  | nil => rw [fill_gap, absorb, ofChars_of_rest_nil hcut.gap]
  | cons e rest ih =>
    obtain ⟨name, next⟩ := e
    have hrest := ih hcut.tail h.2.2
    rw [fill_cons, absorb, ← hrest]
    cases hknown : known source name with
    | true =>
      rw [ofChars_gap_append hcut.gap (h.1 hknown),
        ofChars_plain_append (replacement_of_known hknown).1]
      rfl
    | false =>
      obtain ⟨hne, hchars⟩ := hcut.names _ List.mem_cons_self
      have hdollar : Apart ('$' :: name ++ fill (replacement source) ⟨next, rest⟩) := by
        intro c hc
        obtain rfl := Option.some.inj hc
        rfl
      rw [replacement_of_not_known hknown, ofChars_append gap hdollar,
        ofChars_append _ (h.apart hcut hknown), ofChars_reference hne hchars,
        ofChars_of_rest_nil hcut.gap]
      rfl

/-! ## Where a second source can tell -/

/-- The length of a text when one character takes the place of each reference. -/
def width (t : Referenced) : Nat :=
  (t.fill fun _ => ['0']).length

theorem width_cons (gap name next : List Char) (rest : List (List Char × List Char)) :
    width ⟨gap, (name, next) :: rest⟩ = gap.length + (1 + width ⟨next, rest⟩) := by
  rw [width, fill_cons, List.length_append, List.length_append]
  rfl

theorem width_gap_append (gap : List Char) (t : Referenced) :
    width (⟨gap, []⟩ ++ t) = gap.length + width t := by
  rw [width, fill_append, fill_gap, List.length_append]
  rfl

/-- A reference takes up the name characters that follow it. -/
theorem width_cons_dollar {t : Referenced} (h : t.gap.takeWhile isNameChar ≠ []) :
    width (t.cons '$') + (t.gap.takeWhile isNameChar).length = width t + 1 := by
  have hwidth := width_gap_append (t.gap.takeWhile isNameChar)
    ⟨t.gap.dropWhile isNameChar, t.rest⟩
  have hgap : (⟨t.gap.takeWhile isNameChar, []⟩ ++ ⟨t.gap.dropWhile isNameChar, t.rest⟩ :
      Referenced) = t := by
    show (⟨t.gap.takeWhile isNameChar ++ t.gap.dropWhile isNameChar, t.rest⟩ : Referenced) = t
    rw [List.takeWhile_append_dropWhile]
  rw [hgap] at hwidth
  rw [cons_dollar_of_ne_nil h, width_cons, hwidth, List.length_nil]
  omega

theorem width_cons_le (c : Char) (t : Referenced) : width (t.cons c) ≤ width t + 1 := by
  have hgap (h : t.cons c = ⟨c :: t.gap, t.rest⟩) : width (t.cons c) ≤ width t + 1 := by
    have hwidth := width_gap_append [c] t
    rw [h]
    exact hwidth.le.trans (by rw [List.length_singleton]; omega)
  by_cases hc : c = '$'
  · subst hc
    by_cases hnil : t.gap.takeWhile isNameChar = []
    · exact hgap (cons_dollar_of_nil hnil)
    · have hwidth := width_cons_dollar hnil
      omega
  · exact hgap (cons_of_ne hc t)

theorem width_append_le (u cs : List Char) :
    width (ofChars (u ++ cs)) ≤ u.length + width (ofChars cs) := by
  induction u with
  | nil => simp
  | cons c u ih =>
    have hcons := width_cons_le c (ofChars (u ++ cs))
    rw [List.cons_append, ofChars_cons, List.length_cons]
    omega

/-- The name characters at the start of a text are at the start of its first gap. -/
theorem takeWhile_gap_ne_nil {cs : List Char} (h : ∃ c ∈ cs.head?, isNameChar c = true) :
    (ofChars cs).gap.takeWhile isNameChar ≠ [] := by
  obtain ⟨c, hc, hname⟩ := h
  obtain ⟨cs, rfl⟩ := List.head?_eq_some_iff.1 hc
  have hdollar : c ≠ '$' := by
    rintro rfl
    cases hname
  rw [ofChars_cons, cons_of_ne hdollar, List.takeWhile_cons, hname]
  exact List.cons_ne_nil _ _

/-- A dollar sign before a name character is no character of its own. -/
theorem width_append_lt {u cs : List Char} (hu : u.getLast? = some '$')
    (hcs : ∃ c ∈ cs.head?, isNameChar c = true) :
    width (ofChars (u ++ cs)) < u.length + width (ofChars cs) := by
  obtain ⟨u, rfl⟩ := List.getLast?_eq_some_iff.1 hu
  have happend := width_append_le u ('$' :: cs)
  have hnil := takeWhile_gap_ne_nil hcs
  have hdollar := width_cons_dollar hnil
  have hpos := List.length_pos_iff.2 hnil
  rw [ofChars_cons] at happend
  rw [List.append_assoc, List.singleton_append, List.length_append, List.length_singleton]
  omega

/-- A reference is one character, and takes up name characters that follow it. -/
theorem width_reference {name : List Char} (hne : name ≠ [])
    (hname : ∀ c ∈ name, isNameChar c = true) (cs : List Char) :
    width (ofChars ('$' :: name ++ cs)) + ((ofChars cs).gap.takeWhile isNameChar).length =
      1 + width (ofChars cs) := by
  have hdollar : '$' ∉ name := fun hmem => absurd (hname _ hmem) (by decide)
  have htake : (name ++ (ofChars cs).gap).takeWhile isNameChar =
      name ++ (ofChars cs).gap.takeWhile isNameChar := List.takeWhile_append_of_pos hname
  have hnil : (⟨name, []⟩ ++ ofChars cs : Referenced).gap.takeWhile isNameChar ≠ [] := by
    show (name ++ (ofChars cs).gap).takeWhile isNameChar ≠ []
    simp [htake, hne]
  have hwidth := width_cons_dollar hnil
  have hlength : ((⟨name, []⟩ ++ ofChars cs : Referenced).gap.takeWhile isNameChar).length =
      name.length + ((ofChars cs).gap.takeWhile isNameChar).length := by
    rw [← List.length_append, ← htake]
    rfl
  rw [width_gap_append, hlength] at hwidth
  rw [List.cons_append, ofChars_cons, ofChars_plain_append hdollar]
  omega

/-- The text that a source leaves is no longer than with its numbers kept apart, and as long only
if it fills in no reference where it would be taken for a part of another one. -/
theorem width_fill_le (hcut : IsCut ⟨gap, rest⟩) :
    let kept := fill (fun name => if known source name then replacement source name else ['0'])
      ⟨gap, rest⟩
    width (ofChars (fill (replacement source) ⟨gap, rest⟩)) ≤ kept.length ∧
      (kept.length ≤ width (ofChars (fill (replacement source) ⟨gap, rest⟩)) →
        Detached source gap rest) := by
  induction rest generalizing gap with
  | nil =>
    simp only [fill_gap, ofChars_of_rest_nil hcut.gap]
    exact ⟨by simp [width, fill], fun _ => trivial⟩
  | cons e rest ih =>
    obtain ⟨name, next⟩ := e
    obtain ⟨hle, hdetached⟩ := ih hcut.tail
    simp only [fill_cons, List.length_append]
    generalize htext : fill (replacement source) ⟨next, rest⟩ = text at *
    generalize (fill _ ⟨next, rest⟩).length = length at *
    have hgap := width_append_le gap (replacement source name ++ text)
    cases hknown : known source name with
    | true =>
      obtain ⟨-, c, hc, hname⟩ := replacement_of_known hknown
      have hhead : ∃ c ∈ (replacement source name ++ text).head?, isNameChar c = true :=
        ⟨c, by rw [List.head?_append, Option.mem_def.1 hc]; rfl, hname⟩
      have hnumbers := width_append_le (replacement source name) text
      simp only [if_true]
      refine ⟨by omega, fun h => ⟨fun _ hlast => ?_, by simp [hknown], hdetached (by omega)⟩⟩
      have hlt := width_append_lt hlast hhead
      omega
    | false =>
      obtain ⟨hne, hchars⟩ : name ≠ [] ∧ ∀ c ∈ name, isNameChar c = true :=
        hcut.names _ List.mem_cons_self
      have hreference := width_reference hne hchars text
      rw [replacement_of_not_known hknown] at hgap ⊢
      simp only [Bool.false_eq_true, if_false, List.length_singleton]
      refine ⟨by omega, fun h => ⟨by simp [hknown], fun _ hnext e he => ?_, hdetached (by omega)⟩⟩
      cases hfilled : known source e.1 with
      | false => rfl
      | true =>
        obtain ⟨-, c, hc, hname⟩ := replacement_of_known hfilled
        obtain ⟨rest, rfl⟩ := List.head?_eq_some_iff.1 he
        obtain ⟨other, after⟩ := e
        have hhead : ∃ c ∈ text.head?, isNameChar c = true := by
          refine ⟨c, ?_, hname⟩
          rw [← htext, hnext, fill_cons, List.nil_append, List.head?_append, Option.mem_def.1 hc]
          rfl
        have hpos := List.length_pos_iff.2 (takeWhile_gap_ne_nil hhead)
        omega

end Referenced

/-! ## Substitution from two sources -/

namespace Reference

/-- No reference that a source has values for stands directly after a dollar sign, or directly
after a reference that it has no values for. -/
def Detached (source : ValueSource) (expression : String) : Prop :=
  let t := Referenced.ofChars expression.toList
  Referenced.Detached source t.gap t.rest

instance (source : ValueSource) (expression : String) : Decidable (Detached source expression) :=
  inferInstanceAs (Decidable (Referenced.Detached source _ _))

variable {source : ValueSource} {expression : String}

/-- The references of the text that a source leaves are those that it has no values for. -/
theorem names_substitute (h : Detached source expression) :
    (Referenced.ofChars (substitute expression source).toList).names =
      (Referenced.ofChars expression.toList).names.filter fun name => !known source name := by
  have hcut := Referenced.isCut_ofChars expression.toList
  have htext := Referenced.ofChars_fill hcut h
  rw [substitute, String.toList_ofList]
  exact (congrArg Referenced.names htext).trans Referenced.names_absorb

theorem substitute_orElse (other : ValueSource) :
    substitute expression (source.orElse other) = String.ofList
      ((Referenced.ofChars expression.toList).fill fun name =>
        if known source name then replacement source name else replacement other name) := by
  rw [substitute]
  exact congrArg String.ofList (Referenced.fill_congr fun name _ =>
    replacement_orElse source other name)

/-- A source that knows nothing changes nothing. -/
theorem substitute_empty (expression : String) : substitute expression .empty = expression := by
  have hreplacement : replacement .empty = fun name => '$' :: name := by
    funext name
    refine replacement_of_not_known ?_
    rw [known, resolve]
    cases ofName name with
    | named name => rfl
    | nested parent name => rfl
    | everywhere name => rfl
  rw [substitute, hreplacement]
  exact (congrArg String.ofList (Referenced.toChars_ofChars _)).trans String.ofList_toList

/-- Filling in from one source and then from another is filling in from both at once. -/
theorem substitute_substitute (h : Detached source expression) (other : ValueSource) :
    substitute (substitute expression source) other =
      substitute expression (source.orElse other) := by
  have hcut := Referenced.isCut_ofChars expression.toList
  have htext := Referenced.ofChars_fill hcut h
  rw [substitute_orElse, substitute, substitute, String.toList_ofList]
  exact congrArg String.ofList
    ((congrArg (Referenced.fill (replacement other)) htext).trans
      (Referenced.fill_absorb (replacement other)))

/-- A source with one value for every reference, of one digit. -/
def digit : ValueSource :=
  ⟨fun _ => [.ofText "0"], fun _ _ => [.ofText "0"], fun _ => [.ofText "0"]⟩

theorem replacement_digit (name : List Char) : replacement digit name = ['0'] := by
  have hlookup : (ofName name).lookup digit = [.ofText "0"] := by
    cases ofName name with
    | named name => rfl
    | nested parent name => rfl
    | everywhere name => rfl
  rw [replacement, resolve, hlookup]
  show (Text.unwords [Number.format (RawValue.ofText "0").toFloat]).toList = ['0']
  decide +kernel

/-- Filling in from one source and then from any other is filling in from both at once only if
no number becomes part of a reference. -/
theorem detached_iff : Detached source expression ↔ ∀ other : ValueSource,
    substitute (substitute expression source) other =
      substitute expression (source.orElse other) := by
  refine ⟨substitute_substitute, fun h => ?_⟩
  have hcut := Referenced.isCut_ofChars expression.toList
  have hdigit : replacement digit = fun _ => ['0'] := funext replacement_digit
  have hlength := h digit
  rw [substitute_orElse, substitute, substitute, hdigit, String.toList_ofList] at hlength
  have hwidth := congrArg List.length (String.ofList_injective hlength)
  exact (Referenced.width_fill_le hcut).2 hwidth.ge

end Reference

end Reckoner
