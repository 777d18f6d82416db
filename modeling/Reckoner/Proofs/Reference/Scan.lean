import Reckoner.Proofs.Reference.Append

/-!
# References as the matches of a pattern

A reference is a match of `\$[A-Za-z0-9_\-.*]+` (`Reference.IsMatch`). A text is searched for
matches from left to right: the longest match at a place is taken and the search goes on after
it, and where no match begins one character is left in the gap (`Reference.Scan`). This has one
outcome for every text (`Scan.unique`), and the cut of a text is that outcome (`scan_ofChars`).
So the references of an expression, and what takes their place, are told without the cut
(`substitute_scan`).
-/

namespace Reckoner

namespace Reference

/-- A dollar sign and one or more ASCII letters, ASCII digits, or characters of `_-.*`. -/
def IsMatch (w : List Char) : Prop :=
  ∃ name, w = '$' :: name ∧ name ≠ [] ∧ ∀ c ∈ name,
    ('A' ≤ c ∧ c ≤ 'Z') ∨ ('a' ≤ c ∧ c ≤ 'z') ∨ ('0' ≤ c ∧ c ≤ '9') ∨ c ∈ ['_', '-', '.', '*']

/-- The search for matches in a text: the gap before the first one, and every match with the gap
after it. -/
inductive Scan : List Char → List Char → List (List Char × List Char) → Prop
  | nil : Scan [] [] []
  /-- A match begins, and the longest one is taken. -/
  | hit {w rest gap : List Char} {found : List (List Char × List Char)} (hmatch : IsMatch w)
      (hlongest : ∀ v, IsMatch v → v <+: w ++ rest → v <+: w) (hrest : Scan rest gap found) :
      Scan (w ++ rest) [] ((w, gap) :: found)
  /-- No match begins. -/
  | skip {c : Char} {cs gap : List Char} {found : List (List Char × List Char)}
      (hnone : ∀ v, IsMatch v → ¬v <+: c :: cs) (hrest : Scan cs gap found) :
      Scan (c :: cs) (c :: gap) found

/-! ## Matches -/

theorem isMatch_iff {w : List Char} :
    IsMatch w ↔ ∃ name, w = '$' :: name ∧ name ≠ [] ∧ ∀ c ∈ name, isNameChar c = true := by
  simp only [IsMatch, isNameChar_iff]

/-- A match does not go on over what is no name character. -/
theorem isPrefix_of_apart {v w rest : List Char} (hv : IsMatch v) (hne : w ≠ [])
    (hrest : Apart rest) (h : v <+: w ++ rest) : v <+: w := by
  obtain hle | ⟨more, rfl⟩ := List.prefix_or_prefix_of_prefix h (List.prefix_append w rest)
  · exact hle
  · cases more with
    | nil => exact (List.append_nil w).symm ▸ List.prefix_rfl
    | cons c cs =>
      -- `c` is in the name, and stands where no name goes on
      obtain ⟨name, hname, -, hchars⟩ := isMatch_iff.1 hv
      obtain ⟨after, rfl⟩ := (List.prefix_append_right_inj w).1 h
      have hc : c ∈ name := by
        cases w with
        | nil => exact absurd rfl hne
        | cons d ds =>
          rw [← (List.cons.inj hname).2]
          exact List.mem_append_right ds List.mem_cons_self
      have happart := hrest c rfl
      rw [hchars c hc] at happart
      cases happart

/-! ## The outcome of a search -/

namespace Scan

variable {text gap : List Char} {found : List (List Char × List Char)}

/-- Matches and gaps make up the text. -/
theorem text_eq (h : Scan text gap found) :
    text = gap ++ found.flatMap fun m => m.1 ++ m.2 := by
  induction h with
  | nil => rfl
  | hit _ _ _ ih => rw [List.flatMap_cons, List.nil_append, List.append_assoc, ← ih]
  | skip _ _ ih => rw [List.cons_append, ← ih]

/-- No match is left in a gap. -/
theorem not_isInfix (h : Scan text gap found) {g : List Char} (hg : g ∈ gap :: found.map Prod.snd)
    {v : List Char} (hv : IsMatch v) : ¬v <:+: g := by
  have hnil : ¬v <:+: [] := by
    obtain ⟨name, rfl, -⟩ := hv
    exact fun hinfix => nomatch List.infix_nil.1 hinfix
  induction h generalizing g with
  | nil =>
    obtain rfl := List.mem_singleton.1 hg
    exact hnil
  | hit _ _ _ ih =>
    obtain rfl | hg := List.mem_cons.1 hg
    · exact hnil
    · exact ih hg
  | @skip c cs gap found hnone hrest ih =>
    obtain rfl | hg := List.mem_cons.1 hg
    · rw [List.infix_cons_iff, not_or]
      refine ⟨fun hbegins => hnone v hv (hbegins.trans ?_), ih List.mem_cons_self⟩
      rw [hrest.text_eq]
      exact List.prefix_append (c :: gap) _
    · exact ih (List.mem_cons_of_mem gap hg)

/-- A text has one outcome. -/
theorem unique {gap' : List Char} {found' : List (List Char × List Char)}
    (h : Scan text gap found) (h' : Scan text gap' found') : gap' = gap ∧ found' = found := by
  induction h generalizing gap' found' with
  | nil =>
    generalize htext : ([] : List Char) = text' at h'
    cases h' with
    | nil => exact ⟨rfl, rfl⟩
    | hit hmatch' _ _ =>
      obtain ⟨name, rfl, -⟩ := hmatch'
      cases htext
    | skip _ _ => cases htext
  | @hit w rest gap found hmatch hlongest hrest ih =>
    generalize htext : w ++ rest = text' at h'
    cases h' with
    | nil =>
      obtain ⟨name, rfl, -⟩ := hmatch
      cases htext
    | @hit w' rest' _ _ hmatch' hlongest' hrest' =>
      have hw' : w' <+: w := hlongest w' hmatch' (htext ▸ List.prefix_append w' rest')
      have hw : w <+: w' := hlongest' w hmatch (htext ▸ List.prefix_append w rest)
      obtain rfl : w' = w := hw'.eq_of_length (Nat.le_antisymm hw'.length_le hw.length_le)
      obtain rfl : rest' = rest := (List.append_cancel_left htext).symm
      obtain ⟨rfl, rfl⟩ := ih hrest'
      exact ⟨rfl, rfl⟩
    | skip hnone' _ => exact absurd (htext ▸ List.prefix_append w rest) (hnone' w hmatch)
  | @skip c cs gap found hnone hrest ih =>
    generalize htext : c :: cs = text' at h'
    cases h' with
    | nil => cases htext
    | @hit w' rest' _ _ hmatch' _ _ =>
      exact absurd (htext ▸ List.prefix_append w' rest') (hnone w' hmatch')
    | skip _ hrest' =>
      cases htext
      obtain ⟨rfl, rfl⟩ := ih hrest'
      exact ⟨rfl, rfl⟩

end Scan

end Reference

open Reference (IsMatch Scan isNameChar Apart)

/-! ## The cut of a text -/

namespace Referenced

/-- A dollar sign takes the name characters after it. -/
theorem ofChars_dollar {name : List Char} (hne : name ≠ [])
    (hname : ∀ c ∈ name, isNameChar c = true) {cs : List Char} (h : Apart cs) :
    ofChars ('$' :: name ++ cs) = ⟨[], (name, (ofChars cs).gap) :: (ofChars cs).rest⟩ := by
  rw [ofChars_append ('$' :: name) h, ofChars_reference hne hname]
  rfl

/-- Without a name after it, a character goes into the gap. -/
theorem ofChars_cons_of_apart {c : Char} {cs : List Char} (h : c = '$' → Apart cs) :
    ofChars (c :: cs) = ⟨c :: (ofChars cs).gap, (ofChars cs).rest⟩ := by
  rw [ofChars_cons]
  by_cases hc : c = '$'
  · subst hc
    exact cons_dollar_of_nil (takeWhile_gap (h rfl))
  · exact cons_of_ne hc _

/-- The matches of a cut, each with its dollar sign. -/
def found (t : Referenced) : List (List Char × List Char) :=
  t.rest.map fun (name, gap) => ('$' :: name, gap)

/-- The cut of a text is the outcome of the search. -/
theorem scan_ofChars (cs : List Char) : Scan cs (ofChars cs).gap (ofChars cs).found := by
  match cs with
  | [] => exact .nil
  | c :: cs =>
    by_cases hname : c = '$' ∧ cs.takeWhile isNameChar ≠ []
    · obtain ⟨rfl, hne⟩ := hname
      have hchars : ∀ d ∈ cs.takeWhile isNameChar, isNameChar d = true := fun d =>
        List.mem_takeWhile_imp
      have hsplit : '$' :: cs =
          '$' :: cs.takeWhile isNameChar ++ cs.dropWhile isNameChar := by
        rw [List.cons_append, List.takeWhile_append_dropWhile]
      have hshorter : (cs.dropWhile isNameChar).length ≤ cs.length :=
        (List.dropWhile_suffix isNameChar).length_le
      rw [hsplit, ofChars_dollar hne hchars (Reference.apart_dropWhile cs)]
      refine .hit (Reference.isMatch_iff.2 ⟨_, rfl, hne, hchars⟩) (fun v hv => ?_)
        (scan_ofChars (cs.dropWhile isNameChar))
      exact Reference.isPrefix_of_apart hv (List.cons_ne_nil _ _) (Reference.apart_dropWhile cs)
    · have hapart : c = '$' → Apart cs := by
        intro hc
        have hnil : cs.takeWhile isNameChar = [] := not_not.1 fun hne => hname ⟨hc, hne⟩
        have happend := List.takeWhile_append_dropWhile (p := isNameChar) (l := cs)
        rw [hnil, List.nil_append] at happend
        exact happend ▸ Reference.apart_dropWhile cs
      rw [ofChars_cons_of_apart hapart]
      refine .skip (fun v hv hbegins => ?_) (scan_ofChars cs)
      -- a match of what begins with `c` would be longer than `c` and go on in `cs`
      obtain ⟨name, rfl, hne, -⟩ := Reference.isMatch_iff.1 hv
      obtain ⟨rfl, -⟩ := List.cons_prefix_cons.1 hbegins
      have hlength : ('$' :: name).length ≤ ['$'].length :=
        (Reference.isPrefix_of_apart hv (List.cons_ne_nil _ []) (hapart rfl) hbegins).length_le
      have hpos := List.length_pos_iff.2 hne
      simp only [List.length_cons, List.length_nil] at hlength
      omega
termination_by cs.length

end Referenced

/-! ## Expressions -/

namespace Reference

/-- What stands for a match: the numbers of the values that are looked up for it, one space
between two of them, or the match itself if there are none. -/
def valueText (source : ValueSource) (w : List Char) : List Char :=
  match (ofName w.tail).lookup source with
  | [] => w
  | values => (" ".intercalate (values.map fun v => Number.format v.toFloat)).toList

theorem valueText_cons (source : ValueSource) (name : List Char) :
    valueText source ('$' :: name) = replacement source name := by
  unfold valueText replacement resolve
  rw [List.tail_cons]
  cases (ofName name).lookup source with
  | nil => rfl
  | cons v values =>
    show _ = (" ".intercalate (((v :: values).map RawValue.toFloat).map Number.format)).toList
    rw [List.map_map]
    rfl

end Reference

/-- The references of an expression are the matches that are found in it, its names are what
they name, and substitution changes each of them by itself and keeps the gaps between them, in
which there is no further match. -/
theorem substitute_scan (expression : String) (source : ValueSource) :
    ∃ gap found, Scan expression.toList gap found ∧
      (∀ gap' found', Scan expression.toList gap' found' → gap' = gap ∧ found' = found) ∧
      (∀ g ∈ gap :: found.map Prod.snd, ∀ w, IsMatch w → ¬w <:+: g) ∧
      expression.toList = gap ++ (found.flatMap fun m => m.1 ++ m.2) ∧
      references expression = found.map (fun m => String.ofList m.1) ∧
      referenceNames expression = (found.map fun m => String.ofList m.1.tail).eraseDups ∧
      (substitute expression source).toList =
        gap ++ found.flatMap fun m => Reference.valueText source m.1 ++ m.2 := by
  have hscan := Referenced.scan_ofChars expression.toList
  refine ⟨_, _, hscan, fun _ _ => hscan.unique, fun g hg w => hscan.not_isInfix hg, hscan.text_eq,
    ?_, ?_, ?_⟩
  · simp [references, Referenced.names, Referenced.found]
  · simp [referenceNames, Referenced.names, Referenced.found, Function.comp_def]
  · rw [substitute, String.toList_ofList, Referenced.fill, Referenced.found, List.flatMap_map]
    simp only [Reference.valueText_cons]

/-- References that stand next to each other, after a further dollar sign and before one that
begins no reference. -/
example : references "$$net$*.tax+$é $a-b$" = ["$net", "$*.tax", "$a-b"] := by
  decide

end Reckoner
