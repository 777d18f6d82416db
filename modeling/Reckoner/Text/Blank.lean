/-!
# Blank characters and words

Expressions, templates and written numbers are divided at the characters with
Unicode's `White_Space` property. `words` lists the maximal runs of other
characters of a text, `trimStart` and `trim` drop blanks at its ends, and
`unwords` writes words with one space between two of them.

* `isBlank_of_mem_words`, `ne_nil_of_mem_splitWords`: a word holds no blank and
  is not empty;
* `splitWords_append_blank`: a blank ends a word and begins nothing.
-/

namespace Reckoner.Text

/-- The code points with the `White_Space` property. -/
def isBlank (c : Char) : Bool :=
  let n := c.toNat
  (9 ≤ n && n ≤ 13) || n == 0x20 || n == 0x85 || n == 0xA0 || n == 0x1680 ||
    (0x2000 ≤ n && n ≤ 0x200A) || n == 0x2028 || n == 0x2029 || n == 0x202F ||
    n == 0x205F || n == 0x3000

/-- The text with its leading blanks dropped. -/
def trimStart (cs : List Char) : List Char :=
  cs.dropWhile isBlank

/-- The text with the blanks at both ends dropped. -/
def trim (cs : List Char) : List Char :=
  (trimStart (trimStart cs).reverse).reverse

/-! ## Words -/

/-- A text cut at its blanks: the word that reaches its start, which is empty
if a blank stands there, and the words after that one. -/
structure Cut where
  first : List Char
  rest : List (List Char)

namespace Cut

/-- All words of the cut text. -/
def toList : Cut → List (List Char)
  | ⟨[], ws⟩ => ws
  | ⟨w, ws⟩ => w :: ws

/-- The cut of the text with `c` written before it. -/
def cons (c : Char) (cut : Cut) : Cut :=
  if isBlank c then ⟨[], cut.toList⟩ else ⟨c :: cut.first, cut.rest⟩

end Cut

/-- The cut of a whole text. -/
def cut (cs : List Char) : Cut :=
  cs.foldr Cut.cons ⟨[], []⟩

/-- The maximal runs of characters that are not blank, in order. -/
def splitWords (cs : List Char) : List (List Char) :=
  (cut cs).toList

/-- The words of a text. -/
def words (s : String) : List String :=
  (splitWords s.toList).map String.ofList

/-- The words on one line, a space between two of them. -/
def unwords (ws : List String) : String :=
  " ".intercalate ws

@[simp] theorem cut_nil : cut [] = ⟨[], []⟩ := rfl

@[simp] theorem cut_cons (c : Char) (cs : List Char) : cut (c :: cs) = (cut cs).cons c := by
  simp only [cut, List.foldr_cons]

theorem splitWords_cons_blank {c : Char} (h : isBlank c = true) (cs : List Char) :
    splitWords (c :: cs) = splitWords cs := by
  simp [splitWords, Cut.cons, Cut.toList, h]

theorem Cut.mem_cons_of_mem {c : Char} {t : Cut} {P : List Char → Prop}
    (hfirst : isBlank c = false → P (c :: t.first)) (hrest : ∀ w ∈ t.toList, P w)
    (hsub : ∀ w ∈ t.rest, P w) : ∀ w ∈ (t.cons c).toList, P w := by
  intro w hw
  unfold Cut.cons at hw
  split at hw
  · exact hrest w hw
  · rename_i hc
    rcases List.mem_cons.1 hw with rfl | hw
    · exact hfirst (by simpa using hc)
    · exact hsub w hw

theorem cut_first_notBlank (cs : List Char) : ∀ c ∈ (cut cs).first, isBlank c = false := by
  induction cs with
  | nil => simp
  | cons c cs ih =>
    rw [cut_cons, Cut.cons]
    split
    · simp
    · simpa [*] using ih

theorem Cut.mem_toList_of_mem_rest {t : Cut} {w : List Char} (h : w ∈ t.rest) : w ∈ t.toList := by
  rcases t with ⟨_ | ⟨c, f⟩, r⟩
  · exact h
  · exact List.mem_cons_of_mem _ h

/-- A word is not empty. -/
theorem ne_nil_of_mem_splitWords {cs w : List Char} (h : w ∈ splitWords cs) : w ≠ [] := by
  induction cs generalizing w with
  | nil => cases h
  | cons c cs ih =>
    exact Cut.mem_cons_of_mem (fun _ => by simp) (fun _ hw => ih hw)
      (fun _ hw => ih (Cut.mem_toList_of_mem_rest hw)) w h

/-- A word holds no blank. -/
theorem isBlank_of_mem_words {cs w : List Char} (h : w ∈ splitWords cs) :
    ∀ c ∈ w, isBlank c = false := by
  induction cs generalizing w with
  | nil => cases h
  | cons d cs ih =>
    refine Cut.mem_cons_of_mem (fun hd c hc => ?_)
      (fun _ => ih) (fun _ hw => ih (Cut.mem_toList_of_mem_rest hw)) w h
    rcases List.mem_cons.1 hc with rfl | hc
    · exact hd
    · exact cut_first_notBlank cs c hc

/-- A blank after a text without blanks ends its word. -/
theorem splitWords_append_blank {w : List Char} (hw : ∀ c ∈ w, isBlank c = false) {b : Char}
    (hb : isBlank b = true) (cs : List Char) :
    cut (w ++ b :: cs) = ⟨w, splitWords cs⟩ := by
  induction w with
  | nil => simp [Cut.cons, hb, splitWords]
  | cons c w ih =>
    rw [List.cons_append, cut_cons, ih fun d hd => hw d (List.mem_cons_of_mem c hd), Cut.cons]
    simp [hw c List.mem_cons_self]

end Reckoner.Text
