import Reckoner.Text.Blank

/-!
# The words of a line

* `Text.words_unwords`: words that are written on one line are its words;
* `Text.splitWords_append`: the words on both sides of a blank;
* `Text.word_induction`: a text is built from blanks and words.
-/

namespace Reckoner.Text

/-- Characters that a word may consist of. -/
def IsWord (w : List Char) : Prop := w ≠ [] ∧ ∀ c ∈ w, isBlank c = false

theorem isWord_of_mem_words {s w : String} (h : w ∈ words s) : IsWord w.toList := by
  obtain ⟨cs, hcs, rfl⟩ := List.mem_map.1 h
  rw [String.toList_ofList]
  exact ⟨ne_nil_of_mem_splitWords hcs, isBlank_of_mem_words hcs⟩

/-- Nothing or a text that begins with a blank, so that it ends a word before it. -/
def Ended (cs : List Char) : Prop := ∀ c ∈ cs.head?, isBlank c = true

/-- Nothing or a text that ends with a blank, so that it begins a word after it. -/
def Parted (cs : List Char) : Prop := ∀ c ∈ cs.getLast?, isBlank c = true

instance : DecidablePred Ended := fun cs =>
  Option.decidableForallMem cs.head?

instance : DecidablePred Parted := fun cs =>
  Option.decidableForallMem cs.getLast?

theorem Parted.cases {cs : List Char} (h : Parted cs) :
    cs = [] ∨ ∃ left b, cs = left ++ [b] ∧ isBlank b = true := by
  rcases List.eq_nil_or_concat cs with rfl | ⟨left, b, rfl⟩
  · exact .inl rfl
  · refine .inr ⟨left, b, List.concat_eq_append, h b ?_⟩
    simp

theorem parted_append_singleton (left : List Char) {b : Char} (hb : isBlank b = true) :
    Parted (left ++ [b]) := by
  intro c hc
  rw [List.getLast?_concat, Option.mem_some_iff] at hc
  exact hc ▸ hb

theorem cut_of_ended {cs : List Char} (h : Ended cs) : cut cs = ⟨[], splitWords cs⟩ := by
  cases cs with
  | nil => rfl
  | cons c cs => rw [splitWords_cons_blank (h c rfl), cut_cons, Cut.cons, if_pos (h c rfl)]; rfl

theorem Cut.toList_append (t : Cut) (ws : List (List Char)) :
    Cut.toList ⟨t.first, t.rest ++ ws⟩ = t.toList ++ ws := by
  rcases t with ⟨_ | ⟨d, first⟩, rest⟩
  · rfl
  · rfl

theorem Cut.eq_or_mem_of_mem_toList {t : Cut} {w : List Char} (h : w ∈ t.toList) :
    w = t.first ∨ w ∈ t.rest := by
  rcases t with ⟨_ | ⟨c, first⟩, rest⟩
  · exact .inr h
  · exact List.mem_cons.1 h

theorem cut_append (u : List Char) {cs : List Char} (h : Ended cs) :
    cut (u ++ cs) = ⟨(cut u).first, (cut u).rest ++ splitWords cs⟩ := by
  induction u with
  | nil => exact cut_of_ended h
  | cons c u ih =>
    rw [List.cons_append, cut_cons, cut_cons, ih, Cut.cons, Cut.cons]
    split
    · rw [Cut.toList_append]
    · rfl

theorem splitWords_append (u : List Char) {cs : List Char} (h : Ended cs) :
    splitWords (u ++ cs) = splitWords u ++ splitWords cs := by
  rw [splitWords, cut_append u h, Cut.toList_append]
  rfl

theorem Cut.toList_of_ne_nil {t : Cut} (h : t.first ≠ []) : t.toList = t.first :: t.rest := by
  rcases t with ⟨_ | ⟨c, first⟩, rest⟩
  · exact absurd rfl h
  · rfl

/-- What follows a text without blanks goes on with its word. -/
theorem cut_append_of_notBlank {w : List Char} (h : ∀ c ∈ w, isBlank c = false) (cs : List Char) :
    cut (w ++ cs) = ⟨w ++ (cut cs).first, (cut cs).rest⟩ := by
  induction w with
  | nil => rfl
  | cons c w ih =>
    obtain ⟨hc, hw⟩ := List.forall_mem_cons.1 h
    rw [List.cons_append, cut_cons, ih hw, Cut.cons, hc]
    rfl

theorem cut_of_notBlank {w : List Char} (h : ∀ c ∈ w, isBlank c = false) : cut w = ⟨w, []⟩ := by
  have happend := cut_append_of_notBlank h []
  rwa [List.append_nil, cut_nil, List.append_nil] at happend

theorem splitWords_of_isWord {w : List Char} (hw : IsWord w) : splitWords w = [w] := by
  rw [splitWords, cut_of_notBlank hw.2, Cut.toList_of_ne_nil hw.1]

theorem words_of_isWord {w : String} (hw : IsWord w.toList) : words w = [w] := by
  rw [words, splitWords_of_isWord hw, List.map_singleton, String.ofList_toList]

/-- A text is nothing, a blank and a text, or a word and a text that ends it. -/
theorem word_induction {motive : List Char → Prop} (nil : motive [])
    (blank : ∀ b cs, isBlank b = true → motive cs → motive (b :: cs))
    (word : ∀ w cs, IsWord w → Ended cs → motive cs → motive (w ++ cs)) :
    ∀ cs, motive cs
  | [] => nil
  | c :: cs => by
    by_cases hc : isBlank c = true
    · exact blank c cs hc (word_induction nil blank word cs)
    · have hshort : (cs.dropWhile (!isBlank ·)).length < cs.length + 1 :=
        Nat.lt_succ_of_le (List.dropWhile_suffix _).length_le
      have hword : IsWord (c :: cs.takeWhile (!isBlank ·)) := by
        refine ⟨List.cons_ne_nil _ _, fun d hd => ?_⟩
        rcases List.mem_cons.1 hd with rfl | hd
        · simpa using hc
        · simpa using List.all_eq_true.1 List.all_takeWhile d hd
      have hended : Ended (cs.dropWhile (!isBlank ·)) := by
        intro d hd
        have hnot := List.head?_dropWhile_not (!isBlank ·) cs
        rw [hd] at hnot
        simpa using hnot
      have hrest := word_induction nil blank word (cs.dropWhile (!isBlank ·))
      have hwhole := word _ _ hword hended hrest
      rwa [List.cons_append, List.takeWhile_append_dropWhile] at hwhole
  termination_by cs => cs.length

theorem splitWords_intercalate {ws : List (List Char)} (h : ∀ w ∈ ws, IsWord w) :
    splitWords ([' '].intercalate ws) = ws := by
  induction ws with
  | nil => rfl
  | cons w ws ih =>
    obtain ⟨hw, hws⟩ := List.forall_mem_cons.1 h
    cases ws with
    | nil => rw [List.intercalate_singleton, splitWords_of_isWord hw]
    | cons v ws =>
      have hended : Ended (' ' :: [' '].intercalate (v :: ws)) := by
        intro c hc
        cases hc
        rfl
      rw [List.intercalate_cons_cons, List.append_assoc, List.singleton_append,
        splitWords_append w hended, splitWords_of_isWord hw, splitWords_cons_blank rfl, ih hws]
      rfl

theorem words_unwords {ws : List String} (h : ∀ w ∈ ws, IsWord w.toList) :
    words (unwords ws) = ws := by
  have hchars : ∀ w ∈ ws.map String.toList, IsWord w := by
    intro w hw
    obtain ⟨s, hs, rfl⟩ := List.mem_map.1 hw
    exact h s hs
  have hline : (unwords ws).toList = [' '].intercalate (ws.map String.toList) := by
    rw [unwords, String.toList_intercalate]
    rfl
  rw [words, hline, splitWords_intercalate hchars, List.map_map]
  exact List.map_id'' (fun _ => String.ofList_toList) ws

end Reckoner.Text
