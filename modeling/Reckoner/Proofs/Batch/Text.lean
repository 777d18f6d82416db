import Reckoner.Batch.Basic
import Reckoner.Proofs.Reference.Marked

/-!
# What a node runs, part by part

A node runs its expression with committed and local values filled in, and then outer
ones (`Batch.filled`). Each part between blanks is filled in by itself
(`Batch.filled_between`, `Batch.words_filled`), and a word without a mark comes from
itself (`Batch.eq_of_mem_words_filled`).
-/

namespace Reckoner.Batch

open Text (IsWord Ended Parted)
open Reference (Marked)

variable (scope : Scope) (output : BatchOutput)

/-- A text with values in place of its references. -/
def filled (s : String) : String := text scope output ⟨none, s⟩

theorem text_eq_filled (node : Node) :
    text scope output node = filled scope output node.expression := rfl

/-- The part of a text between blanks is filled in by itself. -/
theorem filled_between {u v : String} (hu : Parted u.toList) (w : String) (hv : Ended v.toList) :
    filled scope output (u ++ w ++ v) =
      filled scope output u ++ filled scope output w ++ filled scope output v := by
  have hinner := substitute_between hu w hv (scope.inner.overlay output.get?)
  simp only [filled, text]
  cases scope.outer with
  | none => exact hinner
  | some source =>
    simp only
    rw [hinner]
    refine substitute_between ?_ _ ?_ source
    · rw [substitute, String.toList_ofList]
      exact Referenced.fill_parted _ hu
    · rw [substitute, String.toList_ofList]
      exact Referenced.fill_ended _ hv

theorem words_filled (s : String) : Text.words (filled scope output s) =
    (Text.words s).flatMap fun w => Text.words (filled scope output w) := by
  simp only [filled, text]
  cases scope.outer with
  | none => exact words_substitute s _
  | some source =>
    simp only
    rw [words_substitute, words_substitute s, List.flatMap_assoc]
    exact List.flatMap_congr fun w _ => (words_substitute _ source).symm

variable {scope output}

/-- A word without a mark comes from itself. -/
theorem eq_of_mem_words_filled {w v : String} (hw : IsWord w.toList) (hv : ¬Marked v.toList)
    (h : v ∈ Text.words (filled scope output w)) :
    w = v ∧ Text.words (filled scope output w) = [v] := by
  simp only [filled, text] at h ⊢
  cases houter : scope.outer with
  | none =>
    rw [houter] at h
    exact Reference.eq_of_mem_words_substitute hw hv h
  | some source =>
    rw [houter] at h
    simp only at h ⊢
    rw [words_substitute] at h ⊢
    obtain ⟨u, hu, h⟩ := List.mem_flatMap.1 h
    have hword := Text.isWord_of_mem_words hu
    obtain ⟨rfl, hself⟩ := Reference.eq_of_mem_words_substitute hword hv h
    obtain ⟨rfl, hinner⟩ := Reference.eq_of_mem_words_substitute hw hv hu
    exact ⟨rfl, by rw [hinner, List.flatMap_singleton, hself]⟩

end Reckoner.Batch
