import Reckoner.Proofs.Reference.Expansion
import Reckoner.Proofs.Reference.Substitution

/-!
# References to a name

A reference without a dot asks for the values of its name. As a word of its own it becomes their
numbers (`Reference.substitute_named`).
-/

namespace Reckoner.Reference

theorem ofName_eq_named {name : List Char} (h : '.' ∉ name) :
    ofName name = .named (String.ofList name) := by
  have hne : ∀ c ∈ name, (c != '.') = true := fun c hc => bne_iff_ne.2 fun heq => h (heq ▸ hc)
  rw [ofName, List.dropWhile_eq_nil_iff.2 hne, List.takeWhile_eq_self_iff.2 hne]

theorem isReference_dollar {name : String} : IsReference ("$" ++ name).toList ↔
    ("$" ++ name).toList = '$' :: name.toList ∧ name.toList ≠ [] ∧
      ∀ c ∈ name.toList, isNameChar c = true := by
  have htoken : ("$" ++ name).toList = '$' :: name.toList := by
    rw [String.toList_append]
    rfl
  rw [htoken, IsReference, List.tail_cons, List.all_eq_true]
  simp

theorem resolve_named (source : ValueSource) {name : String} (hdot : '.' ∉ name.toList) :
    resolve source name.toList = (source.named name).map RawValue.toFloat := by
  rw [resolve, ofName_eq_named hdot, String.ofList_toList]
  rfl

/-- A reference becomes the numbers of all values of the name. -/
theorem substitute_named {source : ValueSource} {name : String}
    (hname : IsReference ("$" ++ name).toList) (hdot : '.' ∉ name.toList)
    (hvalues : source.named name ≠ []) : substitute ("$" ++ name) source =
      Text.unwords ((source.named name).map fun raw => Number.format raw.toFloat) := by
  obtain ⟨htoken, hne, hchars⟩ := isReference_dollar.1 hname
  rw [substitute_reference htoken hne hchars, replacement, resolve_named source hdot]
  cases hnamed : source.named name with
  | nil => exact absurd hnamed hvalues
  | cons raw rest =>
    rw [List.map_cons]
    simp only
    rw [String.ofList_toList, ← List.map_cons, List.map_map]
    rfl

end Reckoner.Reference
