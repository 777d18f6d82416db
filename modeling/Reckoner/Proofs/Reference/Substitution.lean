import Mathlib.Data.List.Basic
import Reckoner.Reference.Substitution

/-!
# What substitution asks for

Substitution depends only on what a source answers for the references of the
expression (`substitute_congr`), and of the values laid over a source only on
those whose names are referred to (`substitute_overlay_congr`): a reference to
`$name` asks for exactly that name, and one with a dot asks for no name at all.
-/

namespace Reckoner

namespace Reference

theorem mem_referenceNames {e : String} {name : List Char} :
    String.ofList name ∈ referenceNames e ↔ name ∈ (Referenced.ofChars e.toList).names := by
  rw [referenceNames, List.mem_eraseDups, List.mem_map]
  constructor
  · rintro ⟨other, hmem, heq⟩
    rwa [← String.ofList_injective heq]
  · exact fun h => ⟨name, h, rfl⟩

/-- A reference that asks for the values of a name is that name. -/
theorem eq_of_ofName_named {name : List Char} {s : String} (h : ofName name = .named s) :
    s = String.ofList name := by
  unfold ofName at h
  split at h
  · next hrest =>
    have hname : name.takeWhile (· != '.') = name := by
      have happend := List.takeWhile_append_dropWhile (p := (· != '.')) (l := name)
      rwa [hrest, List.append_nil] at happend
    rw [named.injEq, hname] at h
    exact h.symm
  · simp only at h
    split at h <;> cases h

theorem resolve_overlay_congr {values values' : String → Option Float} (source : ValueSource)
    {name : List Char} (h : values (String.ofList name) = values' (String.ofList name)) :
    resolve (source.overlay values) name = resolve (source.overlay values') name := by
  unfold resolve
  cases hname : ofName name with
  | named s =>
    rw [eq_of_ofName_named hname]
    simp only [lookup, ValueSource.overlay, h]
  | nested parent s => rfl
  | everywhere s => rfl

end Reference

theorem Referenced.fill_congr {t : Referenced} {f f' : List Char → List Char}
    (h : ∀ name ∈ t.names, f name = f' name) : t.fill f = t.fill f' := by
  unfold Referenced.fill
  refine congrArg (t.gap ++ ·) (List.flatMap_congr fun ⟨name, gap⟩ hp => ?_)
  exact congrArg (· ++ gap) (h name (List.mem_map_of_mem hp))

/-- Substitution asks for what the expression refers to. -/
theorem substitute_congr {e : String} {source source' : ValueSource}
    (h : ∀ name, String.ofList name ∈ referenceNames e →
      Reference.resolve source name = Reference.resolve source' name) :
    substitute e source = substitute e source' := by
  unfold substitute
  refine congrArg String.ofList (Referenced.fill_congr fun name hname => ?_)
  simp only [Reference.replacement, h name (Reference.mem_referenceNames.2 hname)]

theorem substitute_overlay_congr {e : String} {values values' : String → Option Float}
    (source : ValueSource) (h : ∀ name ∈ referenceNames e, values name = values' name) :
    substitute e (source.overlay values) = substitute e (source.overlay values') :=
  substitute_congr fun _ hname => Reference.resolve_overlay_congr source (h _ hname)

end Reckoner
