import Reckoner.Batch.Basic
import Reckoner.Proofs.Reference.Layered
import Reckoner.Values.Table

/-!
# Outer values in the text of a node

Outer values are filled in after the local ones, in the text that these leave. This is filling in
each reference once, from the local values if there are any and else from the outer ones, for all
outer sources, exactly if no local value becomes part of a reference (`Batch.text_iff_detached`);
then the references that an outer source is asked for are those of the expression that have no
local values. If a local value does become part of one, some outer source gives another text. Two
dollar signs before a name are enough for another outcome
(`Batch.text_glued`).
-/

namespace Reckoner.Batch

/-- The values that a node finds before the outer ones: those committed, then those at hand. -/
def localSource (inner : ValueSource) (output : BatchOutput) : ValueSource :=
  inner.overlay output.get?

/-- A node's expression with each reference filled in once: from the local values, else from
the outer ones. -/
def textByPriority (scope : Scope) (output : BatchOutput) (node : Node) : String :=
  substitute node.expression
    ((localSource scope.inner output).orElse (scope.outer.getD ValueSource.empty))

theorem text_eq_substitute (scope : Scope) (output : BatchOutput) (node : Node) :
    text scope output node =
      substitute (substitute node.expression (localSource scope.inner output))
        (scope.outer.getD ValueSource.empty) := by
  rw [text, localSource]
  cases scope.outer with
  | none => exact (Reference.substitute_empty _).symm
  | some source => rfl

/-- No local value becomes part of a reference if outer values only fill gaps, whatever the outer
source is. -/
theorem detached_of_text {inner : ValueSource} {output : BatchOutput} {node : Node}
    (h : ∀ source : ValueSource, text ⟨inner, some source⟩ output node =
      textByPriority ⟨inner, some source⟩ output node) :
    Reference.Detached (localSource inner output) node.expression := by
  refine Reference.detached_iff.2 fun other => ?_
  have hother := h other
  rwa [text_eq_substitute] at hother

/-- Outer values only fill gaps, and no local value is asked for in an outer source, exactly
where no local value becomes part of a reference. Where one does, there is an outer source with
another text. -/
theorem text_iff_detached (inner : ValueSource) (output : BatchOutput) (node : Node) :
    (Reference.Detached (localSource inner output) node.expression ↔
      (∀ outer, text ⟨inner, outer⟩ output node = textByPriority ⟨inner, outer⟩ output node) ∧
        (Referenced.ofChars
            (substitute node.expression (localSource inner output)).toList).names =
          (Referenced.ofChars node.expression.toList).names.filter
            fun name => !Reference.known (localSource inner output) name) ∧
    (¬Reference.Detached (localSource inner output) node.expression →
      ∃ source : ValueSource, text ⟨inner, some source⟩ output node ≠
        textByPriority ⟨inner, some source⟩ output node) := by
  refine ⟨⟨fun h => ⟨fun outer => ?_, Reference.names_substitute h⟩, fun ⟨htext, _⟩ => ?_⟩,
    fun h => ?_⟩
  · rw [text_eq_substitute]
    exact Reference.substitute_substitute h _
  · exact detached_of_text fun source => htext (some source)
  · by_contra hall
    push Not at hall
    exact h (detached_of_text hall)

/-- A product of two references, and two references one after another. -/
example :
    let inner := (ValueTable.empty.insert "a" (.ofText "5")).toSource
    Reference.Detached inner "$a $b *" ∧ ¬Reference.Detached inner "$b$a" := by
  decide +kernel

/-- A local value that becomes the name of a reference: `$$a` is `$5` with it, and then the
outer value of `5`. -/
theorem text_glued :
    let inner := (ValueTable.empty.insert "a" (.ofText "5")).toSource
    let outer := (ValueTable.empty.insert "5" (.ofText "99")).toSource
    let node : Node := ⟨some "x", "$$a"⟩
    (Referenced.ofChars node.expression.toList).names = [['a']] ∧
      textByPriority ⟨inner, some outer⟩ .empty node = "$5" ∧
      text ⟨inner, some outer⟩ .empty node = "99" := by
  decide +kernel

end Reckoner.Batch
