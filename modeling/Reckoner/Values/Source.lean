import Reckoner.Values.Raw

/-!
# Sources of values

What an expression can ask for: the values of a name, those of a name nested
somewhere under another, and those of a name anywhere. A source is how it
answers the three questions. It answers by functions: one that answers the same
question differently from one time to the next is not a source.
-/

namespace Reckoner

/-- The answers to the three kinds of question about values. -/
structure ValueSource where
  /-- The values of a name. -/
  named : String → List RawValue
  /-- The values of a name, the second, nested under the first. -/
  nested : String → String → List RawValue
  /-- The values of a name, wherever they are. -/
  everywhere : String → List RawValue

namespace ValueSource

/-- The source that knows nothing. -/
def empty : ValueSource :=
  ⟨fun _ => [], fun _ _ => [], fun _ => []⟩

/-- The source with one value for each name that `values` knows, in front of
all others of that name. -/
def overlay (values : String → Option Float) (source : ValueSource) : ValueSource :=
  { source with
    named := fun name =>
      match values name with
      | some x => [RawValue.ofFloat x]
      | none => source.named name }

end ValueSource

end Reckoner
