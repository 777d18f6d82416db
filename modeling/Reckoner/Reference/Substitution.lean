import Reckoner.Reference.Basic

/-!
# Substitution

Before an expression is run, its references are replaced by numbers. Each
occurrence stands for all the values that a source has for it, one space
between two of them, and is left in place if there is none.
-/

namespace Reckoner

namespace Reference

/-- The numbers of the values that a source has for a name. -/
def resolve (source : ValueSource) (name : List Char) : List Float :=
  ((ofName name).lookup source).map RawValue.toFloat

/-- What takes the place of a reference. -/
def replacement (source : ValueSource) (name : List Char) : List Char :=
  match resolve source name with
  | [] => '$' :: name
  | xs => (Text.unwords (xs.map Number.format)).toList

end Reference

/-- The expression with its references replaced by the values of a source. -/
def substitute (expression : String) (source : ValueSource) : String :=
  String.ofList ((Referenced.ofChars expression.toList).fill (Reference.replacement source))

end Reckoner
