import Reckoner.Values.Source

/-!
# References to values

An expression refers to values by `$name`, by `$parent.name` for those nested
under another name, and by `$*.name` for those anywhere. `Referenced.ofChars`
cuts a text into its references and the gaps between them: a reference is a
dollar sign and all name characters that follow it, at least one.

* `toChars_ofChars`: nothing is lost by the cut;
* `references`, `referenceNames`: the references of an expression in order, and what
  they name, once each.
-/

namespace Reckoner

/-- What a reference asks a source of values for. -/
inductive Reference where
  | named (name : String)
  | nested (parent name : String)
  | everywhere (name : String)
  deriving DecidableEq

namespace Reference

/-- The characters of a reference after its dollar sign. -/
def isNameChar (c : Char) : Bool :=
  c.isAlphanum || c == '_' || c == '-' || c == '.' || c == '*'

/-- The reference with a name. Only the first two parts between dots count. -/
def ofName (name : List Char) : Reference :=
  let first := name.takeWhile (· != '.')
  match name.dropWhile (· != '.') with
  | [] => .named (String.ofList first)
  | _ :: rest =>
    let second := String.ofList (rest.takeWhile (· != '.'))
    if first = ['*'] then .everywhere second else .nested (String.ofList first) second

/-- The values that a source has for a reference. -/
def lookup (source : ValueSource) : Reference → List RawValue
  | .named name => source.named name
  | .nested parent name => source.nested parent name
  | .everywhere name => source.everywhere name

end Reference

/-- A text cut at its references: the gap before the first one, and every
reference without its dollar sign with the gap after it. -/
structure Referenced where
  gap : List Char
  rest : List (List Char × List Char)
  deriving DecidableEq

namespace Referenced

/-- The cut of the text with `c` written before it. A dollar sign takes the name
characters at the start of the gap. -/
def cons (c : Char) (t : Referenced) : Referenced :=
  if c = '$' then
    match t.gap.takeWhile Reference.isNameChar with
    | [] => ⟨'$' :: t.gap, t.rest⟩
    | name => ⟨[], (name, t.gap.dropWhile Reference.isNameChar) :: t.rest⟩
  else ⟨c :: t.gap, t.rest⟩

/-- The cut of a text. -/
def ofChars (cs : List Char) : Referenced :=
  cs.foldr cons ⟨[], []⟩

/-- The names of all references, in order. -/
def names (t : Referenced) : List (List Char) :=
  t.rest.map Prod.fst

/-- The text with `f name` in place of each reference. -/
def fill (f : List Char → List Char) (t : Referenced) : List Char :=
  t.gap ++ t.rest.flatMap fun (name, gap) => f name ++ gap

/-- The text that was cut. -/
def toChars (t : Referenced) : List Char :=
  t.fill ('$' :: ·)

theorem toChars_cons (c : Char) (t : Referenced) : (t.cons c).toChars = c :: t.toChars := by
  unfold cons
  split
  · next hc =>
    split
    · simp [toChars, fill, hc]
    · simp [toChars, fill, hc]
  · simp [toChars, fill]

/-- Nothing is lost by the cut. -/
theorem toChars_ofChars (cs : List Char) : (ofChars cs).toChars = cs := by
  induction cs with
  | nil => rfl
  | cons c cs ih =>
    have h : ofChars (c :: cs) = (ofChars cs).cons c := by
      simp only [ofChars, List.foldr_cons]
    rw [h, toChars_cons, ih]

end Referenced

/-- The references of an expression, each with its dollar sign. -/
def references (expression : String) : List String :=
  (Referenced.ofChars expression.toList).names.map fun name => String.ofList ('$' :: name)

/-- What the references of an expression name, in the order of first mention. -/
def referenceNames (expression : String) : List String :=
  ((Referenced.ofChars expression.toList).names.map String.ofList).eraseDups

end Reckoner
