import Reckoner.Json.Numeral

/-!
# JSON values

The values of JSON documents. Members of an object keep the order and the
repetitions that the document has.

Some texts obey the grammar and denote nothing: a number beyond the doubles, a
text with half a surrogate pair, an object with such a name. They are `invalid`,
and they matter only where a value is used.
-/

namespace Reckoner

/-- A JSON value. -/
inductive Json where
  | null
  | bool (b : Bool)
  | number (n : Json.Numeral)
  | string (s : String)
  | array (items : List Json)
  | object (members : List (String × Json))
  /-- A value that obeys the grammar and denotes nothing. -/
  | invalid

namespace Json

mutual

/-- Whether a value and all that it holds denote something, with at most `room`
arrays and objects around one another. -/
def fits (room : Nat) : Json → Bool
  | .array items => room != 0 && fitsAll (room - 1) items
  | .object members => room != 0 && fitsMembers (room - 1) members
  | .invalid => false
  | _ => true

/-- `fits` for every item of an array. -/
def fitsAll (room : Nat) : List Json → Bool
  | [] => true
  | item :: items => fits room item && fitsAll room items

/-- `fits` for every member of an object. -/
def fitsMembers (room : Nat) : List (String × Json) → Bool
  | [] => true
  | (_, value) :: members => fits room value && fitsMembers room members

end

/-- How deeply arrays and objects may nest in a value that is used. -/
def maxDepth : Nat := 127

end Json

end Reckoner
