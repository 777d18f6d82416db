import Reckoner.Json.Document

/-!
# Reading values of known shape

A `Shape α` reads a JSON value as an `α`, given how many arrays and objects may
still open inside one another. A record is written as an object, in which other
members are ignored and none of its own may be repeated, or as an array of its
fields in order.

* `Shape.optional`: a field that may be absent or `null`;
* `Shape.orDefault`: a field that may be absent;
* `Shape.read?`: the reading of a document.
-/

namespace Reckoner.Json

/-- A reading of JSON values, with the room that is left for nesting. -/
abbrev Shape (α : Type) := Nat → Json → Option α

/-- The fields of a record that a value gives. -/
structure Record where
  fields : List (String × Json)

namespace Record

/-- The fields with these names, in a value that opens one level of nesting. -/
def ofJson? (names : List String) : Json → Option Record
  | .object members =>
    let known := members.filter fun m => names.contains m.1
    if (known.map Prod.fst).Nodup then some ⟨known⟩ else none
  | .array items => if items.length ≤ names.length then some ⟨names.zip items⟩ else none
  | _ => none

/-- The value of a field. -/
def get? (r : Record) (name : String) : Option Json :=
  r.fields.lookup name

end Record

namespace Shape

/-- A text. -/
def text : Shape String
  | _, .string s => some s
  | _, _ => none

/-- A truth value. -/
def bool : Shape Bool
  | _, .bool b => some b
  | _, _ => none

/-- A natural number of 64 bits. -/
def count : Shape UInt64
  | _, .number (.whole n) => if 0 ≤ n then some (UInt64.ofNat n.toNat) else none
  | _, _ => none

/-- An array of values of one shape. -/
def list {α : Type} (shape : Shape α) : Shape (List α)
  | 0, _ => none
  | room + 1, .array items => items.mapM (shape room)
  | _, _ => none

/-- A record with these field names. -/
def record {α : Type} (names : List String) (fields : Nat → Record → Option α) : Shape α
  | 0, _ => none
  | room + 1, v => (Record.ofJson? names v).bind (fields room)

/-- A field that has to be there. -/
def required {α : Type} (read : Json → Option α) (v : Option Json) : Option α :=
  v.bind read

/-- A field that may be absent, or `null`, which is the same. -/
def optional {α : Type} (read : Json → Option α) : Option Json → Option (Option α)
  | none => some none
  | some .null => some none
  | some v => (read v).map some

/-- A field that may be absent. -/
def orDefault {α : Type} (read : Json → Option α) (default : α) : Option Json → Option α
  | none => some default
  | some v => read v

/-- The reading of a document. -/
def read? {α : Type} (shape : Shape α) (s : String) : Option α :=
  (parse? s).bind (shape maxDepth)

end Shape

/-- A member that is written only if it has a value. -/
def member? {α : Type} (name : String) (write : α → Json) : Option α → List (String × Json)
  | none => []
  | some x => [(name, write x)]

end Reckoner.Json
