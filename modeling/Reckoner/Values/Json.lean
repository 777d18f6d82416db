import Reckoner.Json.Record
import Reckoner.Values.Table

/-!
# Tables of values in JSON

An entry of a table is one object with its name, its scopes unless there are
none, and the texts of its datum that are there. A table is an object with its
entries and, if there is one, the table for names anywhere.

* `ValueTable.toJson`, `ValueTable.shape`: writing and reading a table.
-/

namespace Reckoner

open Json (Record)
open Json.Shape (text list required optional orDefault)

namespace RawValue

/-- The members that a datum adds to an object. -/
def members (r : RawValue) : List (String × Json) :=
  Json.member? "value" .string r.value ++ Json.member? "stored" .string r.stored

/-- A datum as a value of a document. -/
def toJson (r : RawValue) : Json :=
  .object r.members

/-- The datum in the fields of a record. -/
def ofRecord? (room : Nat) (r : Record) : Option RawValue := do
  let value ← optional (text room) (r.get? "value")
  let stored ← optional (text room) (r.get? "stored")
  return ⟨value, stored⟩

/-- The datum that a value of a document holds. -/
def shape : Json.Shape RawValue :=
  Json.Shape.record ["value", "stored"] ofRecord?

end RawValue

namespace Entry

/-- An entry as a value of a document. -/
def toJson (e : Entry) : Json :=
  let scope := if e.scope.isEmpty then none else some e.scope
  .object (("name", .string e.name) ::
    (Json.member? "scope" (fun l => .array (l.map .string)) scope ++ e.raw.members))

/-- The members of an entry that are read as they stand, whatever they are: all
that may belong to its datum. -/
def openMembers (members : List (String × Json)) : List (String × Json) :=
  members.filter fun m => m.1 != "name" && m.1 != "scope"

/-- The entry that a value of a document holds. It has to be an object, and all
of its members have to denote something. -/
def shape : Json.Shape Entry
  | 0, _ => none
  | room + 1, .object members => do
    let r ← Record.ofJson? ["name", "scope", "value", "stored"] (.object members)
    let name ← required (text room) (r.get? "name")
    let scope ← orDefault (list text room) [] (r.get? "scope")
    let raw ← RawValue.ofRecord? room r
    if Json.fitsMembers room (openMembers members) then some ⟨name, scope, raw⟩ else none
  | _, _ => none

end Entry

namespace ValueTable

/-- A table as a value of a document. -/
def toJson : ValueTable → Json
  | ⟨entries, none⟩ => .object [("entries", .array (entries.map Entry.toJson))]
  | ⟨entries, some other⟩ =>
    .object [("entries", .array (entries.map Entry.toJson)), ("global", other.toJson)]

/-- The table that a value of a document holds. -/
def shape : Json.Shape ValueTable
  | 0, _ => none
  | room + 1, v => do
    let r ← Record.ofJson? ["entries", "global"] v
    let entries ← orDefault (list Entry.shape room) [] (r.get? "entries")
    let everywhere ← optional (shape room) (r.get? "global")
    return ⟨entries, everywhere⟩

end ValueTable

end Reckoner
