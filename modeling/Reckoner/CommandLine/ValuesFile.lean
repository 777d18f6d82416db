import Reckoner.Values.Json

/-!
# Files of values

A file of values holds a table, which has a member for its entries, or just an
object of names with a number or a text for each, or an array of those. The
last of several members of one name counts.

* `ValuesFile.table?`: the table that a document holds.
-/

namespace Reckoner.CommandLine

namespace ValuesFile

/-- The members of an object without those that a later one replaces. -/
def dropReplaced (members : List (String × Json)) : List (String × Json) :=
  members.foldr (fun m rest => if rest.any (fun n => n.1 == m.1) then rest else m :: rest) []

mutual

/-- A value with one member for each name of an object, the last one. -/
def lastWins : Json → Json
  | .array items => .array (lastWinsItems items)
  | .object members => .object (dropReplaced (lastWinsMembers members))
  | v => v

/-- `lastWins` for every item of an array. -/
def lastWinsItems : List Json → List Json
  | [] => []
  | item :: items => lastWins item :: lastWinsItems items

/-- `lastWins` for every member of an object. -/
def lastWinsMembers : List (String × Json) → List (String × Json)
  | [] => []
  | (name, v) :: members => (name, lastWins v) :: lastWinsMembers members

end

/-- The text of a value: its own, none for `null`, or what the document has. -/
def text : Json → String
  | .string s => s
  | .null => ""
  | v => v.write

/-- The values that a member of a flat object gives its name. -/
def memberTexts : Json → List String
  | .array items => items.map text
  | v => [text v]

/-- The table of a flat object. -/
def flatTable (members : List (String × Json)) : ValueTable :=
  members.foldl
    (fun t m => (memberTexts m.2).foldl (fun t s => t.insert m.1 (RawValue.ofText s)) t)
    ValueTable.empty

/-- Why a document holds no table. -/
inductive Problem where
  | notJson
  | badEntries
  | notAnObject
  deriving DecidableEq

/-- The table that a document holds. -/
def table? (content : String) : Except Problem ValueTable :=
  match Json.parse? content with
  | none => .error .notJson
  | some v =>
    if v.fits Json.maxDepth then
      match lastWins v with
      | .object members =>
        if members.any fun m => m.1 == "entries" then
          match ValueTable.shape Json.maxDepth (.object members) with
          | some t => .ok t
          | none => .error .badEntries
        else .ok (flatTable members)
      | _ => .error .notAnObject
    else .error .notJson

end ValuesFile

end Reckoner.CommandLine
