import Reckoner.Values.Source

/-!
# Tables of values

A source kept in memory: a list of named data, each with the names of the
scopes around it, and possibly another table for what is asked for anywhere.

* `set`: the one change that replaces, in every entry of a name.
-/

namespace Reckoner

/-- A named datum and the names of the scopes around it, outermost first. -/
structure Entry where
  name : String
  scope : List String
  raw : RawValue
  deriving DecidableEq

/-- Named data, and the table that is asked for a name anywhere. -/
structure ValueTable where
  entries : List Entry
  everywhere : Option ValueTable

namespace ValueTable

/-- The table without entries. -/
def empty : ValueTable := ⟨[], none⟩

/-- The table with an entry at its end. -/
def push (t : ValueTable) (e : Entry) : ValueTable :=
  ⟨t.entries ++ [e], t.everywhere⟩

/-- The table with a datum outside all scopes at its end. -/
def insert (t : ValueTable) (name : String) (raw : RawValue) : ValueTable :=
  t.push ⟨name, [], raw⟩

/-- The table with a new datum in every entry of a name, or in an entry of its
own at the end if the name has none. -/
def set (t : ValueTable) (name : String) (raw : RawValue) : ValueTable :=
  if t.entries.any (fun e => e.name == name) then
    ⟨t.entries.map fun e => if e.name = name then { e with raw } else e, t.everywhere⟩
  else t.insert name raw

/-- The table with another one to be asked for names anywhere. -/
def withEverywhere (t : ValueTable) (other : ValueTable) : ValueTable :=
  ⟨t.entries, some other⟩

/-- The data of a name, in the order of the entries. -/
def named (t : ValueTable) (name : String) : List RawValue :=
  (t.entries.filter fun e => e.name == name).map Entry.raw

/-- The data of a name with a given scope among those around it. -/
def nested (t : ValueTable) (parent name : String) : List RawValue :=
  (t.entries.filter fun e => e.name == name && e.scope.contains parent).map Entry.raw

/-- A table as a source of values. -/
def toSource (t : ValueTable) : ValueSource where
  named := t.named
  nested := t.nested
  everywhere := (t.everywhere.getD t).named

end ValueTable

end Reckoner
