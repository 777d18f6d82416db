import Mathlib.Data.List.Basic
import Reckoner.Values.Table

/-!
# What a table holds after it is set

Setting a name replaces the datum of every entry that has it, and makes one entry if there is
none. So a name that has been set holds its datum as often as it had entries, and at least once
(`ValueTable.named_set_self`). Other names are left alone (`ValueTable.named_set_of_ne`), and so
are the places of the entries (`ValueTable.map_place_set`).

Entries are known by their places and by what their names hold (`ValueTable.entries_ext`). So
setting a name is the only change that does all this (`ValueTable.Updates`,
`ValueTable.updates_iff`), and setting it again leaves nothing of the first datum.
-/

namespace Reckoner

namespace RawValue

theorem toFloat_ofText (s : String) : (ofText s).toFloat = Number.readOrZero s := by
  by_cases hempty : s = ""
  · rw [hempty]
    rfl
  · have hne : s.isEmpty = false := by simpa using hempty
    simp only [toFloat, effective, ofText, hne]
    rfl

end RawValue

namespace Entry

/-- Where an entry stands: its name, and the scopes around it. -/
def place (e : Entry) : String × List String := (e.name, e.scope)

end Entry

namespace ValueTable

/-- A datum that is inserted under a name stands behind those that the name has. -/
theorem named_insert (t : ValueTable) (name other : String) (raw : RawValue) :
    (t.insert other raw).named name = t.named name ++ if other = name then [raw] else [] := by
  by_cases h : other = name
  · simp [named, insert, push, List.filter_append, h]
  · simp [named, insert, push, List.filter_append, h]

/-- A datum that is inserted stands in no scope. -/
theorem nested_insert (t : ValueTable) (name parent other : String) (raw : RawValue) :
    (t.insert other raw).nested parent name = t.nested parent name := by
  simp [nested, insert, push, List.filter_append]

theorem named_eq_nil_iff {t : ValueTable} {name : String} :
    t.named name = [] ↔ name ∉ t.entries.map Entry.name := by
  simp [named, List.filter_eq_nil_iff]

theorem length_named (t : ValueTable) (name : String) :
    (t.named name).length = t.entries.countP fun e => e.name == name := by
  rw [named, List.length_map, List.countP_eq_length_filter]

/-- What a name holds in a scope is among what it holds. -/
theorem nested_sublist_named (t : ValueTable) (parent name : String) :
    (t.nested parent name).Sublist (t.named name) := by
  refine (List.monotone_filter_right t.entries fun e he => ?_).map Entry.raw
  exact (Bool.and_eq_true_iff.1 he).1

/-! ## Entries with a new datum -/

/-- The entry with a new datum, if it has the name. -/
def replace (name : String) (raw : RawValue) (e : Entry) : Entry :=
  if e.name = name then { e with raw } else e

theorem place_replace (name : String) (raw : RawValue) (e : Entry) :
    (replace name raw e).place = e.place := by
  unfold replace
  split
  · rfl
  · rfl

section Found

variable {name : String} {raw : RawValue} {p : Entry → Bool}

/-- Entries that are looked for by where they stand are found whatever their data are. -/
theorem filter_map_replace (hp : ∀ e e' : Entry, e.place = e'.place → p e = p e')
    (entries : List Entry) :
    (entries.map (replace name raw)).filter p = (entries.filter p).map (replace name raw) := by
  rw [List.filter_map]
  congr 1
  exact List.filter_congr fun e _ => hp _ _ (place_replace name raw e)

theorem map_raw_replace (hp : ∀ e e' : Entry, e.place = e'.place → p e = p e')
    (hname : ∀ e, p e = true → e.name = name) (entries : List Entry) :
    ((entries.map (replace name raw)).filter p).map Entry.raw =
      List.replicate ((entries.filter p).map Entry.raw).length raw := by
  rw [filter_map_replace hp, List.map_map, List.length_map, List.eq_replicate_iff, List.length_map]
  refine ⟨rfl, fun x hx => ?_⟩
  obtain ⟨e, he, rfl⟩ := List.mem_map.1 hx
  rw [Function.comp_apply, replace, if_pos (hname e (List.mem_filter.1 he).2)]

theorem map_raw_replace_of_ne (hp : ∀ e e' : Entry, e.place = e'.place → p e = p e')
    (hname : ∀ e, p e = true → e.name ≠ name) (entries : List Entry) :
    ((entries.map (replace name raw)).filter p).map Entry.raw =
      (entries.filter p).map Entry.raw := by
  rw [filter_map_replace hp, List.map_map]
  refine List.map_congr_left fun e he => ?_
  rw [Function.comp_apply, replace, if_neg (hname e (List.mem_filter.1 he).2)]

end Found

/-- Both lookups go by the names of the entries and by the scopes around them. -/
theorem named_byPlace (name : String) (e e' : Entry) (h : e.place = e'.place) :
    (e.name == name) = (e'.name == name) :=
  congrArg (fun place : String × List String => place.1 == name) h

theorem nested_byPlace (parent name : String) (e e' : Entry) (h : e.place = e'.place) :
    (e.name == name && e.scope.contains parent) = (e'.name == name && e'.scope.contains parent) :=
  congrArg (fun place : String × List String => place.1 == name && place.2.contains parent) h

/-! ## A name that is set -/

/-- The name has an entry, and all of them get the datum, or it has none and gets one. -/
theorem set_cases (t : ValueTable) (name : String) (raw : RawValue) :
    t.named name ≠ [] ∧ t.set name raw = ⟨t.entries.map (replace name raw), t.everywhere⟩ ∨
      t.named name = [] ∧ t.set name raw = t.insert name raw := by
  have hnamed : t.named name = [] ↔ t.entries.any (fun e => e.name == name) = false := by
    rw [named, List.map_eq_nil_iff, List.filter_eq_nil_iff, List.any_eq_false]
  rw [set]
  split
  · next hany =>
    refine .inl ⟨fun hnil => ?_, rfl⟩
    rw [hnamed.1 hnil] at hany
    cases hany
  · next hany => exact .inr ⟨hnamed.2 (Bool.eq_false_iff.2 hany), rfl⟩

/-- A name that is set holds the datum once for each of its entries, and at least once. -/
theorem named_set_self (t : ValueTable) (name : String) (raw : RawValue) :
    (t.set name raw).named name = List.replicate (max 1 (t.named name).length) raw := by
  rcases t.set_cases name raw with ⟨hne, heq⟩ | ⟨hnil, heq⟩
  · rw [heq, Nat.max_eq_right (List.length_pos_iff.2 hne)]
    exact map_raw_replace (named_byPlace name) (fun e he => beq_iff_eq.1 he) t.entries
  · rw [heq, named_insert, hnil, if_pos rfl]
    rfl

/-- Other names keep their data. -/
theorem named_set_of_ne (t : ValueTable) {name other : String} (h : other ≠ name) (raw : RawValue) :
    (t.set name raw).named other = t.named other := by
  rcases t.set_cases name raw with ⟨-, heq⟩ | ⟨-, heq⟩
  · rw [heq]
    exact map_raw_replace_of_ne (named_byPlace other) (fun e he => beq_iff_eq.1 he ▸ h) t.entries
  · rw [heq, named_insert, if_neg h.symm, List.append_nil]

/-- In a scope, a name that is set holds the datum as often as it has held any there. -/
theorem nested_set_self (t : ValueTable) (parent name : String) (raw : RawValue) :
    (t.set name raw).nested parent name = List.replicate (t.nested parent name).length raw := by
  rcases t.set_cases name raw with ⟨-, heq⟩ | ⟨hnil, heq⟩
  · rw [heq]
    exact map_raw_replace (nested_byPlace parent name)
      (fun e he => beq_iff_eq.1 (Bool.and_eq_true_iff.1 he).1) t.entries
  · have hnested := t.nested_sublist_named parent name
    rw [hnil] at hnested
    rw [heq, nested_insert, List.sublist_nil.1 hnested]
    rfl

theorem nested_set_of_ne (t : ValueTable) (parent : String) {name other : String} (h : other ≠ name)
    (raw : RawValue) : (t.set name raw).nested parent other = t.nested parent other := by
  rcases t.set_cases name raw with ⟨-, heq⟩ | ⟨-, heq⟩
  · rw [heq]
    exact map_raw_replace_of_ne (nested_byPlace parent other)
      (fun e he => beq_iff_eq.1 (Bool.and_eq_true_iff.1 he).1 ▸ h) t.entries
  · rw [heq, nested_insert]

/-- Entries stay where they are, and a name without one gets one at the end, outside all scopes. -/
theorem map_place_set (t : ValueTable) (name : String) (raw : RawValue) :
    (t.set name raw).entries.map Entry.place = t.entries.map Entry.place ++
      if name ∈ t.entries.map Entry.name then [] else [(name, [])] := by
  rcases t.set_cases name raw with ⟨hne, heq⟩ | ⟨hnil, heq⟩
  · rw [heq, if_pos (not_not.1 (mt named_eq_nil_iff.2 hne)), List.append_nil, List.map_map]
    exact List.map_congr_left fun e _ => place_replace name raw e
  · rw [heq, if_neg (named_eq_nil_iff.1 hnil)]
    exact List.map_append

theorem everywhere_set (t : ValueTable) (name : String) (raw : RawValue) :
    (t.set name raw).everywhere = t.everywhere := by
  rcases t.set_cases name raw with ⟨-, heq⟩ | ⟨-, heq⟩
  · rw [heq]
  · rw [heq]
    rfl

/-! ## The one change that sets a name -/

/-- Entries are known by where they stand, and by what their names hold. -/
theorem entries_ext {entries others : List Entry}
    (hplace : entries.map Entry.place = others.map Entry.place)
    (hnamed : ∀ name, (entries.filter fun e => e.name == name).map Entry.raw =
      (others.filter fun e => e.name == name).map Entry.raw) : entries = others := by
  induction entries generalizing others with
  | nil => exact (List.map_eq_nil_iff.1 hplace.symm).symm
  | cons e entries ih =>
    cases others with
    | nil => cases hplace
    | cons e' others =>
      obtain ⟨hhead, hplace⟩ := List.cons_eq_cons.1 hplace
      obtain ⟨hname, hscope⟩ := Prod.mk.inj hhead
      -- the first entry is the first of its own name, and no other name finds it
      have hdata : ∀ name, (e.name = name → e.raw = e'.raw) ∧
          (entries.filter fun e => e.name == name).map Entry.raw =
            (others.filter fun e => e.name == name).map Entry.raw := by
        intro name
        have hall := hnamed name
        rw [List.filter_cons, List.filter_cons, ← hname] at hall
        split at hall
        · obtain ⟨hraw, hrest⟩ := List.cons_eq_cons.1 hall
          exact ⟨fun _ => hraw, hrest⟩
        · next hne => exact ⟨fun heq => absurd (beq_iff_eq.2 heq) hne, hall⟩
      have hraw := (hdata e.name).1 rfl
      rw [ih hplace fun name => (hdata name).2]
      obtain ⟨name, scope, raw⟩ := e
      obtain ⟨name', scope', raw'⟩ := e'
      obtain rfl : name = name' := hname
      obtain rfl : scope = scope' := hscope
      obtain rfl : raw = raw' := hraw
      rfl

/-- `u` is `t` with a datum set under a name: what is found in it, and what is as it was. -/
structure Updates (name : String) (raw : RawValue) (t u : ValueTable) : Prop where
  /-- The name holds the datum once for each of its entries, and at least once. -/
  named_self : u.named name =
    List.replicate (max 1 (t.entries.countP fun e => e.name == name)) raw
  named_of_ne : ∀ other, other ≠ name → u.named other = t.named other
  /-- In a scope it holds the datum as often as it has held any there. -/
  nested_self : ∀ parent,
    u.nested parent name = List.replicate (t.nested parent name).length raw
  nested_of_ne : ∀ parent other, other ≠ name → u.nested parent other = t.nested parent other
  /-- Asked for anywhere, the name holds the datum if this table is the one that is asked. -/
  anywhere_self : u.toSource.everywhere name =
    if t.everywhere.isSome then t.toSource.everywhere name else u.named name
  anywhere_of_ne : ∀ other, other ≠ name →
    u.toSource.everywhere other = t.toSource.everywhere other
  /-- All entries stay where they are, and at most one comes after them. -/
  places : u.entries.map Entry.place = t.entries.map Entry.place ++
    if name ∈ t.entries.map Entry.name then [] else [(name, [])]
  everywhere : u.everywhere = t.everywhere

theorem updates_set (t : ValueTable) (name : String) (raw : RawValue) :
    Updates name raw t (t.set name raw) where
  named_self := by rw [named_set_self, length_named]
  named_of_ne _ h := named_set_of_ne t h raw
  nested_self parent := nested_set_self t parent name raw
  nested_of_ne parent _ h := nested_set_of_ne t parent h raw
  anywhere_self := by
    rw [toSource, toSource, everywhere_set]
    cases t.everywhere with
    | none => rfl
    | some other => rfl
  anywhere_of_ne other h := by
    rw [toSource, toSource, everywhere_set]
    cases t.everywhere with
    | none => exact named_set_of_ne t h raw
    | some _ => rfl
  places := map_place_set t name raw
  everywhere := everywhere_set t name raw

namespace Updates

variable {name : String} {first raw : RawValue} {t u v : ValueTable}

/-- Setting a name again leaves nothing of the first datum. -/
theorem trans (hu : Updates name first t u) (hv : Updates name raw u v) : Updates name raw t v where
  named_self := by
    rw [hv.named_self, ← length_named, hu.named_self, List.length_replicate,
      Nat.max_eq_right (Nat.le_max_left 1 _)]
  named_of_ne other h := (hv.named_of_ne other h).trans (hu.named_of_ne other h)
  nested_self parent := by rw [hv.nested_self, hu.nested_self, List.length_replicate]
  nested_of_ne parent other h :=
    (hv.nested_of_ne parent other h).trans (hu.nested_of_ne parent other h)
  anywhere_self := by
    rw [hv.anywhere_self, hu.everywhere, hu.anywhere_self]
    split
    · rfl
    · rfl
  anywhere_of_ne other h := (hv.anywhere_of_ne other h).trans (hu.anywhere_of_ne other h)
  places := by
    have hpos : 0 < (u.named name).length := by
      rw [hu.named_self, List.length_replicate]
      exact Nat.le_max_left 1 _
    have hmem : name ∈ u.entries.map Entry.name :=
      not_not.1 (mt named_eq_nil_iff.2 (List.length_pos_iff.1 hpos))
    rw [hv.places, if_pos hmem, List.append_nil, hu.places]
  everywhere := hv.everywhere.trans hu.everywhere

/-- What is found of two tables after a name has been set makes them the same. -/
theorem unique (hu : Updates name raw t u) (hv : Updates name raw t v) : u = v := by
  have hentries : u.entries = v.entries := by
    refine entries_ext (hu.places.trans hv.places.symm) fun other => ?_
    show u.named other = v.named other
    by_cases h : other = name
    · rw [h, hu.named_self, hv.named_self]
    · rw [hu.named_of_ne other h, hv.named_of_ne other h]
  have heverywhere : u.everywhere = v.everywhere := hu.everywhere.trans hv.everywhere.symm
  obtain ⟨entries, everywhere⟩ := u
  obtain ⟨entries', everywhere'⟩ := v
  obtain rfl : entries = entries' := hentries
  obtain rfl : everywhere = everywhere' := heverywhere
  rfl

end Updates

/-- A table is one in which a name has been set exactly if it is found so, and a name that is set
twice is set as the second time says. -/
theorem updates_iff (t u : ValueTable) (name : String) (first raw : RawValue) :
    (Updates name raw t u ↔ u = t.set name raw) ∧
      (t.set name first).set name raw = t.set name raw := by
  have hset := updates_set t name raw
  have htwice := (updates_set t name first).trans (updates_set (t.set name first) name raw)
  exact ⟨⟨fun h => h.unique hset, fun h => h ▸ hset⟩, htwice.unique hset⟩

example : (set ⟨[⟨"qty", ["line"], .ofText "2"⟩, ⟨"price", [], .ofText "5"⟩], none⟩ "qty"
      (.ofFloat 3)).entries =
    [⟨"qty", ["line"], .ofText "3"⟩, ⟨"price", [], .ofText "5"⟩] := by
  decide +kernel

end ValueTable

end Reckoner
