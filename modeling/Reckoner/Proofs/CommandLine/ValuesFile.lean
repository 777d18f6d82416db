import Reckoner.CommandLine.ValuesFile
import Reckoner.Proofs.Json.Document
import Reckoner.Proofs.Json.Finite
import Reckoner.Proofs.Values.Table

/-!
# Flat files of values

A flat object gives each name the readings of its member in order, whatever the names are
(`ValuesFile.table?_of_flat`), unless one of them is `entries`, which marks the other form of file
(`ValuesFile.table?_entries`). Numbers go through their texts on the way, and survive
(`Json.Numeral.read?_write`).
-/

namespace Reckoner

/-! ## Tables -/

namespace ValueTable

/-- Texts that are inserted under one name stand behind the data that it has. -/
theorem named_foldl_insert (t : ValueTable) (name other : String) (texts : List String) :
    (texts.foldl (fun t s => t.insert other (RawValue.ofText s)) t).named name =
      t.named name ++ if other = name then texts.map RawValue.ofText else [] := by
  induction texts generalizing t with
  | nil =>
    rw [List.foldl_nil, List.map_nil, ite_self, List.append_nil]
  | cons s texts ih =>
    rw [List.foldl_cons, ih, named_insert, List.append_assoc]
    split
    · rw [List.singleton_append, List.map_cons]
    · rw [List.append_nil]

end ValueTable

namespace CommandLine.ValuesFile

/-! ## Members -/

/-- A number or a text, and what it is read as. -/
inductive Reads : Json → Float → Prop
  | number (n : Json.Numeral) : Reads (.number n) n.toFloat
  | string (s : String) : Reads (.string s) (Number.readOrZero s)

/-- A number, a text or an array of those, and what they are read as. -/
inductive Gives : Json → List Float → Prop
  | one {v : Json} {x : Float} (h : Reads v x) : Gives v [x]
  | many {items : List Json} {xs : List Float} (h : List.Forall₂ Reads items xs) :
    Gives (.array items) xs

variable {v : Json} {x : Float} {xs : List Float} {items : List Json}
  {members : List (String × Json)}

theorem lastWins_of_reads (h : Reads v x) : lastWins v = v := by
  cases h <;> rfl

theorem lastWinsItems_of_reads (h : List.Forall₂ Reads items xs) : lastWinsItems items = items := by
  induction h with
  | nil => rfl
  | cons hv _ ih => rw [lastWinsItems, lastWins_of_reads hv, ih]

theorem lastWins_of_gives (h : Gives v xs) : lastWins v = v := by
  cases h with
  | one h => exact lastWins_of_reads h
  | many h => rw [lastWins, lastWinsItems_of_reads h]

theorem lastWinsMembers_of_gives (h : ∀ m ∈ members, ∃ xs, Gives m.2 xs) :
    lastWinsMembers members = members := by
  induction members with
  | nil => rfl
  | cons m members ih =>
    obtain ⟨⟨xs, hm⟩, hmembers⟩ := List.forall_mem_cons.1 h
    rw [lastWinsMembers, lastWins_of_gives hm, ih hmembers]

theorem fits_of_reads (h : Reads v x) (room : Nat) : v.fits room = true := by
  cases h <;> rfl

theorem fits_of_gives (h : Gives v xs) (room : Nat) : v.fits (room + 1) = true := by
  cases h with
  | one h => exact fits_of_reads h _
  | many h =>
    show Json.fitsAll room _ = true
    induction h with
    | nil => rfl
    | cons hv _ ih => rw [Json.fitsAll, fits_of_reads hv, ih]; rfl

theorem fitsMembers_of_gives (h : ∀ m ∈ members, ∃ xs, Gives m.2 xs) (room : Nat) :
    Json.fitsMembers (room + 1) members = true := by
  induction members with
  | nil => rfl
  | cons m members ih =>
    obtain ⟨⟨xs, hm⟩, hmembers⟩ := List.forall_mem_cons.1 h
    rw [Json.fitsMembers, fits_of_gives hm, ih hmembers]
    rfl

theorem fst_ne_of_notMem {name : String} (h : name ∉ members.map Prod.fst) {m : String × Json}
    (hm : m ∈ members) : m.1 ≠ name :=
  fun heq => h (heq ▸ List.mem_map_of_mem hm)

theorem any_fst_eq_false {name : String} (h : name ∉ members.map Prod.fst) :
    (members.any fun m => m.1 == name) = false :=
  List.any_eq_false.2 fun _ hm => beq_iff_eq.not.2 (fst_ne_of_notMem h hm)

/-- Members with names of their own stay. -/
theorem dropReplaced_of_nodup (h : (members.map Prod.fst).Nodup) :
    dropReplaced members = members := by
  induction members with
  | nil => rfl
  | cons m members ih =>
    obtain ⟨hm, hmembers⟩ := List.nodup_cons.1 h
    show (if (dropReplaced members).any (fun n => n.1 == m.1) then dropReplaced members
      else m :: dropReplaced members) = _
    rw [ih hmembers, any_fst_eq_false hm]
    rfl

/-! ## What a member gives its name -/

/-- The text that is kept for a datum is read as the datum. -/
theorem toFloat_text (h : Reads v x) (hv : v.IsFinite) : (RawValue.ofText (text v)).toFloat = x := by
  rw [RawValue.toFloat_ofText]
  cases h with
  | number n =>
    cases hv with
    | number hn =>
      show Number.readOrZero (Json.number n).write = _
      rw [Number.readOrZero, Json.Numeral.read?_write hn, Option.getD_some]
  | string s => rfl

theorem toFloat_memberTexts (h : Gives v xs) (hv : v.IsFinite) :
    ((memberTexts v).map RawValue.ofText).map RawValue.toFloat = xs := by
  cases h with
  | one h =>
    have htexts : memberTexts v = [text v] := by cases h <;> rfl
    rw [htexts, List.map_singleton, List.map_singleton, toFloat_text h hv]
  | many h =>
    cases hv with
    | array hitems =>
      show (((_ : List Json).map text).map RawValue.ofText).map RawValue.toFloat = _
      induction h with
      | nil => rfl
      | cons hv _ ih =>
        obtain ⟨hfinite, hrest⟩ := List.forall_mem_cons.1 hitems
        rw [List.map_cons, List.map_cons, List.map_cons, toFloat_text hv hfinite, ih hrest]

/-- The table of a flat object has the texts of every member of a name, in order. -/
theorem named_flatTable (members : List (String × Json)) (name : String) :
    (flatTable members).named name =
      members.flatMap fun m => if m.1 = name then (memberTexts m.2).map RawValue.ofText else [] := by
  suffices hfold : ∀ t : ValueTable, (members.foldl
      (fun t m => (memberTexts m.2).foldl (fun t s => t.insert m.1 (RawValue.ofText s)) t) t).named
        name = t.named name ++ members.flatMap fun m =>
          if m.1 = name then (memberTexts m.2).map RawValue.ofText else [] from
    hfold ValueTable.empty
  induction members with
  | nil => exact fun t => (List.append_nil _).symm
  | cons m members ih =>
    intro t
    rw [List.foldl_cons, ih, ValueTable.named_foldl_insert, List.flatMap_cons, List.append_assoc]

theorem named_flatTable_of_notMem {name : String} (h : name ∉ members.map Prod.fst) :
    (flatTable members).named name = [] := by
  rw [named_flatTable]
  exact List.flatMap_eq_nil_iff.2 fun m hm => if_neg (fst_ne_of_notMem h hm)

/-- Of members with names of their own, one counts for each name. -/
theorem named_flatTable_of_mem (hnodup : (members.map Prod.fst).Nodup) {m : String × Json}
    (hm : m ∈ members) : (flatTable members).named m.1 = (memberTexts m.2).map RawValue.ofText := by
  obtain ⟨before, after, rfl⟩ := List.append_of_mem hm
  rw [List.map_append, List.map_cons, List.nodup_append] at hnodup
  obtain ⟨-, hafter, hdisjoint⟩ := hnodup
  have hbefore : m.1 ∉ before.map Prod.fst := fun hmem =>
    hdisjoint _ hmem _ List.mem_cons_self rfl
  rw [named_flatTable, List.flatMap_append, List.flatMap_cons, if_pos rfl, ← named_flatTable,
    ← named_flatTable, named_flatTable_of_notMem hbefore,
    named_flatTable_of_notMem (List.nodup_cons.1 hafter).1, List.nil_append, List.append_nil]

/-! ## Files -/

theorem table?_eq_flatTable {content : String}
    (hparse : Json.parse? content = some (.object members))
    (hflat : ∀ m ∈ members, ∃ xs, Gives m.2 xs) (hnodup : (members.map Prod.fst).Nodup)
    (hentries : "entries" ∉ members.map Prod.fst) :
    table? content = .ok (flatTable members) := by
  have hfits : (Json.object members).fits Json.maxDepth = true := fitsMembers_of_gives hflat 125
  have hlast : lastWins (.object members) = .object members := by
    rw [lastWins, lastWinsMembers_of_gives hflat, dropReplaced_of_nodup hnodup]
  simp only [table?, hparse, hfits, hlast, any_fst_eq_false hentries, if_true,
    Bool.false_eq_true, if_false]

/-- A flat object whose members have different names, none of them `entries`, gives every name
what the numbers and texts of its member are read as, in order, and other names nothing. -/
theorem table?_of_flat {content : String} {members : List (String × Json)}
    (hparse : Json.parse? content = some (.object members))
    (hflat : ∀ m ∈ members, ∃ xs, Gives m.2 xs) (hnodup : (members.map Prod.fst).Nodup)
    (hentries : "entries" ∉ members.map Prod.fst) :
    ∃ t, table? content = .ok t ∧
      (∀ m ∈ members, ∀ xs, Gives m.2 xs →
        (t.toSource.named m.1).map RawValue.toFloat = xs) ∧
      ∀ name, name ∉ members.map Prod.fst → t.toSource.named name = [] := by
  refine ⟨_, table?_eq_flatTable hparse hflat hnodup hentries, fun m hm xs hxs => ?_,
    fun name => named_flatTable_of_notMem⟩
  have hfinite : m.2.IsFinite := by
    cases Json.isFinite_of_parse? hparse with
    | object h => exact h m hm
  show ((flatTable members).named m.1).map RawValue.toFloat = xs
  rw [named_flatTable_of_mem hnodup hm, toFloat_memberTexts hxs hfinite]

/-- The members of a file with one name for two values, one of them a text that goes on after its
number. -/
def parts : List (String × Json) :=
  [("qty", .number (.whole 3)), ("parts", .array [.number (.whole (-2)), .string "2.5 kg"])]

theorem table?_of_flat_parts :
    ∃ t, table? "\x7b\"qty\":3,\"parts\":[-2,\"2.5 kg\"]\x7d" = .ok t ∧
      (t.toSource.named "parts").map RawValue.toFloat =
        [Number.ofInt (-2), Number.readOrZero "2.5 kg"] := by
  have hwrite : (Json.object parts).write = "\x7b\"qty\":3,\"parts\":[-2,\"2.5 kg\"]\x7d" := by
    decide +kernel
  have hreadable : Json.IsReadable (.object parts) := by
    refine .object (List.forall_mem_cons.2 ⟨.number ?_, List.forall_mem_singleton.2
      (.array (List.forall_mem_cons.2 ⟨.number ?_, List.forall_mem_singleton.2 (.string _)⟩))⟩)
    · exact Json.Numeral.readsBack_whole (by decide) (by decide)
    · exact Json.Numeral.readsBack_whole (by decide) (by decide)
  have hparts : Gives (.array [.number (.whole (-2)), .string "2.5 kg"])
      [Number.ofInt (-2), Number.readOrZero "2.5 kg"] :=
    .many (.cons (.number _) (.cons (.string _) .nil))
  have hflat : ∀ m ∈ parts, ∃ xs, Gives m.2 xs :=
    List.forall_mem_cons.2 ⟨⟨_, .one (.number _)⟩, List.forall_mem_singleton.2 ⟨_, hparts⟩⟩
  obtain ⟨t, htable, hnamed, -⟩ := table?_of_flat (hwrite ▸ Json.parse?_write hreadable) hflat
    (by decide) (by decide)
  exact ⟨t, htable, hnamed _ (List.mem_cons_of_mem _ List.mem_cons_self) _ hparts⟩

/-- A member called `entries` marks a file of entries, which this is not. -/
theorem table?_entries :
    Json.parse? "\x7b\"entries\":5\x7d" = some (.object [("entries", .number (.whole 5))]) ∧
      Gives (.number (.whole 5)) [Number.ofInt 5] ∧
        ¬∃ t, table? "\x7b\"entries\":5\x7d" = .ok t := by
  have hwrite : (Json.object [("entries", .number (.whole 5))]).write = "\x7b\"entries\":5\x7d" := by
    decide +kernel
  have hreadable : Json.IsReadable (.object [("entries", .number (.whole 5))]) :=
    .object (List.forall_mem_singleton.2
      (.number (Json.Numeral.readsBack_whole (by decide) (by decide))))
  have hparse := hwrite ▸ Json.parse?_write hreadable
  refine ⟨hparse, .one (.number _), ?_⟩
  rintro ⟨t, htable⟩
  rw [table?, hparse] at htable
  cases htable

end CommandLine.ValuesFile

end Reckoner
