import Reckoner.Proofs.Ledger.Position
import Reckoner.Proofs.Reference.Named
import Reckoner.Proofs.Values.Table

/-!
# What a column reads of the columns before it

The table of a line holds its fields, set to the texts of its columns one after another
(`Ledger.scope_columnsBefore`). So a column that refers to an earlier one reads the text of the
last of that name (`Ledger.columnText_earlier`).

It reads the text once if no field has the name. Otherwise it reads it once for each such field,
since setting a name replaces the datum of all its entries (`Ledger.texts_pair`).
-/

namespace Reckoner.Ledger

open Text (Ended Parted)
open Reference (IsReference)

variable {options : CalculationOptions}

/-- The number of fields of a line with a name. -/
def occurrences (line : Line) (name : String) : Nat := line.fields.countP fun e => e.name == name

/-- The fields of a line, set to the texts of some columns one after another. -/
def overlaid (fields : List Entry) (values : List CalculatedValue) : ValueTable :=
  values.foldl (fun t v => t.set v.name (RawValue.ofText v.rendered)) ⟨fields, none⟩

theorem overlaid_append_singleton (fields : List Entry) (values : List CalculatedValue)
    (v : CalculatedValue) : overlaid fields (values ++ [v]) =
      (overlaid fields values).set v.name (RawValue.ofText v.rendered) :=
  List.foldl_append

/-- The values that a column can refer to. -/
theorem scope_columnsBefore (line : Line) (s : SectionState) (d : Nat) :
    (columnsBefore options line s d).scope =
      overlaid line.fields (columnsBefore options line s d).columns := by
  unfold columnsBefore
  generalize line.columns.take d = columns
  induction columns using List.reverseRecOn with
  | nil => rfl
  | append_singleton columns column ih =>
    rw [List.foldl_append, List.foldl_cons, List.foldl_nil]
    simp only [columnStep]
    rw [overlaid_append_singleton, ← ih]

theorem max_length_overlaid (line : Line) (values : List CalculatedValue) (name : String) :
    max 1 ((overlaid line.fields values).named name).length = max 1 (occurrences line name) := by
  induction values using List.reverseRecOn with
  | nil =>
    rw [occurrences, List.countP_eq_length_filter]
    simp [overlaid, ValueTable.named]
  | append_singleton values v ih =>
    rw [overlaid_append_singleton]
    by_cases hname : name = v.name
    · rw [← hname, ValueTable.named_set_self, List.length_replicate, ih, Nat.max_eq_right]
      exact Nat.le_max_left _ _
    · rw [ValueTable.named_set_of_ne _ hname, ih]

/-- The last column of a name is what the name stands for. -/
theorem named_overlaid (line : Line) (before : List CalculatedValue) (v : CalculatedValue)
    {after : List CalculatedValue} (hafter : ∀ w ∈ after, w.name ≠ v.name) :
    (overlaid line.fields (before ++ v :: after)).named v.name =
      List.replicate (max 1 (occurrences line v.name)) (RawValue.ofText v.rendered) := by
  induction after using List.reverseRecOn with
  | nil =>
    rw [overlaid_append_singleton, ValueTable.named_set_self, max_length_overlaid]
  | append_singleton after w ih =>
    obtain ⟨hafter, hw⟩ := List.forall_mem_append.1 hafter
    rw [← List.cons_append, ← List.append_assoc, overlaid_append_singleton,
      ValueTable.named_set_of_ne _ (hw w (List.mem_singleton.2 rfl)).symm, ih hafter]

/-- The values of a line before a column, with the last one of a name among them. -/
theorem exists_shown (options : CalculationOptions) {line : Line} (s : SectionState) {d e : Nat}
    {other : Column} (hd : d < line.columns.length) (hother : line.columns[e]? = some other)
    (hearlier : e < d) (hlatest : ∀ k later, e < k → k < d → line.columns[k]? = some later →
      later.name ≠ other.name) :
    ∃ before shown after, (columnsBefore options line s d).columns = before ++ shown :: after ∧
      (columnsBefore options line s line.columns.length).columns[e]? = some shown ∧
        shown.name = other.name ∧ ∀ w ∈ after, w.name ≠ shown.name := by
  let values := (columnsBefore options line s line.columns.length).columns
  have hname := @map_name_getElem? options line s
  obtain ⟨shown, hshown, hshownName⟩ : ∃ shown, values[e]? = some shown ∧
      shown.name = other.name :=
    Option.map_eq_some_iff.1 ((hname e).trans (by rw [hother, Option.map_some]))
  have htake : (values.take d)[e]? = some shown := by rw [List.getElem?_take_of_lt hearlier, hshown]
  refine ⟨(values.take d).take e, shown, (values.take d).drop (e + 1), ?_, hshown, hshownName,
    fun w hw => ?_⟩
  · rw [← (eq_take_append htake).2]
    exact (columns_take line s hd.le).symm
  · obtain ⟨i, hi⟩ := List.mem_iff_getElem?.1 hw
    rw [List.getElem?_drop, List.getElem?_take] at hi
    split at hi
    · next hlt =>
      obtain ⟨later, hlater, hlaterName⟩ : ∃ later, line.columns[e + 1 + i]? = some later ∧
          later.name = w.name :=
        Option.map_eq_some_iff.1 ((hname _).symm.trans (by rw [hi, Option.map_some]))
      rw [hshownName, ← hlaterName]
      exact hlatest _ later (by omega) hlt hlater
    · cases hi

/-- A column that refers to an earlier one as a word of its own runs an expression with the number
that the text of the earlier one begins with in the place of the word: once, or once for each
field of the line that has the name. -/
theorem columnText_earlier {ledger : Ledger} {r : Registers} {j l d e : Nat} {s : Section}
    {line : Line} {column other : Column} (hs : ledger.sections[j]? = some s)
    (hline : s.lines[l]? = some line) (hcolumn : line.columns[d]? = some column)
    (hother : line.columns[e]? = some other) (hearlier : e < d)
    (hlatest : ∀ k later, e < k → k < d → line.columns[k]? = some later → later.name ≠ other.name)
    (hname : IsReference ("$" ++ other.name).toList) (hdot : '.' ∉ other.name.toList)
    {u v : String} (hu : Parted u.toList) (hv : Ended v.toList)
    (hrefers : column.expression = u ++ ("$" ++ other.name) ++ v) :
    let found :=
      columnsBefore options line (linesBefore options s (registersBefore options ledger r j) l) d
    let text := columnText found.scope column
    (column.deleted = false → ∃ before after, ledger.texts options r = before ++ text :: after ∧
      evaluateAll before r = found.registers) ∧
    ∃ report values shown, (ledger.recalculate options r).1.sections[j]? = some report ∧
      report.lines[l]? = some values ∧ values[e]? = some shown ∧ shown.name = other.name ∧
        text = substitute u found.scope.toSource ++
          Text.unwords (List.replicate (max 1 (occurrences line other.name))
            (Number.format (Number.readOrZero shown.rendered))) ++
              substitute v found.scope.toSource := by
  intro found text
  refine ⟨exists_texts_eq_columnText hs hline hcolumn, ?_⟩
  obtain ⟨hd, -⟩ := eq_take_append hcolumn
  let lines := linesBefore options s (registersBefore options ledger r j) l
  obtain ⟨before, shown, after, hbefore, hshown, hshownName, hafter⟩ :=
    exists_shown options lines hd hother hearlier hlatest
  refine ⟨_, _, shown, sections_recalculate hs, lines_sectionLines hline _, hshown, hshownName, ?_⟩
  have hnamed : found.scope.toSource.named other.name =
      List.replicate (max 1 (occurrences line other.name)) (RawValue.ofText shown.rendered) := by
    rw [← hshownName]
    change found.scope.named shown.name = _
    rw [scope_columnsBefore, hbefore, named_overlaid line before shown hafter]
  have hvalues : found.scope.toSource.named other.name ≠ [] := by
    rw [hnamed, ne_eq, List.replicate_eq_nil_iff]
    omega
  change substitute column.expression found.scope.toSource = _
  rw [hrefers, substitute_between hu _ hv, Reference.substitute_named hname hdot hvalues, hnamed,
    List.map_replicate, RawValue.toFloat_ofText]

/-- A line whose second column refers to the first. -/
def thirds : Line := ⟨[], [⟨"third", "1 3 /", false⟩, ⟨"total", "$third 3 *", false⟩]⟩

/-- The ledger of one such line. -/
def chained : Ledger := ⟨[⟨none, [thirds]⟩]⟩

/-- With two decimals, the second column reads the number with two decimals. -/
theorem texts_chained : "0.33 3 *" ∈ chained.texts ⟨some 2⟩ Registers.new := by
  obtain ⟨hexecuted, report, values, shown, hreport, hvalues, hshown, -, htext⟩ :=
    @columnText_earlier ⟨some 2⟩ chained Registers.new 0 0 1 0 _ thirds _ _ rfl rfl rfl rfl
      Nat.zero_lt_one (by omega) (by decide) (by decide) "" " 3 *" (by decide) (by decide)
      (by decide)
  have hlines : (chained.recalculate ⟨some 2⟩ Registers.new).1.sections.map SectionReport.lines =
      [[[⟨"third", Number.ofRatio false 1 3, "0.33"⟩,
        ⟨"total", Number.ofRatio false 99 100, "0.99"⟩]]] := by decide +kernel
  have hrendered : shown.rendered = "0.33" := by
    have hlines := congrArg (fun lines => lines[0]?) hlines
    simp only [List.getElem?_map, hreport, Option.map_some] at hlines
    rw [Option.some.inj hlines] at hvalues
    obtain rfl := Option.some.inj hvalues
    rw [← Option.some.inj hshown]
  obtain ⟨before, after, htexts, -⟩ := hexecuted rfl
  have hword : Text.unwords (List.replicate (max 1 (occurrences thirds "third"))
      (Number.format (Number.readOrZero "0.33"))) = "0.33" := by decide +kernel
  rw [hrendered, hword, substitute_eq_self (by decide), substitute_eq_self (by decide)] at htext
  rw [htexts, htext]
  exact List.mem_append_right _ List.mem_cons_self

/-- A line with two fields of one name, and a column of this name. -/
def pair : Ledger :=
  ⟨[⟨none, [⟨[⟨"a", [], RawValue.ofText "1"⟩, ⟨"a", [], RawValue.ofText "2"⟩],
    [⟨"a", "7", false⟩, ⟨"d", "$a sum", false⟩]⟩]⟩]⟩

/-- The later column reads the text of the earlier one twice. -/
theorem texts_pair : pair.texts ⟨none⟩ Registers.new = ["7", "7 7 sum", "21 ~IVALUE0 str"] ∧
    (pair.recalculate ⟨none⟩ Registers.new).1.sections.map SectionReport.lines =
      [[[⟨"a", Number.ofNat 7, "7"⟩, ⟨"d", Number.ofNat 14, "14"⟩]]] := by
  decide +kernel

end Reckoner.Ledger
