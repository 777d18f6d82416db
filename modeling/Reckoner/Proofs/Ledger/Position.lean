import Reckoner.Proofs.Ledger.Run

/-!
# Places in a ledger

What a section, a line and a column of a ledger find when it is their turn
(`Ledger.registersBefore`, `Ledger.linesBefore`, `Ledger.columnsBefore`), and what stands for them
in the report and among the expressions that are evaluated.
-/

namespace Reckoner.Ledger

variable (options : CalculationOptions)

/-- The registers that a section of a ledger finds. -/
def registersBefore (ledger : Ledger) (r : Registers) (j : Nat) : Registers :=
  (sectionSteps options (ledger.sections.take j) 0 r).2

/-- A section before one of its lines. -/
def linesBefore (s : Section) (r : Registers) (l : Nat) : SectionState :=
  (s.lines.take l).foldl (lineStep options) ⟨r, Number.zero false, []⟩

/-- A line before one of its columns. -/
def columnsBefore (line : Line) (s : SectionState) (d : Nat) : LineState :=
  (line.columns.take d).foldl (columnStep options) (lineStart line s.registers s.subtotal)

theorem eq_take_append {α : Type} {l : List α} {i : Nat} {x : α} (h : l[i]? = some x) :
    i < l.length ∧ l = l.take i ++ x :: l.drop (i + 1) := by
  obtain ⟨hlt, rfl⟩ := List.getElem?_eq_some_iff.1 h
  rw [← List.drop_eq_getElem_cons hlt, List.take_append_drop]
  exact ⟨hlt, rfl⟩

/-! ## Sections -/

theorem sectionSteps_cons (s : Section) (rest : List Section) (index : Nat) (r : Registers) :
    sectionSteps options (s :: rest) index r =
      ((sectionStep options s index r).1 ::
          (sectionSteps options rest (index + 1) (sectionStep options s index r).2).1,
        (sectionSteps options rest (index + 1) (sectionStep options s index r).2).2) := rfl

theorem sectionSteps_append (before after : List Section) (index : Nat) (r : Registers) :
    sectionSteps options (before ++ after) index r =
      let done := sectionSteps options before index r
      let later := sectionSteps options after (index + before.length) done.2
      (done.1 ++ later.1, later.2) := by
  induction before generalizing index r with
  | nil => rfl
  | cons s before ih =>
    have hindex : index + (s :: before).length = index + 1 + before.length := by
      rw [List.length_cons, Nat.add_right_comm, Nat.add_assoc]
    rw [List.cons_append, sectionSteps_cons, ih, hindex]
    rfl

theorem length_sectionSteps (sections : List Section) (index : Nat) (r : Registers) :
    (sectionSteps options sections index r).1.length = sections.length := by
  induction sections generalizing index r with
  | nil => rfl
  | cons s rest ih => exact congrArg Nat.succ (ih (index + 1) _)

variable {options}

/-- The next section finds the registers that a section leaves. -/
theorem registersBefore_succ {ledger : Ledger} {r : Registers} {j : Nat} {s : Section}
    (hs : ledger.sections[j]? = some s) :
    registersBefore options ledger r (j + 1) =
      (sectionStep options s j (registersBefore options ledger r j)).2 := by
  obtain ⟨hlt, -⟩ := eq_take_append hs
  rw [registersBefore, List.take_add_one, hs, Option.toList_some, sectionSteps_append,
    List.length_take_of_le hlt.le, Nat.zero_add]
  simp only [sectionSteps]
  rfl

theorem registersBefore_length (ledger : Ledger) (r : Registers) :
    registersBefore options ledger r ledger.sections.length =
      (ledger.recalculate options r).2 := by
  rw [registersBefore, List.take_length]
  rfl

/-- The report on a section is that of its turn. -/
theorem sections_recalculate {ledger : Ledger} {r : Registers} {j : Nat} {s : Section}
    (hs : ledger.sections[j]? = some s) :
    (ledger.recalculate options r).1.sections[j]? =
      some (sectionStep options s j (registersBefore options ledger r j)).1 := by
  obtain ⟨hlt, hsections⟩ := eq_take_append hs
  have hlength : (sectionSteps options (ledger.sections.take j) 0 r).1.length = j := by
    rw [length_sectionSteps, List.length_take_of_le hlt.le]
  change (sectionSteps options ledger.sections 0 r).1[j]? = _
  rw [hsections, sectionSteps_append, List.length_take_of_le hlt.le, Nat.zero_add,
    List.getElem?_append_right hlength.le, hlength, Nat.sub_self]
  rfl

/-! ## Lines -/

theorem length_lines (lines : List Line) (s : SectionState) :
    (lines.foldl (lineStep options) s).lines.length = s.lines.length + lines.length := by
  induction lines generalizing s with
  | nil => rfl
  | cons line rest ih =>
    rw [List.foldl_cons, ih, lineStep, List.length_append, List.length_cons, List.length_cons,
      List.length_nil, Nat.add_assoc, Nat.add_comm 1]

theorem linesBefore_append {s : Section} {l : Nat} {line : Line} (hline : s.lines[l]? = some line)
    (r : Registers) : sectionLines options s r =
      (s.lines.drop (l + 1)).foldl (lineStep options)
        (lineStep options (linesBefore options s r l) line) := by
  rw [linesBefore, ← List.foldl_cons, ← List.foldl_append, ← (eq_take_append hline).2]
  rfl

theorem lineStep_eq (s : SectionState) (line : Line) : lineStep options s line =
    let done := columnsBefore options line s line.columns.length
    ⟨done.registers, done.subtotal, s.lines ++ [done.columns]⟩ := by
  rw [columnsBefore, List.take_length]
  rfl

/-- The values that a section reports for a line are those of its turn. -/
theorem lines_sectionLines {s : Section} {l : Nat} {line : Line} (hline : s.lines[l]? = some line)
    (r : Registers) : (sectionLines options s r).lines[l]? =
      some (columnsBefore options line (linesBefore options s r l)
        line.columns.length).columns := by
  obtain ⟨hlt, -⟩ := eq_take_append hline
  have hlength : (linesBefore options s r l).lines.length = l := by
    rw [linesBefore, length_lines, List.length_take_of_le hlt.le]
    exact Nat.zero_add l
  obtain ⟨done, hdone, -⟩ := @linesReported_foldl options (s.lines.drop (l + 1))
    (lineStep options (linesBefore options s r l) line)
  rw [linesBefore_append hline, hdone, lineStep_eq, List.append_assoc,
    List.getElem?_append_right hlength.le, hlength, Nat.sub_self]
  rfl

/-! ## Columns -/

/-- One value is reported for each column, under its name. -/
theorem names_columns (columns : List Column) (s : LineState) :
    (columns.foldl (columnStep options) s).columns.map CalculatedValue.name =
      s.columns.map CalculatedValue.name ++ columns.map Column.name := by
  induction columns generalizing s with
  | nil => exact (List.append_nil _).symm
  | cons column rest ih =>
    rw [List.foldl_cons, ih, columnStep, List.map_append, List.append_assoc]
    rfl

/-- The value at a place has the name of the column there. -/
theorem map_name_getElem? (line : Line) (s : SectionState) (k : Nat) :
    (columnsBefore options line s line.columns.length).columns[k]?.map CalculatedValue.name =
      line.columns[k]?.map Column.name := by
  rw [← List.getElem?_map, ← List.getElem?_map, columnsBefore, List.take_length, names_columns]
  rfl

/-- The values before a column are the first ones that are reported for its line. -/
theorem columns_take (line : Line) (s : SectionState) {d : Nat} (hd : d ≤ line.columns.length) :
    (columnsBefore options line s line.columns.length).columns.take d =
      (columnsBefore options line s d).columns := by
  have hnames := @names_columns options (line.columns.take d)
    (lineStart line s.registers s.subtotal)
  have hlength : (columnsBefore options line s d).columns.length = d := by
    have hmap := congrArg List.length hnames
    rw [List.length_map, List.length_append, List.length_map, List.length_map,
      List.length_take_of_le hd] at hmap
    exact hmap.trans (Nat.zero_add d)
  obtain ⟨values, hvalues, -⟩ := @columnsReported_foldl options (line.columns.drop d)
    (columnsBefore options line s d)
  have hall : columnsBefore options line s line.columns.length =
      (line.columns.drop d).foldl (columnStep options) (columnsBefore options line s d) := by
    rw [columnsBefore, columnsBefore, ← List.foldl_append, List.take_append_drop, List.take_length]
  rw [hall, hvalues, List.take_left' hlength]

/-! ## Expressions -/

variable (options)

theorem columnTexts_append (before after : List Column) (s : LineState) :
    columnTexts options (before ++ after) s =
      columnTexts options before s ++
        columnTexts options after (before.foldl (columnStep options) s) := by
  induction before generalizing s with
  | nil => rfl
  | cons column before ih =>
    rw [List.cons_append, columnTexts, ih, columnTexts, List.foldl_cons]
    split
    · rfl
    · rfl

theorem lineTexts_append (before after : List Line) (s : SectionState) :
    lineTexts options (before ++ after) s =
      lineTexts options before s ++
        lineTexts options after (before.foldl (lineStep options) s) := by
  induction before generalizing s with
  | nil => rfl
  | cons line before ih =>
    rw [List.cons_append, lineTexts, ih, lineTexts, List.foldl_cons, List.append_assoc]

theorem sectionTexts_append (before after : List Section) (index : Nat) (r : Registers) :
    sectionTexts options (before ++ after) index r =
      sectionTexts options before index r ++
        sectionTexts options after (index + before.length)
          (sectionSteps options before index r).2 := by
  induction before generalizing index r with
  | nil => rfl
  | cons s before ih =>
    have hindex : index + (s :: before).length = index + 1 + before.length := by
      rw [List.length_cons, Nat.add_right_comm, Nat.add_assoc]
    rw [List.cons_append, sectionTexts, ih, sectionTexts, List.append_assoc, hindex]
    rfl

theorem exists_columnTexts_eq {line : Line} {d : Nat} {column : Column}
    (hcolumn : line.columns[d]? = some column) (hkept : column.deleted = false)
    (s : SectionState) :
    ∃ after, columnTexts options line.columns (lineStart line s.registers s.subtotal) =
      columnTexts options (line.columns.take d) (lineStart line s.registers s.subtotal) ++
        columnText (columnsBefore options line s d).scope column :: after := by
  refine ⟨columnTexts options (line.columns.drop (d + 1))
    (columnStep options (columnsBefore options line s d) column), ?_⟩
  conv_lhs => rw [(eq_take_append hcolumn).2]
  rw [columnTexts_append, columnTexts, if_neg (Bool.eq_false_iff.1 hkept)]
  rfl

theorem exists_lineTexts_eq {s : Section} {l : Nat} {line : Line}
    (hline : s.lines[l]? = some line) (r : Registers) :
    let found := linesBefore options s r l
    ∃ after, lineTexts options s.lines ⟨r, Number.zero false, []⟩ =
      lineTexts options (s.lines.take l) ⟨r, Number.zero false, []⟩ ++
        (columnTexts options line.columns (lineStart line found.registers found.subtotal) ++
          after) := by
  intro found
  refine ⟨lineTexts options (s.lines.drop (l + 1)) (lineStep options found line), ?_⟩
  conv_lhs => rw [(eq_take_append hline).2]
  rw [lineTexts_append, lineTexts]
  rfl

theorem exists_texts_eq {ledger : Ledger} {j : Nat} {s : Section}
    (hs : ledger.sections[j]? = some s) (r : Registers) :
    ∃ after, ledger.texts options r = sectionTexts options (ledger.sections.take j) 0 r ++
      (lineTexts options s.lines ⟨registersBefore options ledger r j, Number.zero false, []⟩ ++
        after) := by
  obtain ⟨hlt, hsections⟩ := eq_take_append hs
  let found := registersBefore options ledger r j
  refine ⟨subtotalText (sectionLines options s found).subtotal (subtotalRegister j) ::
    sectionTexts options (ledger.sections.drop (j + 1)) (j + 1) (sectionStep options s j found).2,
    ?_⟩
  rw [texts]
  conv_lhs => rw [hsections]
  rw [sectionTexts_append, sectionTexts, List.length_take_of_le hlt.le, Nat.zero_add]
  rfl

variable {options}

theorem mem_columnTexts {columns : List Column} {s : LineState} {text : String}
    (h : text ∈ columnTexts options columns s) :
    ∃ column ∈ columns, ∃ scope, text = columnText scope column := by
  induction columns generalizing s with
  | nil => cases h
  | cons column rest ih =>
    have hrest : text ∈ columnTexts options rest (columnStep options s column) →
        ∃ other ∈ column :: rest, ∃ scope, text = columnText scope other := fun h => by
      obtain ⟨other, hother, scope, heq⟩ := ih h
      exact ⟨other, List.mem_cons_of_mem _ hother, scope, heq⟩
    rw [columnTexts] at h
    split at h
    · exact hrest h
    · rcases List.mem_cons.1 h with rfl | h
      · exact ⟨column, List.mem_cons_self, _, rfl⟩
      · exact hrest h

/-- What lines evaluate are expressions of their columns. -/
theorem mem_lineTexts {lines : List Line} {s : SectionState} {text : String}
    (h : text ∈ lineTexts options lines s) :
    ∃ line ∈ lines, ∃ column ∈ line.columns, ∃ scope, text = columnText scope column := by
  induction lines generalizing s with
  | nil => cases h
  | cons line rest ih =>
    rcases List.mem_append.1 h with h | h
    · exact ⟨line, List.mem_cons_self, mem_columnTexts h⟩
    · obtain ⟨other, hother, hcolumn⟩ := ih h
      exact ⟨other, List.mem_cons_of_mem _ hother, hcolumn⟩

/-- The expression of a column that is not deleted is evaluated, on the registers that the
expressions before it leave. -/
theorem exists_texts_eq_columnText {ledger : Ledger} {r : Registers} {j l d : Nat} {s : Section}
    {line : Line} {column : Column} (hs : ledger.sections[j]? = some s)
    (hline : s.lines[l]? = some line) (hcolumn : line.columns[d]? = some column)
    (hkept : column.deleted = false) :
    let found :=
      columnsBefore options line (linesBefore options s (registersBefore options ledger r j) l) d
    ∃ before after, ledger.texts options r = before ++ columnText found.scope column :: after ∧
      evaluateAll before r = found.registers := by
  intro found
  let begun : SectionState := ⟨registersBefore options ledger r j, Number.zero false, []⟩
  let lines := linesBefore options s begun.registers l
  obtain ⟨laterColumns, hcolumns⟩ := exists_columnTexts_eq options hcolumn hkept lines
  obtain ⟨laterLines, hlines⟩ := exists_lineTexts_eq options hline begun.registers
  obtain ⟨laterSections, htexts⟩ := exists_texts_eq options hs r
  refine ⟨sectionTexts options (ledger.sections.take j) 0 r ++
    (lineTexts options (s.lines.take l) begun ++
      columnTexts options (line.columns.take d) (lineStart line lines.registers lines.subtotal)),
    laterColumns ++ (laterLines ++ laterSections), ?_, ?_⟩
  · rw [htexts, hlines, hcolumns]
    simp only [List.append_assoc, List.cons_append]
    rfl
  · have hsections : evaluateAll (sectionTexts options (ledger.sections.take j) 0 r) r =
        begun.registers := (registers_sections options _ 0 r).symm
    have hbegun : evaluateAll (lineTexts options (s.lines.take l) begun) begun.registers =
        lines.registers := (registers_lines options _ begun).symm
    rw [evaluateAll_append, hsections, evaluateAll_append, hbegun]
    exact (registers_columns options _ (lineStart line lines.registers lines.subtotal)).symm

end Reckoner.Ledger
