import Reckoner.Proofs.Ledger.Position
import Reckoner.Proofs.Machine.Store
import Reckoner.Proofs.Machine.Times
import Reckoner.Proofs.Number.Sum
import Reckoner.Proofs.Program.Keyword
import Reckoner.Proofs.Program.Tidy
import Reckoner.Proofs.Reference.Marked

/-!
# Sums of sections

The sum of a section is that of all values of its columns in order, and the register of the
section holds it from then on, if no column writes to registers by name or resets them
(`Ledger.stored_sum`).

A sum that is no number is stored as zero: the register is written by an expression that begins
with the text of the sum, and `NaN` is an unknown word, which stands for zero
(`Ledger.registers_unbalanced`).
-/

namespace Reckoner

/-- The column writes no register by name and does not reset them. -/
def Column.Quiet (column : Column) : Prop :=
  ∀ token ∈ Text.words column.expression, token ≠ "str" ∧ token ≠ "cpr" ∧ token ≠ "reset"

instance : DecidablePred Column.Quiet := fun column =>
  inferInstanceAs (Decidable (∀ token ∈ Text.words column.expression, _))

namespace Ledger

variable {options : CalculationOptions}

/-! ## The register of a section -/

theorem isReserved_subtotalRegister (k : Nat) :
    Registers.isReserved (subtotalRegister k) = false :=
  Program.isReserved_register ⟨"IVALUE", 0, 0⟩ k

theorem subtotalRegister_ne {j k : Nat} (h : j ≠ k) : subtotalRegister j ≠ subtotalRegister k := by
  intro heq
  rw [subtotalRegister, subtotalRegister, ← String.toList_inj, String.toList_append,
    String.toList_append, List.append_cancel_left_eq, String.toList_inj, Nat.repr_inj] at heq
  exact h heq

theorem isWord_subtotalRegister (k : Nat) : Text.IsWord ("~" ++ subtotalRegister k).toList := by
  have hchars : ("~" ++ subtotalRegister k).toList = "~IVALUE".toList ++ Nat.toDigits 10 k := by
    rw [subtotalRegister, String.toList_append, String.toList_append, Nat.toList_repr,
      ← List.append_assoc]
    rfl
  rw [hchars]
  refine ⟨nofun, fun c hc => ?_⟩
  rcases List.mem_append.1 hc with hc | hc
  · exact (@Number.isBlank_of_all "~IVALUE".toList rfl c hc).1
  · refine (Number.isBlank_of_isNumeralChar ?_).1
    rw [Number.isNumeralChar, Number.isDigit_of_mem_digits c hc]
    rfl

/-- The number that is stored for a sum. -/
def storedSum (sum : Float) : Float :=
  if sum.isNaN then Number.zero false else sum

theorem evaluate_subtotalText {sum : Float} (hsum : sum ≠ Number.zero true) (k : Nat)
    (r : Registers) : (evaluate (subtotalText sum (subtotalRegister k)) r).2 =
      (r.set (subtotalRegister k) (storedSum sum)).setLast (storedSum sum) := by
  rw [subtotalText, evaluate_store sum (isWord_subtotalRegister k), Number.readOrZero_format hsum]
  rfl

/-! ## Columns that write no register -/

/-- Nothing that writes registers is filled in for a reference. -/
theorem quiet_columnText {column : Column} (h : column.Quiet) (scope : ValueTable) :
    ∀ token ∈ Text.words (columnText scope column),
      ¬(Opcode.ofToken token).IsStore ∧ Opcode.ofToken token ≠ .reset := by
  have hword : ∀ {token w : String} {op : Opcode}, (w, op) ∈ Opcode.keywords →
      op.isWritten = false → ¬Reference.Marked w.toList →
        token ∈ Text.words (columnText scope column) → Opcode.ofToken token = op →
          w ∈ Text.words column.expression := by
    intro token w op hkeyword hop hmark htoken heq
    obtain rfl := (Opcode.ofToken_eq_iff hkeyword hop).1 heq
    exact Reference.mem_words_of_mem_substitute hmark htoken
  intro token htoken
  refine ⟨fun hstore => ?_, fun hreset => ?_⟩
  · rcases hstore with hstore | hstore
    · exact (h _ (hword (w := "str") (by decide) rfl (by decide) htoken hstore)).1 rfl
    · exact (h _ (hword (w := "cpr") (by decide) rfl (by decide) htoken hstore)).2.1 rfl
  · exact (h _ (hword (w := "reset") (by decide) rfl (by decide) htoken hreset)).2.2 rfl

/-- The calls of the columns of a section. -/
def sectionCalls (options : CalculationOptions) (s : Section) (r : Registers) : List Call :=
  Call.inTurn (lineTexts options s.lines ⟨r, Number.zero false, []⟩) r

/-- All columns of a section are quiet. -/
def QuietSection (s : Section) : Prop := ∀ line ∈ s.lines, ∀ column ∈ line.columns, column.Quiet

instance : DecidablePred QuietSection := fun s =>
  inferInstanceAs (Decidable (∀ line ∈ s.lines, ∀ column ∈ line.columns, column.Quiet))

/-- The register of a section holds a number. -/
def Holds (k : Nat) (x : Float) (r : Registers) : Prop := r.get? (subtotalRegister k) = some x

theorem Holds.set {k : Nat} {x : Float} {r : Registers} (h : Holds k x r) {name : String}
    (hname : name ≠ subtotalRegister k) (y : Float) : Holds k x (r.set name y) := by
  rw [Holds, Registers.get?_set_of_ne r hname.symm]
  exact h

theorem ne_of_isReserved {name : String} (h : Registers.isReserved name = true) (k : Nat) :
    name ≠ subtotalRegister k := by
  rintro rfl
  rw [isReserved_subtotalRegister] at h
  cases h

/-- The columns of a section keep the registers of all sections. -/
theorem keeps_of_mem_sectionCalls {s : Section} (hquiet : QuietSection s) {r : Registers}
    {call : Call} (h : call ∈ sectionCalls options s r) (k : Nat) (x : Float) :
    call.Keeps (Holds k x) := by
  obtain ⟨text, htext, found, rfl⟩ := Call.exists_of_mem_inTurn h
  obtain ⟨line, hline, column, hcolumn, scope, rfl⟩ := mem_lineTexts htext
  have hwords := quiet_columnText (hquiet line hline column hcolumn) scope
  exact ⟨fun r name y hname hr => hr.set (ne_of_isReserved hname k) y,
    fun hstores => absurd hstores (Call.not_stores fun token htoken => (hwords token htoken).1),
    fun hresets => absurd hresets (Call.not_resets fun token htoken => (hwords token htoken).2)⟩

theorem holds_section {s : Section} (hquiet : QuietSection s) {k : Nat} {x : Float} {r : Registers}
    (hr : Holds k x r) : (∀ call ∈ sectionCalls options s r, Holds k x call.registers) ∧
      Holds k x (sectionLines options s r).registers := by
  rw [registers_sectionLines]
  exact Call.kept_inTurn (fun call hcall => keeps_of_mem_sectionCalls hquiet hcall k x) hr

/-! ## Sums -/

theorem subtotal_columns (columns : List Column) (line : Line) (r : Registers) (x : Float) :
    let done := columns.foldl (columnStep options) (lineStart line r x)
    done.subtotal = (done.columns.map CalculatedValue.value).foldl (· + ·) x := by
  induction columns using List.reverseRecOn with
  | nil => rfl
  | append_singleton columns column ih =>
    simp only [List.foldl_append, List.foldl_cons, List.foldl_nil] at ih ⊢
    simp only [columnStep, List.map_append, List.foldl_append, ← ih]
    rfl

/-- The sum of a section is that of all values in order. -/
theorem subtotal_sectionLines (s : Section) (r : Registers) :
    let done := sectionLines options s r
    done.subtotal =
      (done.lines.flatten.map CalculatedValue.value).foldl (· + ·) (Number.zero false) := by
  unfold sectionLines
  induction s.lines using List.reverseRecOn with
  | nil => rfl
  | append_singleton lines line ih =>
    simp only [List.foldl_append, List.foldl_cons, List.foldl_nil] at ih ⊢
    simp only [lineStep, List.flatten_append, List.map_append, List.foldl_append, ← ih,
      subtotal_columns]
    simp

theorem subtotal_ne_zero (s : Section) (r : Registers) :
    (sectionLines options s r).subtotal ≠ Number.zero true := by
  have hsum := @subtotal_sectionLines options s r
  simp only at hsum
  rw [hsum]
  exact Number.sum_ne_zero (by decide +kernel) _

theorem registers_sectionStep (s : Section) (k : Nat) (r : Registers) :
    let done := sectionLines options s r
    (sectionStep options s k r).2 =
      (done.registers.set (subtotalRegister k) (storedSum done.subtotal)).setLast
        (storedSum done.subtotal) := by
  intro done
  have hstep : (sectionStep options s k r).2 =
      (evaluate (subtotalText done.subtotal (subtotalRegister k)) done.registers).2 := rfl
  rw [hstep, evaluate_subtotalText (subtotal_ne_zero s r)]

/-- A section stores its sum. -/
theorem holds_sectionStep (s : Section) (k : Nat) (r : Registers) :
    Holds k (storedSum (sectionStep options s k r).1.subtotal) (sectionStep options s k r).2 := by
  have hset := Registers.get?_set_self (sectionLines options s r).registers (subtotalRegister k)
    (storedSum (sectionLines options s r).subtotal)
  rw [registers_sectionStep]
  exact Holds.set hset (ne_of_isReserved rfl k) _

/-- Another section keeps the sum. -/
theorem holds_sectionStep_of_ne {s : Section} (hquiet : QuietSection s) {j k : Nat} (hne : j ≠ k)
    {x : Float} {r : Registers} (hr : Holds k x r) : Holds k x (sectionStep options s j r).2 := by
  rw [registers_sectionStep]
  exact ((holds_section hquiet hr).2.set (subtotalRegister_ne hne) _).set
    (ne_of_isReserved rfl k) _

/-- From the section after it on, the register of a section holds its sum. -/
theorem holds_registersBefore {ledger : Ledger} (hquiet : ∀ s ∈ ledger.sections, QuietSection s)
    {r : Registers} {k j : Nat} {s : Section} (hs : ledger.sections[k]? = some s)
    (hlater : k + 1 ≤ j) (hj : j ≤ ledger.sections.length) :
    let x := (sectionStep options s k (registersBefore options ledger r k)).1.subtotal
    Holds k (storedSum x) (registersBefore options ledger r j) := by
  intro x
  induction j, hlater using Nat.le_induction with
  | base =>
    rw [registersBefore_succ hs]
    exact holds_sectionStep s k _
  | succ j hlater ih =>
    have hother : ledger.sections[j]? = some ledger.sections[j] := List.getElem?_eq_getElem hj
    rw [registersBefore_succ hother]
    exact holds_sectionStep_of_ne (hquiet _ (List.getElem_mem hj)) (by omega) (ih (by omega))

/-- Where no column writes to registers by name or resets them, the register of a section holds
the sum of its values in the end, or zero if the sum is no number. Whatever a later section
executes, it loads this number from the register. -/
theorem stored_sum {ledger : Ledger} (hquiet : ∀ s ∈ ledger.sections, QuietSection s)
    (options : CalculationOptions) (r : Registers) {k : Nat} {s : Section}
    (hs : ledger.sections[k]? = some s) :
    ∃ report, (ledger.recalculate options r).1.sections[k]? = some report ∧
      report.register = subtotalRegister k ∧
      report.subtotal =
        (report.lines.flatten.map CalculatedValue.value).foldl (· + ·) (Number.zero false) ∧
      (ledger.recalculate options r).2.get? (subtotalRegister k) =
        some (storedSum report.subtotal) ∧
      ∀ j later, k < j → ledger.sections[j]? = some later →
        ∀ call ∈ sectionCalls options later (registersBefore options ledger r j),
          ∀ depth c before, call.Reaches depth c →
            c.Executes depth (before ++ ["~" ++ subtotalRegister k]) "ldr" →
              (c.after depth (before ++ ["~" ++ subtotalRegister k] ++ ["ldr"])).pop.1 =
                .number (storedSum report.subtotal) := by
  obtain ⟨hk, -⟩ := eq_take_append hs
  refine ⟨_, sections_recalculate hs, rfl, subtotal_sectionLines s _, ?_, ?_⟩
  · rw [← registersBefore_length]
    exact holds_registersBefore hquiet hs hk le_rfl
  · intro j later hlater hj call hcall depth c before hreaches hexec
    obtain ⟨hjlt, -⟩ := eq_take_append hj
    have hsection := hquiet later (List.mem_of_getElem? hj)
    have hkeeps := keeps_of_mem_sectionCalls hsection hcall k
      (storedSum (sectionStep options s k (registersBefore options ledger r k)).1.subtotal)
    have hcallStart := (holds_section hsection
      (holds_registersBefore hquiet hs hlater hjlt.le)).1 call hcall
    have hduring : call.During (c.after depth (before ++ ["~" ++ subtotalRegister k])).registers :=
      ⟨depth, c, _, hreaches, (List.prefix_append _ _).trans hexec.1, rfl⟩
    have hfound := hduring.kept hkeeps hcallStart
    rw [Call.pop_after_load hexec, show Registers.get? _ (subtotalRegister k) = _ from hfound]
    rfl

/-- A ledger whose second section loads the sum of the first. -/
def carried : Ledger :=
  ⟨[⟨none, [⟨[], [⟨"a", "5", false⟩, ⟨"b", "7 2 /", false⟩]⟩]⟩,
    ⟨none, [⟨[], [⟨"c", "~IVALUE0 ldr 2 *", false⟩]⟩]⟩]⟩

theorem stored_sum_carried : (∀ s ∈ carried.sections, QuietSection s) ∧
    (carried.recalculate ⟨none⟩ Registers.new).2.get? "IVALUE0" =
      some (Number.ofRatio false 17 2) := by
  have hquiet : ∀ s ∈ carried.sections, QuietSection s := by decide +kernel
  obtain ⟨report, hreport, -, -, hstored, -⟩ :=
    stored_sum hquiet ⟨none⟩ Registers.new (k := 0) rfl
  have hsums : (carried.recalculate ⟨none⟩ Registers.new).1.sections.map
      (fun report => storedSum report.subtotal) =
        [Number.ofRatio false 17 2, Number.ofNat 17] := by decide +kernel
  have hsum := congrArg (fun sums => sums[0]?) hsums
  simp only [List.getElem?_map, hreport, Option.map_some] at hsum
  refine ⟨hquiet, ?_⟩
  rw [show "IVALUE0" = subtotalRegister 0 from rfl, hstored, hsum]
  rfl

/-- A ledger with a sum that is no number: both infinities are in it. -/
def unbalanced : Ledger :=
  ⟨[⟨none, [⟨[], [⟨"a", "1 0 /", false⟩, ⟨"b", "-1 0 /", false⟩]⟩]⟩]⟩

/-- The report says that the sum is no number, and the register holds zero. -/
theorem registers_unbalanced : (∀ s ∈ unbalanced.sections, QuietSection s) ∧
    (unbalanced.recalculate ⟨none⟩ Registers.new).1.sections.map SectionReport.subtotal =
      [Number.nan] ∧
    (unbalanced.recalculate ⟨none⟩ Registers.new).2.get? (subtotalRegister 0) =
      some (Number.zero false) := by
  decide +kernel

end Ledger

end Reckoner
