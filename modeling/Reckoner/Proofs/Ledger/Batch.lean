import Reckoner.Proofs.Batch.Order
import Reckoner.Proofs.Graph.ListOrder
import Reckoner.Proofs.Ledger.Column

/-!
# A line as a batch

The columns of a line are nodes of a batch whose local values are the fields
(`Column.node`, `Line.scope`). A plain line comes to the same both ways
(`Ledger.recalculate_eq_batch`), since its nodes are run in the order of the columns
(`Line.Plain.walk_graph`), and a line and a batch under way have the same values for each name
(`Ledger.Agrees`): the text of a column is there the text of its value, and here what was set.
-/

namespace Reckoner

namespace Column

/-- A column as a node of a batch. -/
def node (column : Column) : Node := ⟨some column.name, column.expression⟩

/-- A column does not depend on another one if it neither refers to it nor requires a register
that it provides. -/
theorem dependsOn_eq_false_iff {column other : Column} :
    Graph.dependsOn column.node.dependencies other.node.dependencies = false ↔
      other.name ∉ referenceNames column.expression ∧
        ∀ register, .register register ∈ column.node.dependencies.requires →
          .register register ∉ other.node.dependencies.provides := by
  have hrequires : ∀ name, .value name ∈ column.node.dependencies.requires ↔
      name ∈ referenceNames column.expression := fun _ => Dependencies.value_mem_requires
  have hprovides : ∀ name, .value name ∈ other.node.dependencies.provides ↔
      some other.name = some name := fun _ => Dependencies.value_mem_provides
  simp only [Graph.dependsOn, List.any_eq_false, List.contains_iff_mem]
  constructor
  · exact fun h => ⟨fun hname => h _ ((hrequires _).2 hname) ((hprovides _).2 rfl),
      fun register hregister => h _ hregister⟩
  · rintro ⟨hvalue, hregister⟩ (name | register) hrequired hprovided
    · obtain rfl := Option.some.inj ((hprovides name).1 hprovided)
      exact hvalue ((hrequires _).1 hrequired)
    · exact hregister register hrequired hprovided

end Column

namespace Line

variable {line : Line}

/-- The columns of a line as nodes of a batch. -/
def nodes (line : Line) : List Node := line.columns.map Column.node

/-- The fields of a line as the values that a batch finds. -/
def scope (line : Line) : Batch.Scope := ⟨(⟨line.fields, none⟩ : ValueTable).toSource, none⟩

/-- A line whose columns have different names, at most one field for each, and are not deleted;
they refer to names without a dot, and neither refer to a later column nor require a register
that a later column provides. -/
structure Plain (line : Line) : Prop where
  distinct : (line.columns.map Column.name).Nodup
  single : ∀ column ∈ line.columns, Ledger.occurrences line column.name ≤ 1
  kept : ∀ column ∈ line.columns, column.deleted = false
  undotted : ∀ column ∈ line.columns, ∀ name ∈ referenceNames column.expression,
    '.' ∉ name.toList
  ordered : line.columns.Pairwise fun earlier later =>
    later.name ∉ referenceNames earlier.expression ∧
      ∀ register, .register register ∈ earlier.node.dependencies.requires →
        .register register ∉ later.node.dependencies.provides

theorem Plain.lt_of_edge (h : line.Plain) {i j : Nat} (hedge : (Batch.graph line.nodes).Edge i j) :
    j < i := by
  obtain ⟨a, b, ha, hb, hne, hdepends⟩ := Batch.edge_iff.1 hedge
  by_contra hle
  have hlt : i < j := by omega
  rw [nodes, List.getElem?_map, Option.map_eq_some_iff] at ha hb
  obtain ⟨earlier, hearlier, rfl⟩ := ha
  obtain ⟨later, hlater, rfl⟩ := hb
  obtain ⟨hi, rfl⟩ := List.getElem?_eq_some_iff.1 hearlier
  obtain ⟨hj, rfl⟩ := List.getElem?_eq_some_iff.1 hlater
  have hordered := List.pairwise_iff_getElem.1 h.ordered i j hi hj hlt
  rw [Column.dependsOn_eq_false_iff.2 hordered] at hdepends
  cases hdepends

/-- The columns of a plain line are run in their order. -/
theorem Plain.walk_graph (h : line.Plain) :
    (Batch.graph line.nodes).walk = (List.range line.nodes.length, none) := by
  have hsize : (Batch.graph line.nodes).size = line.nodes.length := by
    simp [Batch.graph, Graph.size_ofDependencies]
  rw [Graph.walk_eq_range fun i j hj => h.lt_of_edge hj, hsize]

theorem Plain.evaluate_nodes (h : line.Plain) (r : Registers) :
    let done := line.nodes.foldl (Batch.step line.scope) ⟨r, .empty⟩
    Batch.evaluate line.scope line.nodes r = (.ok done.output, done.registers) := by
  rw [Batch.evaluate_of_walk h.walk_graph, Batch.steps, Batch.filterMap_range_length]

end Line

/-- A value is found under its name if no two have the same. -/
theorem BatchOutput.get?_of_mem {o : BatchOutput} (hdistinct : (o.values.map Prod.fst).Nodup)
    {name : String} {x : Float} (h : (name, x) ∈ o.values) : o.get? name = some x := by
  obtain ⟨before, after, hvalues⟩ := List.append_of_mem h
  refine List.lookup_eq_some_iff.2 ⟨before, after, hvalues, fun e he => bne_iff_ne.2 ?_⟩
  rw [hvalues, List.map_append, List.map_cons, List.nodup_append] at hdistinct
  exact (hdistinct.2.2 e.1 (List.mem_map_of_mem he) name List.mem_cons_self).symm

namespace Ledger

variable {line : Line}

/-- A line and a batch under way have the same registers and values, and the same values for each
name that is referred to. -/
structure Agrees (line : Line) (s : LineState) (t : Batch.State) : Prop where
  registers : s.registers = t.registers
  values : t.output.values = s.columns.map fun v => (v.name, v.value)
  named : s.scope.named = (line.scope.inner.overlay t.output.get?).named

theorem agrees_start (line : Line) (r : Registers) (subtotal : Float) :
    Agrees line (lineStart line r subtotal) ⟨r, .empty⟩ := ⟨rfl, rfl, rfl⟩

/-- A name without a value so far has those of the fields. -/
theorem Agrees.get?_eq_none {s : LineState} {t : Batch.State} (h : Agrees line s t) {name : String}
    (hfresh : name ∉ s.columns.map CalculatedValue.name) : t.output.get? name = none := by
  rw [BatchOutput.get?, List.lookup_eq_none_iff, h.values]
  intro e he
  obtain ⟨v, hv, rfl⟩ := List.mem_map.1 he
  refine bne_iff_ne.2 ?_
  rintro rfl
  exact hfresh (List.mem_map_of_mem hv)

/-- A column runs the same expression in a line and in a batch. -/
theorem Agrees.text_eq {s : LineState} {t : Batch.State} (h : Agrees line s t) {column : Column}
    (hundotted : ∀ name ∈ referenceNames column.expression, '.' ∉ name.toList) :
    columnText s.scope column = Batch.text line.scope t.output column.node := by
  refine substitute_congr fun name hname => ?_
  have hdot := hundotted _ hname
  rw [← String.toList_ofList (l := name), Reference.resolve_named _ hdot,
    Reference.resolve_named _ hdot]
  exact congrArg (List.map RawValue.toFloat) (congrFun h.named _)

/-- What is set is what is laid over, for a name with one value at most. -/
theorem Agrees.named_set {s : LineState} {t : Batch.State} (h : Agrees line s t) {name : String}
    (hfresh : name ∉ s.columns.map CalculatedValue.name) (hsingle : occurrences line name ≤ 1)
    (x : Float) : (s.scope.set name (RawValue.ofFloat x)).named =
      (line.scope.inner.overlay (t.output.record (some name) x).get?).named := by
  funext other
  simp only [ValueSource.overlay]
  by_cases hother : other = name
  · have hfields : (s.scope.named name).length = occurrences line name := by
      rw [h.named, occurrences, List.countP_eq_length_filter]
      simp only [ValueSource.overlay, h.get?_eq_none hfresh]
      exact List.length_map _
    rw [hother, ValueTable.named_set_self, hfields, Nat.max_eq_left hsingle,
      BatchOutput.record, BatchOutput.get?_insert_self]
    rfl
  · have hne : some name ≠ some other := fun heq => hother (Option.some.inj heq).symm
    rw [ValueTable.named_set_of_ne _ hother, h.named, Batch.get?_record_of_ne hne]
    rfl

theorem Agrees.step {s : LineState} {t : Batch.State} (h : Agrees line s t) {column : Column}
    (hkept : column.deleted = false) (hsingle : occurrences line column.name ≤ 1)
    (hundotted : ∀ name ∈ referenceNames column.expression, '.' ∉ name.toList)
    (hfresh : column.name ∉ s.columns.map CalculatedValue.name) :
    Agrees line (columnStep ⟨none⟩ s column) (Batch.step line.scope t column.node) := by
  have hvalue : columnValue s.scope column s.registers =
      evaluate (Batch.text line.scope t.output column.node) t.registers := by
    rw [columnValue, if_neg (Bool.eq_false_iff.1 hkept), h.text_eq hundotted, h.registers]
  have hvalues : column.name ∉ t.output.values.map Prod.fst := by
    rwa [h.values, List.map_map]
  have hnode : column.node.name = some column.name := rfl
  rw [columnStep, hvalue, Batch.step, hnode]
  generalize evaluate (Batch.text line.scope t.output column.node) t.registers = result
  obtain ⟨x, r⟩ := result
  refine ⟨rfl, ?_, h.named_set hfresh hsingle x⟩
  rw [List.map_append, ← h.values]
  exact BatchOutput.put_of_notMem hvalues x

/-- A line and a batch agree after the same columns. -/
theorem agrees_columns (columns : List Column) (hdistinct : (columns.map Column.name).Nodup)
    (hsingle : ∀ column ∈ columns, occurrences line column.name ≤ 1)
    (hkept : ∀ column ∈ columns, column.deleted = false)
    (hundotted : ∀ column ∈ columns, ∀ name ∈ referenceNames column.expression, '.' ∉ name.toList)
    (r : Registers) (subtotal : Float) :
    Agrees line (columns.foldl (columnStep ⟨none⟩) (lineStart line r subtotal))
      ((columns.map Column.node).foldl (Batch.step line.scope) ⟨r, .empty⟩) := by
  induction columns using List.reverseRecOn with
  | nil => exact agrees_start line r subtotal
  | append_singleton columns column ih =>
    rw [List.map_append, List.map_singleton] at hdistinct
    obtain ⟨hdistinct, -, hfresh⟩ := List.nodup_append.1 hdistinct
    obtain ⟨hsingle, hsingle'⟩ := List.forall_mem_append.1 hsingle
    obtain ⟨hkept, hkept'⟩ := List.forall_mem_append.1 hkept
    obtain ⟨hundotted, hundotted'⟩ := List.forall_mem_append.1 hundotted
    have hmem := List.mem_singleton_self column
    rw [List.map_append, List.foldl_append, List.foldl_append]
    refine (ih hdistinct hsingle hkept hundotted).step (hkept' _ hmem) (hsingle' _ hmem)
      (hundotted' _ hmem) ?_
    rw [names_columns]
    exact fun hname => hfresh _ hname _ (List.mem_singleton_self _) rfl

/-- A plain line that is recalculated without a precision has the values of the batch of its
columns over its fields, one for each column. Its sum is stored in the registers that the batch
leaves. -/
theorem recalculate_eq_batch (h : line.Plain) (name : Option String) (r : Registers) :
    let only : Section := ⟨name, [line]⟩
    let report := (recalculate ⟨none⟩ ⟨[only]⟩ r).1
    let batch := Batch.evaluate line.scope line.nodes r
    ∃ output values, batch.1 = .ok output ∧
      report.sections.map SectionReport.lines = [[values]] ∧
      values.map CalculatedValue.name = line.columns.map Column.name ∧
      (∀ v ∈ values, output.get? v.name = some v.value) ∧
      (sectionLines ⟨none⟩ only r).registers = batch.2 := by
  intro only report batch
  let start := lineStart line r (Number.zero false)
  let done := line.columns.foldl (columnStep ⟨none⟩) start
  let ran := line.nodes.foldl (Batch.step line.scope) ⟨r, .empty⟩
  have hagrees : Agrees line done ran :=
    agrees_columns line.columns h.distinct h.single h.kept h.undotted r (Number.zero false)
  have hbatch : batch = (.ok ran.output, ran.registers) := h.evaluate_nodes r
  have hnames : done.columns.map CalculatedValue.name = line.columns.map Column.name :=
    names_columns line.columns start
  refine ⟨ran.output, done.columns, congrArg Prod.fst hbatch, rfl, hnames, fun v hv => ?_, ?_⟩
  · have hdistinct : (ran.output.values.map Prod.fst).Nodup := by
      rw [hagrees.values, List.map_map]
      exact hnames ▸ h.distinct
    refine BatchOutput.get?_of_mem hdistinct ?_
    rw [hagrees.values]
    exact List.mem_map_of_mem (f := fun v => (v.name, v.value)) hv
  · rw [hbatch]
    exact hagrees.registers

/-- A line whose columns read a field, a register and each other. -/
def bill : Line :=
  ⟨[⟨"net", [], RawValue.ofText "100.00 EUR"⟩],
    [⟨"net", "$net 2 *", false⟩, ⟨"tax", "$net 5 / ~tax str", false⟩,
      ⟨"gross", "$net ~tax ldr +", false⟩]⟩

theorem plain_bill : bill.Plain where
  distinct := by decide
  single := by decide
  kept := by decide
  undotted := by decide +kernel
  ordered := by
    have h : bill.columns.Pairwise fun earlier later =>
        Graph.dependsOn earlier.node.dependencies later.node.dependencies = false := by
      decide +kernel
    exact h.imp Column.dependsOn_eq_false_iff.1

/-- The batch has what is in the report, where the field is read once and its column from then
on. -/
theorem evaluate_bill : bill.Plain ∧
    ∃ output, (Batch.evaluate bill.scope bill.nodes Registers.new).1 = .ok output ∧
      output.get? "gross" = some (Number.ofNat 240) := by
  obtain ⟨output, values, houtput, hvalues, -, hget, -⟩ :=
    recalculate_eq_batch plain_bill none Registers.new
  have hlines : (recalculate ⟨none⟩ ⟨[⟨none, [bill]⟩]⟩ Registers.new).1.sections.map
      SectionReport.lines = [[[⟨"net", Number.ofNat 200, "200"⟩, ⟨"tax", Number.ofNat 40, "40"⟩,
        ⟨"gross", Number.ofNat 240, "240"⟩]]] := by decide +kernel
  rw [hlines] at hvalues
  obtain rfl := (List.cons.inj (List.cons.inj hvalues).1).1
  exact ⟨plain_bill, output, houtput, hget ⟨"gross", Number.ofNat 240, "240"⟩ (by simp)⟩

end Ledger

end Reckoner
