import Reckoner.Ledger.Json
import Reckoner.Proofs.Values.Json

/-!
# What is stored as JSON is read back

Tables of values, lists of nodes, options and ledgers are read back from the compact text that
is written of them (`read?_toJson`). A ledger never nests too deeply for it, nor does a list
of nodes; a table does if too many tables for names anywhere stand behind it.
-/

namespace Reckoner

open Json (IsReadable sublist_member? fits_array_of)
open Json.Shape (Inverts inverts_record)

namespace Node

theorem isReadable (node : Node) : IsReadable node.toJson :=
  .object (List.forall_mem_append.2
    ⟨Json.isReadable_member? IsReadable.string, List.forall_mem_singleton.2 (.string _)⟩)

theorem fits_toJson (node : Node) (room : Nat) : node.toJson.fits (room + 1) = true := by
  obtain ⟨name, expression⟩ := node
  cases name <;> rfl

/-- A node is read back. -/
theorem inverts (node : Node) : shape.Inverts toJson node := by
  refine inverts_record (by decide) ?_ fun room => ?_
  · rw [List.map_append]
    exact (sublist_member? "name" Json.string _).append (List.Sublist.refl ["expression"])
  · obtain ⟨name, expression⟩ := node
    cases name <;> rfl

end Node

namespace CalculationOptions

theorem isReadable (options : CalculationOptions) : IsReadable options.toJson :=
  .object (Json.isReadable_member? Json.Shape.isReadable_count)

theorem fits_toJson (options : CalculationOptions) (room : Nat) :
    options.toJson.fits (room + 1) = true := by
  obtain ⟨precision⟩ := options
  cases precision <;> rfl

/-- Options are read back. -/
theorem inverts (options : CalculationOptions) : shape.Inverts toJson options := by
  refine inverts_record (by decide) (sublist_member? _ _ _) fun room => ?_
  obtain ⟨precision⟩ := options
  cases precision with
  | none => rfl
  | some n =>
    show ((Json.Shape.count room (Json.ofNat n.toNat)).map some).bind _ = _
    rw [Json.Shape.inverts_count n room]
    rfl

end CalculationOptions

namespace Column

theorem isReadable (c : Column) : IsReadable c.toJson := by
  refine .object ?_
  simp [IsReadable.string, IsReadable.bool]

theorem fits_toJson (c : Column) (room : Nat) : c.toJson.fits (room + 1) = true := rfl

/-- A column is read back. -/
theorem inverts (c : Column) : shape.Inverts toJson c :=
  inverts_record (by decide) (List.Sublist.refl _) fun _ => rfl

end Column

namespace Line

theorem isReadable (line : Line) : IsReadable line.toJson := by
  have hfields := Json.isReadable_map (l := line.fields) fun e _ => e.isReadable
  have hcolumns := Json.isReadable_map (l := line.columns) fun c _ => c.isReadable
  refine .object ?_
  simp [hfields, hcolumns]

theorem fits_toJson (line : Line) (room : Nat) : line.toJson.fits (room + 4) = true := by
  have hfields : (Json.array (line.fields.map Entry.toJson)).fits (room + 3) = true :=
    fits_array_of fun e _ => e.fits_of_room _
  have hcolumns : (Json.array (line.columns.map Column.toJson)).fits (room + 3) = true :=
    fits_array_of fun c _ => c.fits_toJson _
  show ((Json.array _).fits (room + 3) && ((Json.array _).fits (room + 3) && true)) = true
  rw [hfields, hcolumns]
  rfl

/-- A line is read back. -/
theorem inverts (line : Line) : shape.Inverts toJson line := by
  refine inverts_record (by decide) (List.Sublist.refl _) fun room => ?_
  have hfields := Inverts.list (fun e (_ : e ∈ line.fields) => e.inverts) room
  have hcolumns := Inverts.list (fun c (_ : c ∈ line.columns) => c.inverts) room
  show (Json.Shape.list Entry.shape room _).bind
    (fun fields => (Json.Shape.list Column.shape room _).bind _) = if (_ && (_ && true)) then _ else _
  rw [hfields, hcolumns]
  cases (Json.array (line.fields.map Entry.toJson)).fits room with
  | false => rfl
  | true => cases (Json.array (line.columns.map Column.toJson)).fits room <;> rfl

end Line

namespace Section

theorem isReadable (s : Section) : IsReadable s.toJson :=
  .object (List.forall_mem_append.2 ⟨Json.isReadable_member? IsReadable.string,
    List.forall_mem_singleton.2 (Json.isReadable_map fun line _ => line.isReadable)⟩)

theorem fits_toJson (s : Section) (room : Nat) : s.toJson.fits (room + 6) = true := by
  have hlines : (Json.array (s.lines.map Line.toJson)).fits (room + 5) = true :=
    fits_array_of fun line _ => line.fits_toJson room
  obtain ⟨name, lines⟩ := s
  cases name <;> exact (Bool.and_true _).trans hlines

/-- A section is read back. -/
theorem inverts (s : Section) : shape.Inverts toJson s := by
  refine inverts_record (by decide) ?_ fun room => ?_
  · rw [List.map_append]
    exact (sublist_member? "name" Json.string _).append (List.Sublist.refl ["lines"])
  · have hlines := Inverts.list (fun line (_ : line ∈ s.lines) => line.inverts) room
    obtain ⟨name, lines⟩ := s
    have hbind (f : List Line → Option Section) (hf : f lines = some ⟨name, lines⟩) :
        (Json.Shape.list Line.shape room (.array (lines.map Line.toJson))).bind f =
          if ((Json.array (lines.map Line.toJson)).fits room && true) then some ⟨name, lines⟩
          else none := by
      rw [hlines]
      cases (Json.array (lines.map Line.toJson)).fits room with
      | false => rfl
      | true => exact hf
    cases name <;> exact hbind _ rfl

end Section

namespace Ledger

theorem isReadable (ledger : Ledger) : IsReadable ledger.toJson :=
  .object (List.forall_mem_singleton.2 (Json.isReadable_map fun s _ => s.isReadable))

/-- Eight arrays and objects around one another are enough for a ledger. -/
theorem fits_toJson (ledger : Ledger) (room : Nat) : ledger.toJson.fits (room + 8) = true := by
  have hsections : (Json.array (ledger.sections.map Section.toJson)).fits (room + 7) = true :=
    fits_array_of fun s _ => s.fits_toJson room
  exact (Bool.and_true _).trans hsections

/-- A ledger is read back. -/
theorem inverts (ledger : Ledger) : shape.Inverts toJson ledger := by
  refine inverts_record (by decide) (List.Sublist.refl _) fun room => ?_
  have hsections := Inverts.list (fun s (_ : s ∈ ledger.sections) => s.inverts) room
  show (Json.Shape.list Section.shape room _).bind _ = if (_ && true) then _ else _
  rw [hsections]
  cases (Json.array (ledger.sections.map Section.toJson)).fits room <;> rfl

end Ledger

/-- What is stored as compact text is read back: tables as long as they do not nest too deeply, so
certainly where no more than `Json.maxDepth - 3` of them stand behind one another; lists of nodes,
options and ledgers always. -/
theorem read?_toJson :
    (∀ t : ValueTable, ValueTable.shape.read? t.toJson.write = some t ↔
      t.toJson.fits Json.maxDepth = true) ∧
    (∀ t : ValueTable, t.chain + 3 ≤ Json.maxDepth →
      ValueTable.shape.read? t.toJson.write = some t) ∧
    (∀ nodes : List Node, Node.listShape.read? (Node.listToJson nodes).write = some nodes) ∧
    (∀ options : CalculationOptions,
      CalculationOptions.shape.read? options.toJson.write = some options) ∧
    ∀ ledger : Ledger, Ledger.shape.read? ledger.toJson.write = some ledger := by
  refine ⟨fun t => t.inverts.read?_write t.isReadable, fun t hchain => ?_, fun nodes => ?_,
    fun options => ?_, fun ledger => ?_⟩
  · exact (t.inverts.read?_write t.isReadable).2 (t.fits_of_chain_le hchain)
  · refine (Inverts.list fun node _ => Node.inverts node).read?_write
      (Json.isReadable_map fun node _ => node.isReadable) |>.2 ?_
    exact fits_array_of fun node _ => node.fits_toJson 125
  · exact (options.inverts.read?_write options.isReadable).2 (options.fits_toJson 126)
  · exact (ledger.inverts.read?_write ledger.isReadable).2 (ledger.fits_toJson 119)

end Reckoner
