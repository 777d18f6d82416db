import Mathlib.Data.List.Nodup
import Reckoner.Json.Real
import Reckoner.Proofs.Json.Document

/-!
# Reading records that have been written

A shape inverts a writing at a value (`Json.Shape.Inverts`) if it reads the value from what is
written, wherever arrays and objects still have room to open, and nothing where they have not.
Texts, counts, lists and records are inverted, and so are fields that are left out when there is
nothing to write. Then a value is read back from its document exactly if the document does not
nest too deeply (`Json.Shape.Inverts.read?_write`).
-/

namespace Reckoner.Json

variable {α β : Type}

/-! ## What fits -/

theorem fitsAll_map (room : Nat) (write : α → Json) (l : List α) :
    fitsAll room (l.map write) = l.all fun a => (write a).fits room := by
  induction l with
  | nil => rfl
  | cons a l ih => rw [List.map_cons, fitsAll, ih, List.all_cons]

theorem fits_array (room : Nat) (write : α → Json) (l : List α) :
    (Json.array (l.map write)).fits (room + 1) = l.all fun a => (write a).fits room :=
  fitsAll_map room write l

theorem fits_array_of {room : Nat} {write : α → Json} {l : List α}
    (h : ∀ a ∈ l, (write a).fits room = true) : (Json.array (l.map write)).fits (room + 1) = true :=
  (fits_array room write l).trans (List.all_eq_true.2 h)

theorem fitsMembers_append (room : Nat) (members others : List (String × Json)) :
    fitsMembers room (members ++ others) =
      (fitsMembers room members && fitsMembers room others) := by
  induction members with
  | nil => rfl
  | cons m members ih =>
    obtain ⟨name, v⟩ := m
    rw [List.cons_append, fitsMembers, fitsMembers, ih, Bool.and_assoc]

theorem fitsMembers_member? (room : Nat) (name : String) (write : α → Json) (x : Option α) :
    fitsMembers room (member? name write x) = x.all fun a => (write a).fits room := by
  cases x with
  | none => rfl
  | some a => exact Bool.and_true _

/-! ## The members of an object -/

theorem sublist_member? (name : String) (write : α → Json) (x : Option α) :
    ((member? name write x).map Prod.fst).Sublist [name] := by
  cases x with
  | none => exact List.nil_sublist _
  | some a => exact List.Sublist.refl _

theorem lookup_member? (name : String) (write : α → Json) (x : Option α) (key : String) :
    (member? name write x).lookup key = if key == name then x.map write else none := by
  cases x with
  | none => simp [member?]
  | some a => cases hkey : key == name <;> simp [member?, List.lookup_cons, hkey]

theorem isReadable_member? {name : String} {write : α → Json} {x : Option α}
    (h : ∀ a, IsReadable (write a)) : ∀ m ∈ member? name write x, IsReadable m.2 := by
  cases x with
  | none => exact nofun
  | some a => exact List.forall_mem_singleton.2 (h a)

theorem isReadable_map {write : α → Json} {l : List α} (h : ∀ a ∈ l, IsReadable (write a)) :
    IsReadable (.array (l.map write)) :=
  .array (List.forall_mem_map.2 h)

/-- A record has the members of an object that are among its fields, in their order. -/
theorem Record.ofJson?_object {names : List String} {members : List (String × Json)}
    (hnames : names.Nodup) (hmembers : (members.map Prod.fst).Sublist names) :
    Record.ofJson? names (.object members) = some ⟨members⟩ := by
  have hall : ∀ m ∈ members, names.contains m.1 = true := fun m hm =>
    List.contains_iff_mem.2 (hmembers.subset (List.mem_map_of_mem hm))
  rw [Record.ofJson?, List.filter_eq_self.2 hall, if_pos (hmembers.nodup hnames)]

/-! ## Shapes -/

namespace Shape

/-- A shape reads what is written of a value, wherever there is room for it. -/
def Inverts (shape : Shape α) (write : α → Json) (a : α) : Prop :=
  ∀ room, shape room (write a) = if (write a).fits room then some a else none

theorem inverts_text (s : String) : text.Inverts .string s := fun _ => rfl

theorem inverts_count (n : UInt64) : count.Inverts (fun n => ofNat n.toNat) n := by
  intro room
  show (if 0 ≤ (n.toNat : Int) then some (UInt64.ofNat (n.toNat : Int).toNat) else none) = some n
  rw [if_pos (Int.natCast_nonneg _), Int.toNat_natCast, UInt64.ofNat_toNat]

theorem isReadable_count (n : UInt64) : IsReadable (ofNat n.toNat) :=
  .number (Numeral.readsBack_whole (by omega) (by have := n.toNat_lt; omega))

variable {shape : Shape α} {write : α → Json}

theorem Inverts.list {l : List α} (h : ∀ a ∈ l, shape.Inverts write a) :
    (list shape).Inverts (fun l => .array (l.map write)) l := by
  intro room
  cases room with
  | zero => rfl
  | succ room =>
    show (l.map write).mapM (shape room) = _
    simp only [fits_array]
    induction l with
    | nil => rfl
    | cons a l ih =>
      obtain ⟨ha, hl⟩ := List.forall_mem_cons.1 h
      rw [List.map_cons, List.mapM_cons, ha room, ih hl, List.all_cons]
      cases (write a).fits room with
      | false => rfl
      | true => cases l.all fun a => (write a).fits room <;> rfl

/-- A field that is left out with no value. -/
theorem optional_map {x : Option α} (h : ∀ a ∈ x, shape.Inverts write a)
    (hnull : ∀ a, write a ≠ .null) (room : Nat) :
    optional (shape room) (x.map write) =
      if x.all fun a => (write a).fits room then some x else none := by
  cases x with
  | none => rfl
  | some a =>
    have hread : optional (shape room) (some (write a)) = (shape room (write a)).map some := by
      rw [optional]
      exact fun heq => hnull a heq
    rw [Option.map_some, hread, h a rfl room, Option.all_some]
    cases (write a).fits room <;> rfl

theorem optional_text (x : Option String) (room : Nat) :
    optional (text room) (x.map .string) = some x := by
  cases x <;> rfl

/-- A field that is left out with its default. -/
theorem orDefault_map {x : Option α} (h : ∀ a ∈ x, shape.Inverts write a) (default : α)
    (room : Nat) : orDefault (shape room) default (x.map write) =
      if x.all fun a => (write a).fits room then some (x.getD default) else none := by
  cases x with
  | none => rfl
  | some a => exact h a rfl room

/-- A record is read from the members that are written of it, if these are some of its fields in
their order. -/
theorem inverts_record {names : List String} {fields : Nat → Record → Option α}
    {members : α → List (String × Json)} {a : α} (hnames : names.Nodup)
    (hmembers : ((members a).map Prod.fst).Sublist names)
    (hfields : ∀ room, fields room ⟨members a⟩ =
      if fitsMembers room (members a) then some a else none) :
    (record names fields).Inverts (fun a => .object (members a)) a := by
  intro room
  cases room with
  | zero => rfl
  | succ room =>
    rw [record, Record.ofJson?_object hnames hmembers, Option.bind_some, hfields]
    rfl

/-- What is written of a value is read as the value exactly if it does not nest too deeply. -/
theorem Inverts.read?_write {a : α} (h : shape.Inverts write a) (hreadable : IsReadable (write a)) :
    shape.read? (write a).write = some a ↔ (write a).fits maxDepth = true := by
  rw [read?, parse?_write hreadable, Option.bind_some, h maxDepth]
  simp

end Shape

end Reckoner.Json
