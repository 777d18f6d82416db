import Reckoner.Proofs.Json.Record
import Reckoner.Values.Json

/-!
# Reading tables of values that have been written

An entry and a table are read back from what is written of them, wherever there is room for the
arrays and objects in it (`Entry.inverts`, `ValueTable.inverts`).
-/

namespace Reckoner

open Json (IsReadable lookup_member? sublist_member? fitsMembers_append fitsMembers_member?)
open Json.Shape (Inverts)

namespace RawValue

theorem sublist_members (raw : RawValue) :
    (raw.members.map Prod.fst).Sublist ["value", "stored"] := by
  rw [members, List.map_append]
  exact (sublist_member? _ _ _).append (sublist_member? _ _ _)

theorem isReadable_members (raw : RawValue) : ∀ m ∈ raw.members, IsReadable m.2 :=
  List.forall_mem_append.2
    ⟨Json.isReadable_member? IsReadable.string, Json.isReadable_member? IsReadable.string⟩

theorem fitsMembers_members (raw : RawValue) (room : Nat) :
    Json.fitsMembers room raw.members = true := by
  rw [members, fitsMembers_append, fitsMembers_member?, fitsMembers_member?]
  simp [Json.fits]

/-- A datum is read from its members, whatever stands before them. -/
theorem ofRecord?_append {before : List (String × Json)} (hvalue : before.lookup "value" = none)
    (hstored : before.lookup "stored" = none) (raw : RawValue) (room : Nat) :
    ofRecord? room ⟨before ++ raw.members⟩ = some raw := by
  simp [ofRecord?, Json.Record.get?, List.lookup_append, members, lookup_member?, hvalue, hstored,
    Json.Shape.optional_text]

end RawValue

namespace Entry

/-- The scopes of an entry, if there are any. -/
def scope? (e : Entry) : Option (List String) :=
  if e.scope.isEmpty then none else some e.scope

/-- The members of an entry before those of its datum. -/
def ownMembers (e : Entry) : List (String × Json) :=
  ("name", .string e.name) :: Json.member? "scope" (fun l => .array (l.map Json.string)) e.scope?

theorem toJson_eq (e : Entry) : e.toJson = .object (e.ownMembers ++ e.raw.members) := rfl

theorem sublist_ownMembers (e : Entry) :
    (e.ownMembers.map Prod.fst).Sublist ["name", "scope"] :=
  (sublist_member? _ _ _).cons_cons "name"

theorem isReadable (e : Entry) : IsReadable e.toJson := by
  rw [toJson_eq]
  refine .object (List.forall_mem_append.2 ⟨?_, e.raw.isReadable_members⟩)
  refine List.forall_mem_cons.2 ⟨.string _, Json.isReadable_member? fun l => ?_⟩
  exact Json.isReadable_map fun s _ => .string s

/-- What an entry needs room for are its scopes. -/
theorem fits_toJson (e : Entry) (room : Nat) : e.toJson.fits (room + 1) =
    e.scope?.all fun l => (Json.array (l.map Json.string)).fits room := by
  show Json.fitsMembers room (e.ownMembers ++ e.raw.members) = _
  rw [fitsMembers_append, e.raw.fitsMembers_members, Bool.and_true]
  exact fitsMembers_member? room "scope" _ _

theorem fits_of_room (e : Entry) (room : Nat) : e.toJson.fits (room + 2) = true := by
  rw [fits_toJson]
  cases e.scope? with
  | none => rfl
  | some l =>
    exact Json.fits_array_of fun s _ => rfl

theorem openMembers_eq (e : Entry) :
    openMembers (e.ownMembers ++ e.raw.members) = e.raw.members := by
  have hown : openMembers e.ownMembers = [] := by
    rw [openMembers, ownMembers]
    cases e.scope? <;> rfl
  have hraw : openMembers e.raw.members = e.raw.members := by
    rw [openMembers, RawValue.members]
    cases e.raw.value <;> cases e.raw.stored <;> rfl
  rw [openMembers] at hown hraw ⊢
  rw [List.filter_append, hown, hraw, List.nil_append]

/-- An entry is read back. -/
theorem inverts (e : Entry) : shape.Inverts toJson e := by
  intro room
  cases room with
  | zero => rfl
  | succ room =>
    have hrecord : Json.Record.ofJson? ["name", "scope", "value", "stored"] e.toJson =
        some ⟨e.ownMembers ++ e.raw.members⟩ := by
      rw [toJson_eq]
      refine Json.Record.ofJson?_object (by decide) ?_
      rw [List.map_append]
      exact e.sublist_ownMembers.append e.raw.sublist_members
    have hscope : Json.Shape.orDefault (Json.Shape.list Json.Shape.text room) []
        (Json.Record.get? ⟨e.ownMembers ++ e.raw.members⟩ "scope") =
          if e.toJson.fits (room + 1) then some e.scope else none := by
      have hget : Json.Record.get? ⟨e.ownMembers ++ e.raw.members⟩ "scope" =
          e.scope?.map fun l => .array (l.map Json.string) := by
        simp [Json.Record.get?, ownMembers, RawValue.members, List.lookup_append, List.lookup_cons,
          lookup_member?]
      have hgetD : e.scope?.getD [] = e.scope := by
        rw [scope?]
        cases e.scope <;> rfl
      have hlist : ∀ l ∈ e.scope?, (Json.Shape.list Json.Shape.text).Inverts
          (fun l => .array (l.map Json.string)) l :=
        fun l _ => Inverts.list fun s _ => Json.Shape.inverts_text s
      rw [hget, Json.Shape.orDefault_map hlist, hgetD, fits_toJson]
    have hvalue : e.ownMembers.lookup "value" = none := by
      rw [ownMembers]
      cases e.scope? <;> rfl
    have hstored : e.ownMembers.lookup "stored" = none := by
      rw [ownMembers]
      cases e.scope? <;> rfl
    have hraw := RawValue.ofRecord?_append hvalue hstored e.raw room
    have hopen := congrArg (Json.fitsMembers room) e.openMembers_eq
    rw [e.raw.fitsMembers_members] at hopen
    rw [toJson_eq] at hrecord hscope ⊢
    rw [shape, hrecord, Option.bind_eq_bind, Option.bind_some]
    show (Json.Shape.orDefault _ _ _).bind _ = _
    rw [hscope]
    cases (Json.object (e.ownMembers ++ e.raw.members)).fits (room + 1) with
    | false => rfl
    | true =>
      show (RawValue.ofRecord? _ _).bind _ = _
      rw [hraw]
      show (if Json.fitsMembers _ _ = true then _ else _) = _
      rw [if_pos hopen]
      rfl

end Entry

namespace ValueTable

/-- The members of a table. -/
def members (t : ValueTable) : List (String × Json) :=
  ("entries", .array (t.entries.map Entry.toJson)) :: Json.member? "global" toJson t.everywhere

theorem toJson_eq (t : ValueTable) : t.toJson = .object t.members := by
  obtain ⟨entries, everywhere⟩ := t
  cases everywhere with
  | none => rw [toJson]; rfl
  | some other => rw [toJson]; rfl

theorem sublist_members (t : ValueTable) :
    (t.members.map Prod.fst).Sublist ["entries", "global"] :=
  (sublist_member? _ _ _).cons_cons "entries"

theorem fits_toJson (t : ValueTable) (room : Nat) : t.toJson.fits (room + 1) =
    ((Json.array (t.entries.map Entry.toJson)).fits room &&
      t.everywhere.all fun other => other.toJson.fits room) := by
  rw [toJson_eq, ← fitsMembers_member? room "global"]
  rfl

/-- How many tables stand behind one another, the table itself among them. -/
def chain : ValueTable → Nat
  | ⟨_, none⟩ => 1
  | ⟨_, some other⟩ => other.chain + 1

/-- Each table opens an object, and its entries open at most three more arrays and objects. -/
theorem fits_of_chain_le : (t : ValueTable) → {room : Nat} → t.chain + 3 ≤ room →
    t.toJson.fits room = true
  | ⟨entries, none⟩, room, h => by
    obtain ⟨room, rfl⟩ := Nat.exists_eq_add_of_le' (show 4 ≤ room from h)
    have hentries : (Json.array (entries.map Entry.toJson)).fits (room + 3) = true :=
      Json.fits_array_of fun e _ => e.fits_of_room room
    rw [fits_toJson _ (room + 3), hentries]
    rfl
  | ⟨entries, some other⟩, room, h => by
    rw [chain] at h
    obtain ⟨room, rfl⟩ := Nat.exists_eq_add_of_le' (show 4 ≤ room by omega)
    have hentries : (Json.array (entries.map Entry.toJson)).fits (room + 3) = true :=
      Json.fits_array_of fun e _ => e.fits_of_room room
    have hother : other.toJson.fits (room + 3) = true := other.fits_of_chain_le (by omega)
    rw [fits_toJson _ (room + 3), hentries]
    exact hother

theorem toJson_ne_null (t : ValueTable) : t.toJson ≠ .null := by
  rw [toJson_eq]
  exact nofun

theorem isReadable : (t : ValueTable) → IsReadable t.toJson
  | ⟨entries, none⟩ => by
    rw [toJson]
    exact .object (List.forall_mem_singleton.2 (Json.isReadable_map fun e _ => e.isReadable))
  | ⟨entries, some other⟩ => by
    rw [toJson]
    refine .object (List.forall_mem_cons.2 ⟨Json.isReadable_map fun e _ => e.isReadable, ?_⟩)
    exact List.forall_mem_singleton.2 other.isReadable

theorem inverts_of_everywhere {t : ValueTable}
    (h : ∀ other ∈ t.everywhere, shape.Inverts toJson other) : shape.Inverts toJson t := by
  intro room
  cases room with
  | zero =>
    rw [toJson_eq, shape]
    rfl
  | succ room =>
    have hrecord := Json.Record.ofJson?_object (by decide) t.sublist_members
    have hentries : Json.Shape.orDefault (Json.Shape.list Entry.shape room) []
        (some (.array (t.entries.map Entry.toJson))) = _ :=
      Inverts.list (fun e _ => e.inverts) room
    have heverywhere := Json.Shape.optional_map h toJson_ne_null room
    have hglobal : Json.Record.get? ⟨t.members⟩ "global" = t.everywhere.map toJson := by
      simp [Json.Record.get?, members, List.lookup_cons, lookup_member?]
    rw [fits_toJson, toJson_eq, shape, hrecord, Option.bind_eq_bind, Option.bind_some]
    show (Json.Shape.orDefault _ _ (some (.array (t.entries.map Entry.toJson)))).bind _ = _
    rw [hentries, hglobal, heverywhere]
    cases (Json.array (t.entries.map Entry.toJson)).fits room with
    | false => rfl
    | true =>
      cases t.everywhere.all fun other => other.toJson.fits room with
      | false => rfl
      | true =>
        obtain ⟨entries, everywhere⟩ := t
        rfl

/-- A table is read back. -/
theorem inverts : (t : ValueTable) → shape.Inverts toJson t
  | ⟨_, none⟩ => inverts_of_everywhere nofun
  | ⟨_, some other⟩ => inverts_of_everywhere fun _ h => Option.some.inj h ▸ other.inverts

end ValueTable

end Reckoner
