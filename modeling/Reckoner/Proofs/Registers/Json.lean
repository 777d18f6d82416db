import Reckoner.Proofs.Json.Record
import Reckoner.Proofs.Number.RoundTrip
import Reckoner.Proofs.Session.Invariant

/-!
# Reading stores that have been written

A store that can come about (`Registers.Reachable`) has the machine's registers, and it is what
is read from its document (`Registers.read?_snapshot`), if the texts of its finite numbers are read
as these numbers. What is not finite is written as a word, and there is one value that is no
number (`Number.eq_nan_of_isNaN`). Stores that hold the same have the same document, whatever has
been written to them, and in which order.
-/

namespace Reckoner

/-! ## Doubles -/

namespace Json

/-- The word for a double that is not finite is read as it. -/
theorem real_format {x : Float} (h : x.isFinite = false) (room : Nat) :
    Shape.real room (.string (Number.format x)) = some x := by
  rw [Shape.real]
  cases hnan : x.isNaN with
  | true =>
    rw [Number.eq_nan_of_isNaN hnan, if_pos (by decide +kernel)]
  | false =>
    have hzero : x ≠ Number.zero true := by
      rintro rfl
      exact absurd h (by decide +kernel)
    have hread : Number.read? (Number.format x) = some x := by
      rw [Number.read?_format hnan, Number.dropZeroSign, if_neg hzero]
    have hword : Number.format x ≠ "NaN" := by
      intro hword
      rw [hword] at hread
      exact absurd hread (by rw [show Number.read? "NaN" = none by decide +kernel]; nofun)
    rw [if_neg hword, hread]
    simp only [h, Bool.false_eq_true, if_false]

/-- A double is read from what is written of it. -/
theorem real_ofFloat (x : Float) (room : Nat) : Shape.real room (ofFloat x) = some x := by
  rw [ofFloat]
  cases hfinite : x.isFinite with
  | true => rfl
  | false => exact real_format hfinite room

/-- What is written of a double can be read back, if the text of a finite one is read as it. -/
theorem isReadable_ofFloat {x : Float}
    (h : x.isFinite = true → parse? (ofFloat x).write = some (ofFloat x)) :
    IsReadable (ofFloat x) := by
  rw [ofFloat] at h ⊢
  cases hfinite : x.isFinite with
  | true =>
    rw [hfinite, if_pos rfl] at h
    have hlex := lex?_of_parse?_number (h rfl)
    rw [write, String.toList_ofList, tokens, List.flatMap_singleton] at hlex
    exact .number hlex
  | false => exact .string _

end Json

namespace Registers

/-- The stores that can come about: those that a session can begin with, and those after a
register is written or copied. After a reset a store is new. -/
inductive Reachable : Registers → Prop where
  | built {r : Registers} (h : r.Built) : Reachable r
  | set {r : Registers} (h : Reachable r) (name : String) (x : Float) : Reachable (r.set name x)
  | copy {r : Registers} (h : Reachable r) (source destination : String) :
    Reachable (r.copy source destination)

theorem Reachable.hasReserved {r : Registers} (h : r.Reachable) : r.HasReserved := by
  induction h with
  | built h => exact h.hasReserved
  | set _ name x ih => exact stable_hasReserved _ name x ih
  | copy _ source destination ih => exact stable_hasReserved _ destination _ ih

/-- Writing numbers under different names leaves each where it belongs. -/
theorem get?_foldl_set {l : List (String × Float)} (hl : l.Pairwise fun a b => a.1 < b.1)
    (r : Registers) (name : String) :
    (l.foldl (fun r e => r.set e.1 e.2) r).get? name = (l.lookup name).or (r.get? name) := by
  induction l generalizing r with
  | nil => rfl
  | cons e l ih =>
    obtain ⟨n, x⟩ := e
    obtain ⟨hlt, hl⟩ := List.pairwise_cons.1 hl
    rw [List.foldl_cons, ih hl]
    by_cases hname : name = n
    · subst hname
      rw [lookup_eq_none_of_lt hlt, lookup_head, Option.none_or, get?_set_self, Option.some_or]
    · rw [get?_set_of_ne r hname, List.lookup_cons, beq_false_of_ne hname]

/-- A store with the machine's registers is what is made from its list. -/
theorem ofList_toList {r : Registers} (h : r.HasReserved) : ofList r.toList = r := by
  refine ext_get? fun name => ?_
  rw [ofList, get?_foldl_set r.sorted]
  show (r.get? name).or (new.get? name) = r.get? name
  cases hname : r.get? name with
  | some x => rfl
  | none =>
    have hne (other : String) (hother : r.contains other = true) : name ≠ other := by
      rintro rfl
      rw [contains, hname] at hother
      cases hother
    rw [Option.none_or, new, get?_set_of_ne _ (hne _ h.2), get?_set_of_ne _ (hne _ h.1)]
    rfl

/-- A store with the machine's registers is read from what is written of it. -/
theorem shape_toJson {r : Registers} (h : r.HasReserved) (room : Nat) :
    shape (room + 1) r.toJson = some r := by
  have hmembers : (r.toList.map fun e => (e.1, Json.ofFloat e.2)).mapM
      (fun m => (Json.Shape.real room m.2).map fun x => (m.1, x)) = some r.toList :=
    Json.mapM_map_eq_some fun e _ => by rw [Json.real_ofFloat, Option.map_some]
  show ((r.toList.map fun e => (e.1, Json.ofFloat e.2)).mapM
    (fun m => (Json.Shape.real room m.2).map fun x => (m.1, x))).map ofList = some r
  rw [hmembers, Option.map_some, ofList_toList h]

theorem get?_of_mem {r : Registers} {e : String × Float} (h : e ∈ r.toList) :
    r.get? e.1 = some e.2 := by
  obtain ⟨before, after, hsplit⟩ := List.append_of_mem h
  have hsorted := r.sorted
  rw [hsplit, List.pairwise_append] at hsorted
  refine List.lookup_eq_some_iff.2 ⟨before, after, hsplit, fun d hd => bne_iff_ne.2 ?_⟩
  exact (String.ne_of_lt (hsorted.2.2 d hd e List.mem_cons_self)).symm

theorem isReadable {r : Registers} (h : ∀ name x, r.get? name = some x → x.isFinite = true →
    Json.parse? (Json.ofFloat x).write = some (Json.ofFloat x)) : Json.IsReadable r.toJson :=
  .object (List.forall_mem_map.2 fun e he => Json.isReadable_ofFloat (h e.1 e.2 (get?_of_mem he)))

theorem reachable_iff {r : Registers} : r.Reachable ↔ r.HasReserved :=
  ⟨Reachable.hasReserved, fun h => ofList_toList h ▸ .built (.ofList r.toList)⟩

/-- Whatever is done in a session leaves a store that can come about. -/
theorem Reachable.foldl {r : Registers} (h : r.Reachable) (ops : List Session.Operation) :
    (ops.foldl Session.perform ⟨r⟩).registers.Reachable :=
  reachable_iff.2 (Session.hasReserved_foldl h.hasReserved ops)

/-- A store is read from its document, if the texts of its finite numbers are read as these
numbers, and stores that hold the same have the same document. All this holds of the stores of a
session as well, whatever its operations are: they can come about. -/
theorem read?_snapshot {r : Registers} (hr : r.Reachable) :
    ((∀ name x, r.get? name = some x → x.isFinite = true →
        Json.parse? (Json.ofFloat x).write = some (Json.ofFloat x)) →
      shape.read? r.toJson.write = some r) ∧
    (∀ s : Registers, s.Reachable → (∀ name, s.get? name = r.get? name) →
      s.toJson.write = r.toJson.write) ∧
    ∀ ops : List Session.Operation, (ops.foldl Session.perform ⟨r⟩).registers.Reachable := by
  refine ⟨fun hnumbers => ?_, fun s _ hs => by rw [ext_get? hs], hr.foldl⟩
  rw [Json.Shape.read?, Json.parse?_write (isReadable hnumbers), Option.bind_some]
  exact shape_toJson hr.hasReserved 126

/-- The texts of zero, with and without a sign, and of another number are read as these. -/
theorem parse?_mixed {x : Float} (h : x = Number.zero false ∨ x = Number.zero true ∨ x = 12.5) :
    Json.parse? (Json.ofFloat x).write = some (Json.ofFloat x) := by
  have hread {x : Float} {negative : Bool} {whole fraction : List Char} (hx : x.isFinite = true)
      (hscan : Json.scanToken (Json.Numeral.real x).write =
        some (.number (Json.Numeral.ofParts? negative whole fraction none), []))
      (hparts : Json.Numeral.ofParts? negative whole fraction none = some (.real x)) :
      Json.parse? (Json.ofFloat x).write = some (Json.ofFloat x) := by
    rw [hparts] at hscan
    rw [Json.ofFloat, if_pos hx]
    exact Json.parse?_write (.number (Json.Numeral.readsBack_of_scanToken hscan))
  obtain rfl | rfl | rfl := h
  · exact hread (by decide +kernel) rfl (by decide +kernel)
  · exact hread (by decide +kernel) rfl (by decide +kernel)
  · exact hread (by decide +kernel) rfl (by decide +kernel)

/-- A store with a number, a zero with a sign, and what is not finite. -/
def mixed : Registers :=
  ofList [("total", 12.5), ("debt", Number.zero true), ("big", Number.infinity false),
    ("low", Number.infinity true), ("gap", Number.nan)]

/-- The same, written in another order and over another number. -/
def mixedAgain : Registers :=
  ((((new.copy "none" "gap").set "low" (Number.infinity true)).set "debt" 7).set "total" 12.5
    |>.set "big" (Number.infinity false)).set "debt" (Number.zero true)

theorem read?_snapshot_mixed :
    (mixed.Reachable ∧ mixedAgain.Reachable ∧ ∀ name, mixedAgain.get? name = mixed.get? name) ∧
      shape.read? mixed.toJson.write = some mixed ∧
        mixedAgain.toJson.write = mixed.toJson.write := by
  have hmixed : mixed.Reachable := .built (.ofList _)
  have hagain : mixedAgain.Reachable :=
    .set (.set (.set (.set (.set (.copy (.built .new) _ _) _ _) _ _) _ _) _ _) _ _
  have hfinite : ∀ e ∈ mixed.toList, e.2.isFinite = true →
      e.2 = Number.zero false ∨ e.2 = Number.zero true ∨ e.2 = 12.5 := by
    decide +kernel
  have hnumbers : ∀ name x, mixed.get? name = some x → x.isFinite = true →
      Json.parse? (Json.ofFloat x).write = some (Json.ofFloat x) := by
    intro name x hx hfin
    obtain ⟨before, after, hsplit, -⟩ := List.lookup_eq_some_iff.1 hx
    have hmem : (name, x) ∈ mixed.toList := by simp [hsplit]
    exact parse?_mixed (hfinite _ hmem hfin)
  have hlist : mixedAgain.toList = mixed.toList := by decide +kernel
  have hsame (name : String) : mixedAgain.get? name = mixed.get? name := by
    rw [get?, hlist, ← get?]
  obtain ⟨hread, htext, -⟩ := read?_snapshot hmixed
  exact ⟨⟨hmixed, hagain, hsame⟩, hread hnumbers, htext mixedAgain hagain hsame⟩

end Registers

end Reckoner
