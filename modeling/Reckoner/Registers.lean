import Reckoner.Number.Double

/-!
# Registers

Named numbers that outlive the evaluation that writes them. They are kept
sorted by name and one number per name, so that two stores with the same
contents are equal.

Two registers belong to the machine: `INTERMEDIATE` holds the side result of
the last rounding, percentage or average, and `LAST` the result of the last
evaluation. A store begins with both of them at zero and returns to that when it
is reset.

* `get?_set_self`, `get?_set_of_ne`: a write changes one register;
* `Registers.ext_get?`: a store is what its registers hold.
-/

namespace Reckoner

/-- Numbers by name, the names strictly ascending. -/
structure Registers where
  toList : List (String × Float)
  sorted : toList.Pairwise fun a b => a.1 < b.1

namespace Registers

/-- The register for side results. -/
def intermediateName : String := "INTERMEDIATE"

/-- The register for the last result. -/
def lastName : String := "LAST"

/-- Whether a register belongs to the machine. -/
def isReserved (name : String) : Bool :=
  name == intermediateName || name == lastName

/-! ## Sorted lists of named numbers -/

/-- The list with a number under a name, in place of the one that is there. -/
def insert (name : String) (x : Float) : List (String × Float) → List (String × Float)
  | [] => [(name, x)]
  | (n, y) :: rest =>
    if name < n then (name, x) :: (n, y) :: rest
    else if name = n then (name, x) :: rest
    else (n, y) :: insert name x rest

theorem mem_insert {name : String} {x : Float} {l : List (String × Float)} {e : String × Float}
    (h : e ∈ insert name x l) : e = (name, x) ∨ e ∈ l := by
  induction l with
  | nil => simpa [insert] using h
  | cons d rest ih =>
    simp only [insert] at h
    split at h
    · simpa using h
    · split at h
      · rcases List.mem_cons.1 h with h | h
        · exact .inl h
        · exact .inr (List.mem_cons_of_mem _ h)
      · rcases List.mem_cons.1 h with h | h
        · exact .inr (h ▸ List.mem_cons_self)
        · exact (ih h).imp_right (List.mem_cons_of_mem _)

theorem lt_of_not_lt_of_ne {a b : String} (h : ¬a < b) (hn : a ≠ b) : b < a := by
  rcases String.le_total a b with hab | hba
  · exact absurd (String.le_antisymm hab (String.not_lt.1 h)) hn
  · refine String.not_le.1 fun hab => hn (String.le_antisymm hab hba)

theorem sorted_insert (name : String) (x : Float) {l : List (String × Float)}
    (h : l.Pairwise fun a b => a.1 < b.1) : (insert name x l).Pairwise fun a b => a.1 < b.1 := by
  induction l with
  | nil => simp [insert]
  | cons d rest ih =>
    obtain ⟨hd, hrest⟩ := List.pairwise_cons.1 h
    simp only [insert]
    split
    · next hlt =>
      refine List.pairwise_cons.2 ⟨fun e he => ?_, h⟩
      rcases List.mem_cons.1 he with rfl | he
      · exact hlt
      · exact String.lt_trans hlt (hd e he)
    · split
      · next heq => exact List.pairwise_cons.2 ⟨fun e he => heq ▸ hd e he, hrest⟩
      · next hlt hne =>
        refine List.pairwise_cons.2 ⟨fun e he => ?_, ih hrest⟩
        rcases mem_insert he with rfl | he
        · exact lt_of_not_lt_of_ne hlt hne
        · exact hd e he

theorem lookup_insert_self (name : String) (x : Float) (l : List (String × Float)) :
    (insert name x l).lookup name = some x := by
  induction l with
  | nil => simp [insert]
  | cons d rest ih =>
    obtain ⟨n, y⟩ := d
    simp only [insert]
    split
    · simp
    · split
      · simp
      · next hne => rw [List.lookup_cons, beq_false_of_ne hne, ih]

theorem lookup_insert_of_ne {name other : String} (hne : other ≠ name) (x : Float)
    (l : List (String × Float)) : (insert name x l).lookup other = l.lookup other := by
  have hb : (other == name) = false := beq_false_of_ne hne
  induction l with
  | nil => rw [insert, List.lookup_cons, hb]
  | cons d rest ih =>
    obtain ⟨n, y⟩ := d
    simp only [insert]
    split
    · rw [List.lookup_cons, hb]
    · split
      · next heq => rw [List.lookup_cons, List.lookup_cons, ← heq, hb]
      · rw [List.lookup_cons, List.lookup_cons, ih]

theorem lookup_eq_none_of_lt {l : List (String × Float)} {name : String}
    (h : ∀ e ∈ l, name < e.1) : l.lookup name = none :=
  List.lookup_eq_none_iff.2 fun e he => bne_iff_ne.2 (String.ne_of_lt (h e he))

theorem lookup_head (n : String) (y : Float) (l : List (String × Float)) :
    ((n, y) :: l).lookup n = some y := by
  simp

/-- The least name of one sorted list is not below that of another which holds
the same. -/
theorem not_lt_head {n m : String} {y z : Float} {l k : List (String × Float)}
    (hk : ∀ e ∈ k, m < e.1) (h : ((n, y) :: l).lookup n = ((m, z) :: k).lookup n) : ¬n < m := by
  intro hlt
  have hall : ∀ e ∈ (m, z) :: k, n < e.1 := by
    intro e he
    rcases List.mem_cons.1 he with rfl | he
    · exact hlt
    · exact String.lt_trans hlt (hk e he)
  rw [lookup_eq_none_of_lt hall, lookup_head] at h
  cases h

theorem eq_of_lookup_eq {l k : List (String × Float)} (hl : l.Pairwise fun a b => a.1 < b.1)
    (hk : k.Pairwise fun a b => a.1 < b.1) (h : ∀ name, l.lookup name = k.lookup name) :
    l = k := by
  induction l generalizing k with
  | nil =>
    cases k with
    | nil => rfl
    | cons e k =>
      have he := h e.1
      rw [lookup_head] at he
      cases he
  | cons d l ih =>
    obtain ⟨n, y⟩ := d
    cases k with
    | nil =>
      have hd := h n
      rw [lookup_head] at hd
      cases hd
    | cons e k =>
      obtain ⟨m, z⟩ := e
      obtain ⟨hd, hl'⟩ := List.pairwise_cons.1 hl
      obtain ⟨he, hk'⟩ := List.pairwise_cons.1 hk
      have hname : n = m :=
        String.le_antisymm (String.not_lt.1 (not_lt_head hd (h m).symm))
          (String.not_lt.1 (not_lt_head he (h n)))
      subst hname
      have hvalue := h n
      rw [lookup_head, lookup_head, Option.some.injEq] at hvalue
      subst hvalue
      congr 1
      refine ih hl' hk' fun name => ?_
      by_cases hn : name = n
      · rw [hn, lookup_eq_none_of_lt hd, lookup_eq_none_of_lt he]
      · have hrest := h name
        rwa [List.lookup_cons, List.lookup_cons, beq_false_of_ne hn] at hrest

/-! ## Stores -/

/-- The number in a register. -/
def get? (r : Registers) (name : String) : Option Float :=
  r.toList.lookup name

/-- The store with a number in a register. -/
def set (r : Registers) (name : String) (x : Float) : Registers :=
  ⟨insert name x r.toList, sorted_insert name x r.sorted⟩

/-- The store that holds nothing but the machine's registers, both zero. -/
def new : Registers :=
  (Registers.set ⟨[], .nil⟩ intermediateName (Number.zero false)).set lastName (Number.zero false)

/-- A new store with these numbers written to it, later ones last. -/
def ofList (l : List (String × Float)) : Registers :=
  l.foldl (fun r e => r.set e.1 e.2) new

/-- Whether a register has been written since the last reset. -/
def contains (r : Registers) (name : String) : Bool :=
  (r.get? name).isSome

/-- The number of registers. -/
def size (r : Registers) : Nat :=
  r.toList.length

/-- The store with one register copied to another; what was never written is
copied as no number. -/
def copy (r : Registers) (source destination : String) : Registers :=
  r.set destination ((r.get? source).getD Number.nan)

/-- The side result of the last operation that has one. -/
def intermediate (r : Registers) : Float :=
  (r.get? intermediateName).getD (Number.zero false)

/-- The result of the last evaluation. -/
def last (r : Registers) : Float :=
  (r.get? lastName).getD (Number.zero false)

/-- The store with a new side result. -/
def setIntermediate (r : Registers) (x : Float) : Registers :=
  r.set intermediateName x

/-- The store with a new last result. -/
def setLast (r : Registers) (x : Float) : Registers :=
  r.set lastName x

@[simp] theorem get?_set_self (r : Registers) (name : String) (x : Float) :
    (r.set name x).get? name = some x :=
  lookup_insert_self name x r.toList

theorem get?_set_of_ne (r : Registers) {name other : String} (h : other ≠ name) (x : Float) :
    (r.set name x).get? other = r.get? other :=
  lookup_insert_of_ne h x r.toList

/-- A store is what its registers hold. -/
theorem ext_get? {r s : Registers} (h : ∀ name, r.get? name = s.get? name) : r = s := by
  obtain ⟨l, hl⟩ := r
  obtain ⟨m, hm⟩ := s
  have := eq_of_lookup_eq hl hm h
  subst this
  rfl

end Registers

end Reckoner
