import Mathlib.Data.Finset.Card
import Reckoner.Graph.NodeSet

/-!
# Bit sets as finite sets

A bit set stands for the finite set of the numbers whose bits are set (`NodeSet.Represents`). One
change of a number that there is room for sets or clears one bit, so it does to the bit set what it
does to the finite set (`Represents.change`), and so does a run of changes from the empty set on
(`represents_run`). The count of the set bits, word by word, is the number of members
(`Represents.size_eq`).
-/

namespace Reckoner.NodeSet

variable {n : Nat} {s : NodeSet n} {members : Finset Nat}

/-- A change of a set: a number is put in or taken out. -/
inductive Change where
  | insert (i : Nat)
  | erase (i : Nat)
  deriving DecidableEq

namespace Change

/-- The number that a change is about. -/
def index : Change → Nat
  | .insert i => i
  | .erase i => i

/-- What a change does to a bit set. -/
def onBits (s : NodeSet n) : Change → NodeSet n
  | .insert i => s.insert i
  | .erase i => s.erase i

/-- What a change does to a finite set. -/
def onMembers (members : Finset Nat) : Change → Finset Nat
  | .insert i => Insert.insert i members
  | .erase i => members.erase i

end Change

/-- The numbers of a finite set, and no others, are the members of the bit set. -/
def Represents (s : NodeSet n) (members : Finset Nat) : Prop :=
  ∀ i, s.contains i = decide (i ∈ members)

theorem represents_empty (n : Nat) : (empty n).Represents ∅ := fun i => by
  simp [contains_empty]

/-- A change of a number that there is room for is the same one on both sides. -/
theorem Represents.change (h : s.Represents members) {c : Change} (hc : c.index < s.capacity) :
    (c.onBits s).Represents (c.onMembers members) := by
  intro j
  cases c with
  | insert i =>
    have hi : i < s.capacity := hc
    rw [Change.onBits, contains_insert s hi, h j, ← Bool.decide_or, Change.onMembers]
    simp only [Finset.mem_insert, eq_comm]
  | erase i =>
    have hi : i < s.capacity := hc
    rw [Change.onBits, contains_erase s hi, h j, ← decide_not, ← Bool.decide_and, Change.onMembers]
    simp only [Finset.mem_erase, eq_comm, ne_eq]

/-- Changes one after another. -/
theorem Represents.run (h : s.Represents members) {changes : List Change}
    (hroom : ∀ c ∈ changes, c.index < s.capacity) :
    (changes.foldl Change.onBits s).Represents (changes.foldl Change.onMembers members) := by
  induction changes generalizing s members with
  | nil => exact h
  | cons c changes ih =>
    obtain ⟨hc, hrest⟩ := List.forall_mem_cons.1 hroom
    exact ih (h.change hc) hrest

/-- There are no members beyond the last word. -/
theorem contains_of_capacity_le (s : NodeSet n) {i : Nat} (h : s.capacity ≤ i) :
    s.contains i = false := by
  have hword : ¬i / 64 < (n + 63) / 64 := fun hlt => Nat.not_lt.2 h ((s.word_lt_iff i).1 hlt)
  rw [contains, Vector.getElem?_eq_none (Nat.le_of_not_lt hword)]

/-! ## Counting -/

/-- Counting the bits of each word counts the places of all words in a row. -/
theorem sum_countP (words : List (BitVec 64)) :
    (words.map fun word => (List.range 64).countP word.getLsbD).foldr (· + ·) 0 =
      (List.range (64 * words.length)).countP fun i =>
        (words[i / 64]?.map fun word => word.getLsbD (i % 64)).getD false := by
  induction words with
  | nil => rfl
  | cons word words ih =>
    have hfirst : (List.range 64).countP (fun i =>
        ((word :: words)[i / 64]?.map fun word => word.getLsbD (i % 64)).getD false) =
          (List.range 64).countP word.getLsbD := by
      refine List.countP_congr fun i hi => ?_
      have hlt := List.mem_range.1 hi
      rw [Nat.div_eq_of_lt hlt, Nat.mod_eq_of_lt hlt]
      rfl
    have hnext (i : Nat) : (64 + i) / 64 = i / 64 + 1 := by omega
    rw [List.map_cons, List.foldr_cons, ih, List.length_cons, Nat.mul_succ,
      Nat.add_comm (64 * words.length), List.range_add, List.countP_append, hfirst, List.countP_map]
    refine congrArg _ (List.countP_congr fun i _ => ?_)
    simp only [Function.comp_apply, hnext, List.getElem?_cons_succ, Nat.add_mod_left]

theorem size_eq_countP (s : NodeSet n) :
    s.size = (List.range s.capacity).countP s.contains := by
  rw [size, sum_countP, Vector.length_toList]
  refine List.countP_congr fun i _ => ?_
  rw [contains, Vector.getElem?_toList]
  cases s.words[i / 64]? <;> rfl

/-- The count of the set bits is the number of members. -/
theorem Represents.size_eq (h : s.Represents members) : s.size = members.card := by
  have hmembers : ((List.range s.capacity).filter s.contains).toFinset = members := by
    ext i
    rw [List.mem_toFinset, List.mem_filter, List.mem_range, h i, decide_eq_true_eq,
      and_iff_right_iff_imp]
    intro hi
    refine Nat.lt_of_not_le fun hle => ?_
    have hnot := contains_of_capacity_le s hle
    rw [h i, decide_eq_false_iff_not] at hnot
    exact hnot hi
  rw [size_eq_countP, List.countP_eq_length_filter, ← hmembers,
    List.toFinset_card_of_nodup (List.nodup_range.filter _)]

/-- After any changes within the words of a set its members are those that a finite set has after
the same changes, and nothing beyond the words. Its size is the number of them. All numbers below
the bound are within the words. -/
theorem represents_run (n : Nat) (changes : List Change)
    (h : ∀ c ∈ changes, c.index < (empty n).capacity) :
    (changes.foldl Change.onBits (empty n)).Represents (changes.foldl Change.onMembers ∅) ∧
      (∀ i, (empty n).capacity ≤ i → (changes.foldl Change.onBits (empty n)).contains i = false) ∧
      (changes.foldl Change.onBits (empty n)).size = (changes.foldl Change.onMembers ∅).card ∧
      ∀ i < n, i < (empty n).capacity := by
  have hrun := (represents_empty n).run h
  exact ⟨hrun, fun _ hi => contains_of_capacity_le _ hi, hrun.size_eq,
    fun _ hi => hi.trans_le (empty n).le_capacity⟩

/-- Numbers on both sides of the edge of a word, one of them beyond the bound but not beyond the
last word, and one that is taken out again. -/
def boundaryChanges : List Change :=
  [.insert 63, .insert 64, .insert 191, .insert 64, .erase 64, .erase 65]

theorem represents_boundaryChanges :
    (∀ c ∈ boundaryChanges, c.index < (empty 130).capacity) ∧
      (boundaryChanges.foldl Change.onMembers ∅ = {63, 191}) ∧
      (boundaryChanges.foldl Change.onBits (empty 130)).Represents {63, 191} ∧
      (boundaryChanges.foldl Change.onBits (empty 130)).size = 2 := by
  have hroom : ∀ c ∈ boundaryChanges, c.index < (empty 130).capacity := by decide
  have hmembers : boundaryChanges.foldl Change.onMembers ∅ = {63, 191} := by decide
  obtain ⟨hrun, -, hsize, -⟩ := represents_run 130 boundaryChanges hroom
  rw [hmembers] at hrun hsize
  exact ⟨hroom, hmembers, hrun, hsize⟩

end Reckoner.NodeSet
