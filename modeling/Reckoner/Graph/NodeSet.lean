/-!
# Sets of small numbers

A set of numbers below a bound, one bit for each number, in words of 64 bits.
The last word may have room for numbers at and above the bound. The number of words
is computed in the natural numbers: bounds so close to `2 ^ 64` that adding 63 does
not fit a word are left out.

* `contains_insert`, `contains_erase`: what a change does to membership;
* `le_capacity`: there is room for all numbers below the bound.
-/

namespace Reckoner

/-- A set of numbers below `n`. -/
structure NodeSet (n : Nat) where
  words : Vector (BitVec 64) ((n + 63) / 64)

namespace NodeSet

variable {n : Nat}

/-- The set without members. -/
def empty (n : Nat) : NodeSet n :=
  ⟨Vector.replicate _ 0⟩

/-- The numbers that a set has room for are those below its capacity. -/
def capacity (_ : NodeSet n) : Nat :=
  64 * ((n + 63) / 64)

/-- Whether a number is a member. -/
def contains (s : NodeSet n) (i : Nat) : Bool :=
  match s.words[i / 64]? with
  | some word => word.getLsbD (i % 64)
  | none => false

/-- The set with the word that has the bit of `i` changed by `f`. -/
def update (s : NodeSet n) (i : Nat) (f : BitVec 64 → BitVec 64) : NodeSet n :=
  if h : i / 64 < (n + 63) / 64 then ⟨s.words.set (i / 64) (f s.words[i / 64])⟩ else s

/-- The set with a number put in; one that there is no room for changes nothing. -/
def insert (s : NodeSet n) (i : Nat) : NodeSet n :=
  s.update i (· ||| BitVec.twoPow 64 (i % 64))

/-- The set with a number taken out. -/
def erase (s : NodeSet n) (i : Nat) : NodeSet n :=
  s.update i (· &&& ~~~BitVec.twoPow 64 (i % 64))

/-- The number of members. -/
def size (s : NodeSet n) : Nat :=
  -- not `List.sum`, which takes its zero from the instances that happen to be imported
  (s.words.toList.map fun word => (List.range 64).countP word.getLsbD).foldr (· + ·) 0

/-- There is room for all numbers below the bound. -/
theorem le_capacity (s : NodeSet n) : n ≤ s.capacity := by
  unfold capacity
  omega

theorem word_lt_iff (s : NodeSet n) (i : Nat) : i / 64 < (n + 63) / 64 ↔ i < s.capacity := by
  unfold capacity
  omega

theorem contains_empty (i : Nat) : (empty n).contains i = false := by
  unfold contains empty
  split
  · next h =>
    obtain ⟨_, rfl⟩ := Vector.getElem?_eq_some_iff.1 h
    simp
  · rfl

/-- Changing one word changes membership by what happens to its bits. -/
theorem contains_update (s : NodeSet n) {i : Nat} (hi : i < s.capacity)
    (f : BitVec 64 → BitVec 64) (j : Nat) :
    (s.update i f).contains j =
      if i / 64 = j / 64 then
        (s.words[i / 64]?.map fun word => (f word).getLsbD (j % 64)).getD false
      else s.contains j := by
  have hw := (s.word_lt_iff i).2 hi
  simp only [update, dif_pos hw, contains, Vector.getElem?_set]
  by_cases h : i / 64 = j / 64
  · simp [h, h ▸ hw]
  · simp [h]

theorem contains_insert (s : NodeSet n) {i : Nat} (hi : i < s.capacity) (j : Nat) :
    (s.insert i).contains j = (decide (i = j) || s.contains j) := by
  have hw := (s.word_lt_iff i).2 hi
  rw [insert, contains_update s hi]
  split
  · next h =>
    have hm : j % 64 < 64 := Nat.mod_lt _ (by decide)
    have hij : i = j ↔ i % 64 = j % 64 := by omega
    simp only [contains, ← h, Vector.getElem?_eq_getElem hw, Option.map_some, Option.getD_some,
      BitVec.getLsbD_or, BitVec.getLsbD_twoPow, hij]
    by_cases he : i % 64 = j % 64 <;> simp [he, hm]
  · next h =>
    have : ¬i = j := fun he => h (by rw [he])
    simp [this]

theorem contains_erase (s : NodeSet n) {i : Nat} (hi : i < s.capacity) (j : Nat) :
    (s.erase i).contains j = (!decide (i = j) && s.contains j) := by
  have hw := (s.word_lt_iff i).2 hi
  rw [erase, contains_update s hi]
  split
  · next h =>
    have hm : j % 64 < 64 := Nat.mod_lt _ (by decide)
    have hij : i = j ↔ i % 64 = j % 64 := by omega
    simp only [contains, ← h, Vector.getElem?_eq_getElem hw, Option.map_some, Option.getD_some,
      BitVec.getLsbD_and, BitVec.getLsbD_not, BitVec.getLsbD_twoPow, hij]
    by_cases he : i % 64 = j % 64 <;> simp [he, hm]
  · next h =>
    have : ¬i = j := fun he => h (by rw [he])
    simp [this]

theorem update_of_capacity_le (s : NodeSet n) {i : Nat} (hi : s.capacity ≤ i)
    (f : BitVec 64 → BitVec 64) : s.update i f = s := by
  have hw : ¬i / 64 < (n + 63) / 64 := fun h => Nat.not_lt.2 hi ((s.word_lt_iff i).1 h)
  rw [update, dif_neg hw]

end NodeSet

end Reckoner
