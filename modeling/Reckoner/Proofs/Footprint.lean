import Reckoner.Registers

/-!
# Footprints on the registers

What a computation does to the registers, as the numbers that it writes one
after another (`Registers.write`), and which registers it depends on. A
computation has a footprint (`Footprint reads writes`) if its result and its
writes are the same from any two stores that agree on what it reads, and only
registers that it may write are written.

* `Footprint.result_eq`, `Footprint.unchanged`, `Footprint.unchanged_or_eq`: what a
  footprint says about two runs;
* `Footprint.bind`: one computation after another;
* `Footprint.comm`: two computations that can change places.
-/

namespace Reckoner

namespace Registers

/-- The store with numbers written to it, one after another. -/
def write (r : Registers) (l : List (String × Float)) : Registers :=
  l.foldl (fun r e => r.set e.1 e.2) r

/-- Two stores hold the same in all registers that `reads` selects. -/
def AgreeOn (reads : String → Prop) (r s : Registers) : Prop :=
  ∀ name, reads name → r.get? name = s.get? name

theorem write_append (r : Registers) (l l' : List (String × Float)) :
    r.write (l ++ l') = (r.write l).write l' := by
  simp only [write, List.foldl_append]

/-- A register holds what is written to it last. -/
theorem get?_write (r : Registers) (l : List (String × Float)) (name : String) :
    (r.write l).get? name = (l.reverse.lookup name).or (r.get? name) := by
  induction l generalizing r with
  | nil => rfl
  | cons e l ih =>
    rw [List.reverse_cons, List.lookup_append, Option.or_assoc]
    refine (ih (r.set e.1 e.2)).trans (congrArg _ ?_)
    by_cases h : name = e.1
    · rw [h, get?_set_self, List.lookup_cons, beq_self_eq_true]
      rfl
    · rw [get?_set_of_ne r h, List.lookup_cons, beq_false_of_ne h]
      rfl

theorem get?_write_of_notMem (r : Registers) {l : List (String × Float)} {name : String}
    (h : ∀ e ∈ l, e.1 ≠ name) : (r.write l).get? name = r.get? name := by
  have hnone : l.reverse.lookup name = none :=
    List.lookup_eq_none_iff.2 fun e he => bne_iff_ne.2 (h e (List.mem_reverse.1 he)).symm
  rw [get?_write, hnone, Option.none_or]

theorem get?_write_congr {r s : Registers} {name : String} (h : r.get? name = s.get? name)
    (l : List (String × Float)) : (r.write l).get? name = (s.write l).get? name := by
  rw [get?_write, get?_write, h]

/-- The same writes leave a register as it was in both of two stores, or they
make it the same in both. -/
theorem get?_write_or (r s : Registers) (l : List (String × Float)) (name : String) :
    ((r.write l).get? name = r.get? name ∧ (s.write l).get? name = s.get? name) ∨
      (r.write l).get? name = (s.write l).get? name := by
  simp only [get?_write]
  cases l.reverse.lookup name with
  | none => exact .inl ⟨Option.none_or, Option.none_or⟩
  | some x => exact .inr rfl

theorem AgreeOn.write {reads : String → Prop} {r s : Registers} (h : AgreeOn reads r s)
    (l : List (String × Float)) : AgreeOn reads (r.write l) (s.write l) :=
  fun name hname => get?_write_congr (h name hname) l

end Registers

open Registers (AgreeOn)

/-- From stores that agree on what it reads, a computation has the same result and
does the same writes, to registers that it may write. -/
def Footprint {α : Type} (reads writes : String → Prop) (f : Registers → α × Registers) : Prop :=
  ∀ r s, AgreeOn reads r s →
    ∃ a l, (∀ e ∈ l, writes e.1) ∧ f r = (a, r.write l) ∧ f s = (a, s.write l)

namespace Footprint

variable {α β : Type} {reads writes : String → Prop} {f : Registers → α × Registers}

/-- One computation after another, which depends on the result of the first. -/
theorem bind {g : α → Registers → β × Registers} (hf : Footprint reads writes f)
    (hg : ∀ r, Footprint reads writes (g (f r).1)) :
    Footprint reads writes fun r => g (f r).1 (f r).2 := by
  intro r s hrs
  obtain ⟨a, l, hl, hr, hs⟩ := hf r s hrs
  have hga := hg r
  rw [hr] at hga
  obtain ⟨b, l', hl', hr', hs'⟩ := hga (r.write l) (s.write l) (hrs.write l)
  refine ⟨b, l ++ l', fun e he => ?_, ?_, ?_⟩
  · exact (List.mem_append.1 he).elim (hl e) (hl' e)
  · simp only [hr, hr', Registers.write_append]
  · simp only [hs, hs', Registers.write_append]

/-- Two runs from stores that agree on the reads have the same result. -/
theorem result_eq (h : Footprint reads writes f) {r s : Registers} (hrs : AgreeOn reads r s) :
    (f r).1 = (f s).1 := by
  obtain ⟨a, l, -, hr, hs⟩ := h r s hrs
  rw [hr, hs]

/-- A register that is not written is left as it is. -/
theorem unchanged (h : Footprint reads writes f) (r : Registers) {name : String}
    (hname : ¬writes name) : (f r).2.get? name = r.get? name := by
  obtain ⟨a, l, hl, hr, -⟩ := h r r fun _ _ => rfl
  rw [hr]
  exact r.get?_write_of_notMem fun e he heq => hname (heq ▸ hl e he)

/-- A register is left as it is in both of two runs, or the same in both after
them. -/
theorem unchanged_or_eq (h : Footprint reads writes f) {r s : Registers}
    (hrs : AgreeOn reads r s) (name : String) :
    ((f r).2.get? name = r.get? name ∧ (f s).2.get? name = s.get? name) ∨
      (f r).2.get? name = (f s).2.get? name := by
  obtain ⟨a, l, -, hr, hs⟩ := h r s hrs
  rw [hr, hs]
  exact r.get?_write_or s l name

/-- Registers that agree before two runs agree after them. -/
theorem get?_congr (h : Footprint reads writes f) {r s : Registers} (hrs : AgreeOn reads r s)
    {name : String} (hname : r.get? name = s.get? name) :
    (f r).2.get? name = (f s).2.get? name := by
  obtain ⟨a, l, -, hr, hs⟩ := h r s hrs
  rw [hr, hs]
  exact Registers.get?_write_congr hname l

/-- Two computations that write nothing that the other reads can change places: the
results stay, and so do the registers that not both write. -/
theorem comm {reads' writes' : String → Prop} {g : Registers → β × Registers}
    (hf : Footprint reads writes f) (hg : Footprint reads' writes' g)
    (hfg : ∀ name, writes name → ¬reads' name) (hgf : ∀ name, writes' name → ¬reads name)
    (r : Registers) :
    (g (f r).2).1 = (g r).1 ∧ (f (g r).2).1 = (f r).1 ∧
      ∀ name, ¬(writes name ∧ writes' name) →
        (g (f r).2).2.get? name = (f (g r).2).2.get? name := by
  have hr : AgreeOn reads' (f r).2 r := fun name hname => hf.unchanged r fun h => hfg name h hname
  have hr' : AgreeOn reads (g r).2 r := fun name hname => hg.unchanged r fun h => hgf name h hname
  refine ⟨hg.result_eq hr, hf.result_eq hr', fun name hname => ?_⟩
  by_cases hwrites : writes name
  · have hwrites' : ¬writes' name := fun h => hname ⟨hwrites, h⟩
    rw [hg.unchanged _ hwrites']
    exact (hf.get?_congr hr' (hg.unchanged r hwrites')).symm
  · rw [hf.unchanged _ hwrites]
    exact hg.get?_congr hr (hf.unchanged r hwrites)

end Footprint

end Reckoner
