import Reckoner.Proofs.Dependency.Scan
import Reckoner.Proofs.Machine.Bars

/-!
# The registers of a fold

A fold that is executed directly after a bar reads the registers that the words before
the bar name. The scan takes bars in pairs from the left, so it finds these registers if
the machine does too. If it misses one, then the machine has skipped a bar
(`Call.skipsBar_of_fold_missed`).
-/

namespace Reckoner

open Program (isBar sinceBar bars)

namespace Call

/-- The scan misses a register of a fold, directly after a bar and over no more registers
than are tracked, only if the machine has skipped a bar, so that it gathers where a
template ends as far as the words tell. -/
theorem skipsBar_of_fold_missed {expression : String} {r : Registers} {left : List String}
    {bar token s : String} {t : Template} {index : Int}
    (hexec : (ofExpression expression r).Executes 2 (left ++ [bar]) token)
    (hbar : isBar bar = true) (hop : Opcode.ofToken token = .eachRegister)
    (hpop : ((ofExpression expression r).after 2 (left ++ [bar])).pop.1 = .text s)
    (ht : Template.parse? s = some t)
    (hfew : t.range.last - t.range.first < Dependencies.maxTracked)
    (hfirst : t.range.first ≤ index) (hlast : index ≤ t.range.last)
    (hmissed :
      .register (t.range.register index) ∉ (Dependencies.analyze none expression).requires) :
    bars left % 2 = 0 ∧ (ofExpression expression r).SkipsBar 2 left := by
  obtain ⟨after, heq⟩ := hexec.exists_after
  change Text.words expression = _ at heq
  rw [List.append_assoc, List.singleton_append] at heq
  have hgathered : ∀ w ∈ sinceBar left, Text.IsWord w.toList := fun w hw =>
    Text.isWord_of_mem_words (heq ▸ List.mem_append_left _ (Program.sinceBar_subset left hw))
  have htext := (pop_after_bar hexec hbar).symm.trans hpop
  obtain rfl := Value.text.inj htext
  obtain ⟨hrange, -⟩ := Template.parse?_unwords hgathered ht
  have heven : ¬bars left % 2 = 1 := by
    intro hodd
    refine hmissed (Dependencies.mem_requires_of_template none heq hbar hodd hop hrange ?_ ?_
      (Program.isReserved_register _ _))
    · unfold RegisterRange.size
      omega
    · refine List.mem_map.2 ⟨(index - t.range.first).toNat, List.mem_range.2 ?_, ?_⟩
      · unfold RegisterRange.size
        omega
      · rw [show t.range.first + ((index - t.range.first).toNat : Int) = index by omega]
  refine ⟨by omega, ?_⟩
  by_contra hskip
  exact heven ((gathers_iff hskip).1 (gathering_of_running hbar hexec.2))

/-- A jump over the first of three bars, and a fold directly after the third. -/
def mispaired : String := "1 ~l jmpnz | \x7d | R 1 3 0 + | eachreg"

/-- The words of the expression before its third bar. -/
def mispairedLeft : List String := ["1", "~l", "jmpnz", "|", "\x7d", "|", "R", "1", "3", "0", "+"]

theorem parse?_mispaired : ∃ t, Template.parse? "R 1 3 0 +" = some t ∧ t.range = ⟨"R", 1, 3⟩ :=
  Option.map_eq_some_iff.1 (by decide +kernel)

theorem executes_mispaired :
    (ofExpression mispaired Registers.new).Executes 2 (mispairedLeft ++ ["|"]) "eachreg" ∧
      isBar "|" = true ∧ Opcode.ofToken "eachreg" = .eachRegister ∧
        ((ofExpression mispaired Registers.new).after 2 (mispairedLeft ++ ["|"])).pop.1 =
          .text "R 1 3 0 +" := by decide +kernel

/-- The fold goes through three registers, and the scan finds none of them. -/
theorem fold_mispaired :
    (∃ left bar token s t,
      (ofExpression mispaired Registers.new).Executes 2 (left ++ [bar]) token ∧
        isBar bar = true ∧ Opcode.ofToken token = .eachRegister ∧
          ((ofExpression mispaired Registers.new).after 2 (left ++ [bar])).pop.1 = .text s ∧
            Template.parse? s = some t ∧ t.range = ⟨"R", 1, 3⟩) ∧
      (Dependencies.analyze none mispaired).requires = [] := by
  obtain ⟨t, ht, hrange⟩ := parse?_mispaired
  obtain ⟨hexec, hbar, hop, hpop⟩ := executes_mispaired
  exact ⟨⟨_, _, _, _, t, hexec, hbar, hop, hpop, ht, hrange⟩, by decide +kernel⟩

/-- The first bar has been skipped. -/
theorem skipsBar_mispaired :
    bars mispairedLeft % 2 = 0 ∧
      (ofExpression mispaired Registers.new).SkipsBar 2 mispairedLeft := by
  obtain ⟨t, ht, hrange⟩ := parse?_mispaired
  obtain ⟨hexec, hbar, hop, hpop⟩ := executes_mispaired
  have hmissed :
      .register (t.range.register 1) ∉ (Dependencies.analyze none mispaired).requires := by
    rw [hrange]
    decide +kernel
  have hspan : t.range.last - t.range.first < Dependencies.maxTracked ∧ t.range.first ≤ 1 ∧
      1 ≤ t.range.last := by
    rw [hrange]
    decide
  exact skipsBar_of_fold_missed hexec hbar hop hpop ht hspan.1 hspan.2.1 hspan.2.2 hmissed

end Call

end Reckoner
