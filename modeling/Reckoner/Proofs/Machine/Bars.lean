import Reckoner.Proofs.Machine.Calls
import Reckoner.Proofs.Program.Tidy

/-!
# Bars that are skipped

Bars stand in pairs, as far as the words of a program tell. A machine goes by the pairs
unless it skips a bar (`Call.gathers_iff`).
-/

namespace Reckoner

open Machine (advance)
open Program (instruction isBar bars)

theorem Program.bars_append_singleton (before : List String) (token : String) :
    bars (before ++ [token]) = bars before + if isBar token = true then 1 else 0 := by
  cases hbar : isBar token with
  | true => exact bars_append_bar before hbar
  | false => exact bars_append before (by simpa using hbar)

namespace Call

variable {c : Call} {depth : Nat} {before : List String}

/-- Among some words of a call, one of the bars is skipped. -/
def SkipsBar (depth : Nat) (c : Call) (before : List String) : Prop :=
  ∃ left bar, left ++ [bar] <+: before ∧ isBar bar = true ∧ (c.after depth left).mode = .skipping

/-- Where no bar is skipped, a machine gathers after an odd number of bars. -/
theorem gathers_iff (h : ¬c.SkipsBar depth before) :
    (∃ tokens, (c.after depth before).mode = .gathering tokens) ↔ bars before % 2 = 1 := by
  induction before using List.reverseRecOn with
  | nil => exact ⟨fun ⟨_, htokens⟩ => Mode.noConfusion htokens, nofun⟩
  | append_singleton before token ih =>
    have hbefore : ¬c.SkipsBar depth before := fun ⟨left, bar, hinitial, hbar⟩ =>
      h ⟨left, bar, hinitial.trans (List.prefix_append _ _), hbar⟩
    have hskip : isBar token = true → (c.after depth before).mode ≠ .skipping := fun hbar hmode =>
      h ⟨before, token, List.prefix_refl _, hbar, hmode⟩
    have ih := ih hbefore
    rw [after_append_singleton, Program.bars_append_singleton]
    generalize c.after depth before = m at ih hskip
    obtain ⟨stack, mode, r⟩ := m
    cases mode with
    | running =>
      have heven : ¬bars before % 2 = 1 := fun hodd => by
        obtain ⟨tokens, htokens⟩ := ih.2 hodd
        cases htokens
      by_cases hbar : isBar token = true
      · have hgather : advance (foldNested depth) ⟨stack, .running, r⟩ (instruction token) =
            ⟨stack, .gathering [], r⟩ := by
          rw [Machine.advance_running, Program.isBar_iff.1 hbar]
          rfl
        rw [hgather, if_pos hbar]
        exact ⟨fun _ => by omega, fun _ => ⟨[], rfl⟩⟩
      · rw [Machine.advance_running, if_neg hbar]
        refine ⟨fun ⟨tokens, htokens⟩ => ?_, fun hodd => absurd hodd heven⟩
        exact absurd htokens (Machine.mode_perform (mt Program.isBar_iff.2 hbar) tokens)
    | skipping =>
      have heven : ¬bars before % 2 = 1 := fun hodd => by
        obtain ⟨tokens, htokens⟩ := ih.2 hodd
        cases htokens
      rw [Machine.advance_skipping, if_neg fun hbar => hskip hbar rfl]
      refine ⟨fun ⟨tokens, htokens⟩ => ?_, fun hodd => absurd hodd heven⟩
      split at htokens <;> cases htokens
    | gathering tokens =>
      have hodd := ih.1 ⟨tokens, rfl⟩
      rw [Machine.advance_gathering]
      by_cases hbar : isBar token = true
      · rw [if_pos hbar, if_pos (Program.isBar_iff.1 hbar)]
        exact ⟨fun ⟨_, h⟩ => Mode.noConfusion h, fun h => by omega⟩
      · rw [if_neg hbar, if_neg (mt Program.isBar_iff.2 hbar)]
        exact ⟨fun _ => hodd, fun _ => ⟨_, rfl⟩⟩

/-- A machine that runs after a bar has gathered before it. -/
theorem gathering_of_running {left : List String} {bar : String} (hbar : isBar bar = true)
    (h : (c.after depth (left ++ [bar])).mode = .running) :
    ∃ tokens, (c.after depth left).mode = .gathering tokens := by
  rw [after_append_singleton] at h
  have hop := Program.isBar_iff.1 hbar
  generalize c.after depth left = m at h
  obtain ⟨stack, mode, r⟩ := m
  cases mode with
  | running =>
    rw [Machine.advance_running, hop] at h
    cases h
  | skipping =>
    rw [Machine.advance_skipping, hop, if_neg nofun] at h
    cases h
  | gathering tokens => exact ⟨tokens, rfl⟩

end Call

end Reckoner
