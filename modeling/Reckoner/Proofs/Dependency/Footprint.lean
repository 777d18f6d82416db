import Reckoner.Proofs.Machine.Run
import Reckoner.Proofs.Program.Tidy

/-!
# What an expression touches

A tidy program reads no registers but those that it says, and writes no others
but the machine's own (`Program.Tidy.run_footprint`). The dependency scan lists
them all (`Dependencies.mem_requires`, `Dependencies.mem_provides`).
-/

namespace Reckoner

open Machine (Permitted Tracks)

namespace Program

variable {literal reads writes : String → Prop} {tokens before after : List String}
  {token : String}

/-- A machine that keeps track of words that end with the operands of an opcode has
them on its stack. -/
theorem permitted_of_hasOperands {fold : Fold} {op : Opcode} (left : List String) {ws : List String}
    {stack : List Value} (hreset : op ≠ .reset) (hfold : op ≠ .eachRegister)
    (h : HasOperands literal (operandCount op) ws)
    (hreads : ∀ name, loadedAt (left ++ ws) op = some name → reads name)
    (hwrites : ∀ name, storedAt (left ++ ws) op = some name → writes name)
    (htracks : Tracks ws (stack, .running)) : Permitted fold reads writes stack op := by
  have hlength := h.length_le
  obtain ⟨rest, hstack⟩ := htracks.operands rfl
  obtain ⟨below, hbelow⟩ := operandsBefore_prefix left ws
  simp only at hstack
  rw [← hstack]
  cases op with
  | load =>
    obtain ⟨v, vs, hv⟩ := List.exists_cons_of_length_pos hlength
    rw [hv] at hbelow ⊢
    exact ⟨v, vs ++ rest, rfl, hreads _ (by rw [loadedAt, ← hbelow]; rfl)⟩
  | store =>
    obtain ⟨v, vs, hv⟩ := List.exists_cons_of_length_pos hlength
    rw [hv] at hbelow ⊢
    exact ⟨v, vs ++ rest, rfl, hwrites _ (by rw [storedAt, ← hbelow]; rfl)⟩
  | copyRegister =>
    obtain ⟨v, vs, hv⟩ := List.exists_cons_of_length_pos (Nat.lt_of_lt_of_le Nat.two_pos hlength)
    rw [hv] at hlength hbelow ⊢
    obtain ⟨w, vs, rfl⟩ := List.exists_cons_of_length_pos (Nat.le_of_succ_le_succ hlength)
    exact ⟨v, w, vs ++ rest, rfl, hreads _ (by rw [loadedAt, ← hbelow]; rfl),
      hwrites _ (by rw [storedAt, ← hbelow]; rfl)⟩
  | reset => exact absurd rfl hreset
  | eachRegister => exact absurd rfl hfold
  | _ => exact trivial

/-- A word of a template that ends with a bar is placed in it. -/
theorem Tidy.placed_template (h : Tidy literal tokens) {left : List String} {bar : String}
    (heq : tokens = left ++ bar :: after) (hbar : isBar bar = true) (hodd : bars left % 2 = 1)
    {ws ws' : List String} (hws : (sinceBar left).drop 4 = ws ++ token :: ws') :
    ∃ before after', tokens = before ++ token :: after' ∧ scope before after' = ws ∧
      bars before % 2 = 1 ∧ Placed literal before token after' := by
  obtain ⟨outer, hleft, houter⟩ := exists_append_sinceBar left
  have hinner : ∀ w ∈ sinceBar left, isBar w = false := fun w hw => isBar_of_mem_sinceBar hw
  generalize sinceBar left = inner at hws hleft hinner
  subst hleft
  have hlength : (inner.take 4).length = 4 := by
    have hdrop := congrArg List.length hws
    rw [List.length_drop, List.length_append, List.length_cons] at hdrop
    rw [List.length_take]
    omega
  rw [← List.take_append_drop 4 inner, hws] at heq hinner hodd
  have hword : ∀ w ∈ inner.take 4 ++ ws, isBar w = false := by
    intro w hw
    refine hinner w ?_
    rw [← List.append_assoc]
    exact List.mem_append_left _ hw
  have hsplit : tokens = (outer ++ (inner.take 4 ++ ws)) ++ token :: (ws' ++ bar :: after) := by
    rw [heq]
    simp only [List.append_assoc, List.cons_append]
  have hbars : bars (outer ++ (inner.take 4 ++ ws)) % 2 = 1 := by
    rw [bars_append _ hword, ← hodd, bars_append _ hinner]
  refine ⟨_, _, hsplit, ?_, hbars, h.placed hsplit⟩
  have hclosed : 0 < bars (ws' ++ bar :: after) := List.countP_pos_iff.2 ⟨bar, by simp, hbar⟩
  rw [scope, if_pos ⟨hbars, hclosed⟩, sinceBar_append _ hword, houter, List.nil_append,
    List.drop_left' hlength]

/-- The body of a template in a tidy program is tame, whatever `eachreg` means, which
it does not hold. -/
theorem Tidy.tame_body (h : Tidy literal tokens) (fold : Fold) {left : List String} {bar : String}
    (heq : tokens = left ++ bar :: after) (hbar : isBar bar = true) (hodd : bars left % 2 = 1)
    (hreads : ∀ name, Reads tokens name → reads name)
    (hwrites : ∀ name, Writes tokens name → writes name) :
    Tame fold reads writes ((sinceBar left).drop 4) := by
  intro ws token ws' hws stack htracks
  obtain ⟨before, after', hsplit, hscope, hbars, hreset, hoperands, htemplate⟩ :=
    h.placed_template heq hbar hodd hws
  rw [hscope] at hoperands
  obtain ⟨outer, hbefore⟩ := hscope ▸ scope_suffix before after'
  refine permitted_of_hasOperands outer hreset (fun hfold => ?_) hoperands
    (fun name hname => hreads name ⟨before, token, after', hsplit, .inl (hbefore ▸ hname)⟩)
    (fun name hname => hwrites name ⟨before, token, after', hsplit, hbefore ▸ hname⟩) htracks
  have heven := (htemplate hfold).2.1
  omega

theorem isReserved_intermediateName : Registers.isReserved Registers.intermediateName = true := by
  decide

theorem isReserved_lastName : Registers.isReserved Registers.lastName = true := by
  decide

/-- A tidy program touches what it says, and the registers of the machine. -/
theorem Tidy.run_footprint (h : Tidy literal tokens)
    (hwords : ∀ w ∈ tokens, Text.IsWord w.toList)
    (hreads : ∀ name, Reads tokens name → reads name)
    (hwrites : ∀ name, Writes tokens name ∨ Registers.isReserved name = true → writes name)
    (stack : List Value) : Footprint reads writes (run (ofTokens tokens) stack) := by
  have hside := hwrites _ (.inr isReserved_intermediateName)
  have hlast := hwrites _ (.inr isReserved_lastName)
  refine runWith_footprint hside hlast (fun before token after hsplit s htracks => ?_) stack
  obtain ⟨hreset, hoperands, htemplate⟩ := h.placed hsplit
  by_cases hfold : Opcode.ofToken token = .eachRegister
  · obtain ⟨left, bar, rfl, hbar⟩ := (htemplate hfold).exists_append
    obtain ⟨-, heven, -, -⟩ := htemplate hfold
    rw [bars_append_bar left hbar] at heven
    have heq : tokens = left ++ bar :: (token :: after) := by
      rw [hsplit, List.append_assoc]
      rfl
    have hbody := h.tame_body (foldWith (runNested 0)) heq hbar (by omega) hreads
      fun name hname => hwrites name (.inl hname)
    obtain ⟨rest, hstack⟩ := htracks.captured rfl left bar rfl hbar
    simp only at hstack
    rw [hfold, hstack]
    refine ⟨_, rest, rfl, foldWith_footprint (fun w hw => hwords w ?_)
      (fun stack => runWith_footprint hside hlast hbody stack) fun range hrange name hname => ?_⟩
    · rw [heq]
      exact List.mem_append_left _ ((List.rtakeWhile_suffix _ _).subset hw)
    · refine hreads name ⟨left ++ [bar], token, after, hsplit, .inr ?_⟩
      rw [hfold, foldedAt, template, List.dropLast_concat, hrange]
      exact hname
  · exact permitted_of_hasOperands [] hreset hfold (h.placed hsplit).hasOperands_before
      (fun name hname => hreads name ⟨before, token, after, hsplit, .inl hname⟩)
      (fun name hname => hwrites name (.inl ⟨before, token, after, hsplit, hname⟩)) htracks

end Program

end Reckoner
