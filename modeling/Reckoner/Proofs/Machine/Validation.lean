import Reckoner.Proofs.Machine.Bars

/-!
# What validation says of a run

A word that means nothing passes validation only directly after an odd-numbered bar,
where a template begins as far as the words tell (`exists_bar_of_validate`). A machine that
skips a bar takes the next one for it, and from then on gathers what stands between
templates and executes what stands in them. So a word that means nothing can be executed
after all, but only there and only if a bar has been skipped, and never by a fold
(`Call.unknown_executed`).
-/

namespace Reckoner

open Program (instruction ofTokens isBar sinceBar bars firstUnknown?)

namespace Program

/-- Where the word after some others stands. -/
def placeAfter (before : List String) : Place :=
  before.foldl (fun place token => place.next (Opcode.ofToken token)) .outside

theorem placeAfter_append_singleton (before : List String) (token : String) :
    placeAfter (before ++ [token]) = (placeAfter before).next (Opcode.ofToken token) := by
  rw [placeAfter, List.foldl_append]
  rfl

/-- The words after an even number of bars stand outside templates. -/
theorem placeAfter_eq_outside {before : List String} :
    placeAfter before = .outside ↔ bars before % 2 = 0 := by
  induction before using List.reverseRecOn with
  | nil => exact ⟨fun _ => rfl, fun _ => rfl⟩
  | append_singleton before token ih =>
    rw [placeAfter_append_singleton, bars_append_singleton, Place.next]
    by_cases hop : Opcode.ofToken token = .capture
    · rw [if_pos hop, if_pos (isBar_iff.2 hop)]
      by_cases hplace : placeAfter before = .outside
      · have heven := ih.1 hplace
        rw [if_pos hplace]
        exact ⟨nofun, fun hodd => by omega⟩
      · have hodd := mt ih.2 hplace
        rw [if_neg hplace]
        exact ⟨fun _ => by omega, fun _ => rfl⟩
    · rw [if_neg hop, if_neg (mt isBar_iff.1 hop), Nat.add_zero, ← ih]
      split
      · next hplace => exact ⟨fun _ => hplace, fun _ => rfl⟩
      · next hplace => exact ⟨nofun, fun h => absurd h hplace⟩

/-- A template begins directly after an odd-numbered bar. -/
theorem exists_bar_of_templateName {before : List String} (h : placeAfter before = .templateName) :
    ∃ left bar, before = left ++ [bar] ∧ isBar bar = true ∧ bars left % 2 = 0 := by
  rcases List.eq_nil_or_concat' before with rfl | ⟨left, token, rfl⟩
  · cases h
  · rw [placeAfter_append_singleton, Place.next] at h
    split at h
    · next hop =>
      split at h
      · next hplace => exact ⟨left, token, rfl, isBar_iff.2 hop, placeAfter_eq_outside.1 hplace⟩
      · cases h
    · split at h <;> cases h

/-- A word of the body of a template has a word of the same template before it. -/
theorem exists_of_drop_sinceBar {left before after : List String} {token : String} {k : Nat}
    (h : (sinceBar left).drop (k + 1) = before ++ token :: after) :
    ∃ outer w, left = outer ++ w :: token :: after ∧ isBar w = false := by
  obtain ⟨outer, hleft, -⟩ := exists_append_sinceBar left
  obtain ⟨first, rest, hsince⟩ : ∃ first rest, sinceBar left = first :: rest :=
    List.exists_cons_of_ne_nil fun hnil => by simp [hnil] at h
  have hsplit : first :: rest = first :: (rest.take k ++ before) ++ token :: after := by
    rw [hsince, List.drop_succ_cons] at h
    rw [List.cons_append, List.append_assoc, ← h, List.take_append_drop]
  obtain ⟨init, w, hw⟩ : ∃ init w, first :: (rest.take k ++ before) = init ++ [w] :=
    (List.eq_nil_or_concat' _).resolve_left (List.cons_ne_nil _ _)
  have hmem : w ∈ sinceBar left := by
    rw [hsince, hsplit, hw]
    simp
  refine ⟨outer ++ init, w, ?_, isBar_of_mem_sinceBar hmem⟩
  rw [hleft, hsince, hsplit, hw]
  simp

/-- If no word is reported, then those that mean nothing stand at the beginning of a
template. -/
theorem place_of_firstUnknown? {place : Place} {position : Nat} {before after : List String}
    {token : String} (h : firstUnknown? place position (ofTokens (before ++ token :: after)) = none)
    (hunknown : (Opcode.ofToken token).isUnknown = true) :
    before.foldl (fun place token => place.next (Opcode.ofToken token)) place = .templateName := by
  induction before generalizing place position with
  | nil =>
    change (if _ then _ else _) = none at h
    split at h
    · cases h
    · next hplace => simpa [instruction, hunknown] using hplace
  | cons first before ih =>
    change (if _ then _ else _) = none at h
    split at h
    · cases h
    · exact ih h

end Program

/-- Validation passes a word that means nothing only directly after an odd-numbered bar. -/
theorem exists_bar_of_validate {expression : String} {p : Program} (h : validate expression = .ok p)
    {before after : List String} {token : String}
    (heq : Text.words expression = before ++ token :: after)
    (hunknown : (Opcode.ofToken token).isUnknown = true) :
    ∃ left bar, before = left ++ [bar] ∧ isBar bar = true ∧ bars left % 2 = 0 := by
  unfold validate at h
  simp only at h
  split at h
  · cases h
  · next hnone =>
    rw [Program.parse, heq] at hnone
    exact Program.exists_bar_of_templateName (Program.place_of_firstUnknown? hnone hunknown)

namespace Call

variable {c : Call} {depth : Nat} {before : List String} {token : String}

/-- An expression that validation passes executes a word that means nothing only outside
of folds and directly after an odd-numbered bar, and only if an earlier bar has been
skipped. -/
theorem unknown_executed {expression : String} {p : Program} (h : validate expression = .ok p)
    {r : Registers} (hc : Reaches (ofExpression expression r) depth c)
    (hexec : c.Executes depth before token)
    (hunknown : (Opcode.ofToken token).isUnknown = true) :
    depth = 2 ∧ c = ofExpression expression r ∧ ∃ left bar, before = left ++ [bar] ∧
      isBar bar = true ∧ bars left % 2 = 0 ∧ c.SkipsBar depth left := by
  rcases hc.top_or_body with ⟨hdepth, rfl⟩ | ⟨-, -, left, bar, hinitial, hbar, htokens⟩
  · obtain ⟨after, heq⟩ := hexec.exists_after
    obtain ⟨left, bar, rfl, hbar, heven⟩ := exists_bar_of_validate h heq hunknown
    refine ⟨hdepth, rfl, left, bar, rfl, hbar, heven, ?_⟩
    by_contra hskip
    have hodd := (gathers_iff hskip).1 (gathering_of_running hbar hexec.2)
    omega
  · obtain ⟨after, hafter⟩ := hexec.exists_after
    obtain ⟨rest, hrest⟩ := hinitial
    obtain ⟨outer, w, hleft, hw⟩ := Program.exists_of_drop_sinceBar (htokens.symm.trans hafter)
    have heq : Text.words expression = (outer ++ [w]) ++ token :: (after ++ [bar] ++ rest) := by
      rw [← hrest, hleft]
      simp
    obtain ⟨left', bar', hlast, hbar', -⟩ := exists_bar_of_validate h heq hunknown
    obtain ⟨-, rfl⟩ := Machine.append_singleton_inj hlast
    rw [hw] at hbar'
    cases hbar'

/-- A jump over the first of three bars, and a word that means nothing after the third. -/
def misread : String := "0 ~l jmpz | \x7d | 1 | frob"

/-- The words of the expression before its last one. -/
def misreadBefore : List String := ["0", "~l", "jmpz", "|", "\x7d", "|", "1", "|"]

theorem validate_misread : validate misread = .ok (Program.parse misread) := by decide +kernel

theorem executes_misread :
    (ofExpression misread Registers.new).Executes 2 misreadBefore "frob" ∧
      (Opcode.ofToken "frob").isUnknown = true := by decide +kernel

/-- Validation passes the expression, and the word is executed. -/
theorem executes_unknown_misread :
    (∃ p, validate misread = .ok p) ∧ ∃ before,
      (ofExpression misread Registers.new).Executes 2 before "frob" ∧
        (Opcode.ofToken "frob").isUnknown = true :=
  ⟨⟨_, validate_misread⟩, misreadBefore, executes_misread⟩

/-- The first bar has been skipped. -/
theorem skipsBar_misread :
    (ofExpression misread Registers.new).Executes 2 misreadBefore "frob" ∧
      (Opcode.ofToken "frob").isUnknown = true ∧
      ∃ left bar, misreadBefore = left ++ [bar] ∧ isBar bar = true ∧ bars left % 2 = 0 ∧
        (ofExpression misread Registers.new).SkipsBar 2 left := by
  obtain ⟨hexec, hunknown⟩ := executes_misread
  exact ⟨hexec, hunknown, (unknown_executed validate_misread .top hexec hunknown).2.2⟩

end Call

end Reckoner
