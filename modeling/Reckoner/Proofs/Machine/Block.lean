import Reckoner.Proofs.Machine.Bars
import Reckoner.Proofs.Number.Sum
import Reckoner.Proofs.Program.Keyword

/-!
# Conditional blocks

A label and a conditional jump begin a block, which ends with the next word that begins with a
closing brace. On the condition of the jump the machine skips to this end and nothing in the block
has an effect (`Machine.foldl_skipping`). Else a block that holds no jump and bars in pairs leaves
the machine running (`Call.mode_after`), so its end has no effect.

So a block can be left out, or its words can stand without the label, the jump and the end
(`runNested_block`).
-/

namespace Reckoner

open Machine (advance start)
open Program (instruction ofTokens isBar bars)

/-- The zeros are what a jump takes for zero. -/
theorem Value.isZero_iff {v : Value} :
    v.isZero = true ↔ ∃ negative, v = .number (Number.zero negative) := by
  cases v with
  | number x => simp only [isZero, Number.beq_zero_iff, Value.number.injEq]
  | text s => exact ⟨nofun, nofun⟩
  | undefined => exact ⟨nofun, nofun⟩

/-- The word of a conditional jump. -/
def jumpWord (onZero : Bool) : String := if onZero then "jmpz" else "jmpnz"

/-- The words of a conditional block. -/
def block (label : String) (onZero : Bool) (body : List String) : List String :=
  label :: jumpWord onZero :: (body ++ ["\x7d"])

namespace Opcode

/-- Whether an opcode can make the machine skip. -/
def isJump : Opcode → Bool
  | .jumpIfZero | .jumpIfNotZero => true
  | _ => false

theorem isJump_ofToken {token : String} (hz : token ≠ "jmpz") (hnz : token ≠ "jmpnz") :
    (ofToken token).isJump = false := by
  cases hop : ofToken token with
  | jumpIfZero => exact absurd ((ofToken_eq_iff (by decide) rfl).1 hop) hz
  | jumpIfNotZero => exact absurd ((ofToken_eq_iff (by decide) rfl).1 hop) hnz
  | _ => rfl

end Opcode

namespace Machine

variable {fold : Fold} {stack : List Value} {r : Registers}

/-- A label and a jump skip, or they leave the condition on the stack. -/
theorem foldl_jump {label : String} (onZero : Bool)
    (hlabel : label.toList.head? = some '~' ∨ label.toList.head? = some '\x7b') (c : Value) :
    (ofTokens [label, jumpWord onZero]).foldl (advance fold) ⟨c :: stack, .running, r⟩ =
      if c.isZero = onZero then ⟨stack, .skipping, r⟩ else ⟨c :: stack, .running, r⟩ := by
  have hpush : ∃ s, advance fold ⟨c :: stack, .running, r⟩ (instruction label) =
      ⟨.text s :: c :: stack, .running, r⟩ := by
    obtain ⟨s, hs | hs⟩ := Opcode.ofToken_label hlabel
    · exact ⟨s, by rw [advance_running, hs]; rfl⟩
    · exact ⟨s, by rw [advance_running, hs]; rfl⟩
  obtain ⟨s, hs⟩ := hpush
  show advance fold (advance fold _ (instruction label)) (instruction (jumpWord onZero)) = _
  rw [hs, advance_running]
  cases onZero with
  | true => rfl
  | false => rfl

/-- What is skipped has no effect, whatever it is. -/
theorem foldl_skipping {body : List String} (h : ∀ w ∈ body, w.toList.head? ≠ some '\x7d') :
    (ofTokens body).foldl (advance fold) ⟨stack, .skipping, r⟩ = ⟨stack, .skipping, r⟩ := by
  induction body with
  | nil => rfl
  | cons w body ih =>
    obtain ⟨hw, hbody⟩ := List.forall_mem_cons.1 h
    have hstep : advance fold ⟨stack, .skipping, r⟩ (instruction w) = ⟨stack, .skipping, r⟩ := by
      rw [advance_skipping, if_neg (mt Opcode.ofToken_eq_blockClose_iff.1 hw)]
    show (ofTokens body).foldl (advance fold) (advance fold _ (instruction w)) = _
    rw [hstep, ih hbody]

/-- Only a jump begins to skip. -/
theorem mode_perform_ne_skipping {op : Opcode} (hop : op.isJump = false) :
    (perform fold ⟨stack, .running, r⟩ op).mode ≠ .skipping := by
  cases op with
  | jumpIfZero | jumpIfNotZero => cases hop
  | reduce reduction => cases reduction <;> exact nofun
  | _ => rcases stack with _ | ⟨v, _ | ⟨w, rest⟩⟩ <;> exact nofun

end Machine

namespace Call

variable {c : Call} {depth : Nat}

theorem after_append (before ws : List String) :
    c.after depth (before ++ ws) =
      (ofTokens ws).foldl (advance (foldNested depth)) (c.after depth before) := by
  rw [after, ofTokens, List.map_append, List.foldl_append]
  rfl

/-- Words without a jump do not begin to skip. -/
theorem mode_after_ne_skipping {before : List String}
    (h : ∀ w ∈ before, (Opcode.ofToken w).isJump = false) :
    (c.after depth before).mode ≠ .skipping := by
  induction before using List.reverseRecOn with
  | nil => exact nofun
  | append_singleton before token ih =>
    have ih := ih fun w hw => h w (List.mem_append_left _ hw)
    rw [after_append_singleton]
    generalize c.after depth before = m at ih
    obtain ⟨stack, mode, r⟩ := m
    cases mode with
    | running => exact Machine.mode_perform_ne_skipping (h token (by simp))
    | skipping => exact absurd rfl ih
    | gathering tokens =>
      rw [Machine.advance_gathering]
      split <;> exact nofun

/-- After words without a jump and with bars in pairs a machine runs. -/
theorem mode_after {before : List String}
    (hjumps : ∀ w ∈ before, (Opcode.ofToken w).isJump = false) (hbars : bars before % 2 = 0) :
    (c.after depth before).mode = .running := by
  have hskips : ¬c.SkipsBar depth before := by
    rintro ⟨left, bar, hinitial, -, hmode⟩
    refine mode_after_ne_skipping (fun w hw => hjumps w ?_) hmode
    exact hinitial.subset (List.mem_append_left _ hw)
  have hgathers := (gathers_iff hskips).not.2 (by omega)
  have hskipping : (c.after depth before).mode ≠ .skipping := mode_after_ne_skipping hjumps
  cases hmode : (c.after depth before).mode with
  | running => rfl
  | skipping => exact absurd hmode hskipping
  | gathering tokens => exact absurd ⟨tokens, hmode⟩ hgathers

section Block

variable {before body : List String} {label : String} {onZero : Bool} {v : Value}
  {stack : List Value} {r : Registers}

/-- The machine after a label and a jump. -/
theorem after_jump (hlabel : label.toList.head? = some '~' ∨ label.toList.head? = some '\x7b')
    (hbefore : c.after depth before = ⟨v :: stack, .running, r⟩) :
    c.after depth (before ++ [label, jumpWord onZero]) =
      if v.isZero = onZero then ⟨stack, .skipping, r⟩ else ⟨v :: stack, .running, r⟩ := by
  rw [after_append, hbefore, Machine.foldl_jump onZero hlabel]

theorem append_block (before : List String) :
    before ++ block label onZero body = before ++ [label, jumpWord onZero] ++ body ++ ["\x7d"] := by
  simp [block]

/-- A block that is skipped leaves the machine as it was without the condition. -/
theorem after_block_skipped
    (hlabel : label.toList.head? = some '~' ∨ label.toList.head? = some '\x7b')
    (hbody : ∀ w ∈ body, w.toList.head? ≠ some '\x7d')
    (hbefore : c.after depth before = ⟨v :: stack, .running, r⟩) (hv : v.isZero = onZero) :
    c.after depth (before ++ block label onZero body) = start stack r := by
  rw [append_block, after_append_singleton, after_append, after_jump hlabel hbefore, if_pos hv,
    Machine.foldl_skipping hbody, Machine.advance_skipping]
  rfl

/-- A block that is entered does what its words do, with the condition on the stack. -/
theorem after_block_entered
    (hlabel : label.toList.head? = some '~' ∨ label.toList.head? = some '\x7b')
    (hjumps : ∀ w ∈ body, (Opcode.ofToken w).isJump = false) (hbars : bars body % 2 = 0)
    (hbefore : c.after depth before = ⟨v :: stack, .running, r⟩) (hv : v.isZero ≠ onZero) :
    c.after depth (before ++ block label onZero body) =
      (⟨body, v :: stack, r⟩ : Call).after depth body := by
  have hmode : ((⟨body, v :: stack, r⟩ : Call).after depth body).mode = .running :=
    mode_after hjumps hbars
  rw [append_block, after_append_singleton, after_append, after_jump hlabel hbefore, if_neg hv]
  change advance (foldNested depth) ((⟨body, v :: stack, r⟩ : Call).after depth body) _ = _
  generalize (⟨body, v :: stack, r⟩ : Call).after depth body = m at hmode
  obtain ⟨stack, mode, r⟩ := m
  obtain rfl : mode = .running := hmode
  rfl

end Block

end Call

/-- Where two calls come to the same machine, they go on in the same way. -/
theorem runNested_congr {depth : Nat} {ws ws' : List String} {stack stack' : List Value}
    {r r' : Registers}
    (h : (⟨ws, stack, r⟩ : Call).after depth ws = (⟨ws', stack', r'⟩ : Call).after depth ws') :
    runNested depth (ofTokens ws) stack r = runNested depth (ofTokens ws') stack' r' := by
  have hrun (ws : List String) (stack : List Value) (r : Registers) :
      runNested depth (ofTokens ws) stack r =
        let m := (⟨ws, stack, r⟩ : Call).after depth ws
        (m.result, m.registers.setLast m.result) := by
    rw [runNested_eq]
    rfl
  rw [hrun, hrun, h]

/-- Conditional blocks can be left out or dissolved. Where a machine runs with a value on top of
its stack, it goes on after a block that it skips as if there were neither the value nor the
block, whatever is in the block. It goes on after a block that it enters, which holds no jump and
bars in pairs, as if there were only the words in it. The block is skipped exactly if the value is
zero, for `jmpz`, and if it is anything else, for `jmpnz`. -/
theorem runNested_block {depth : Nat} {before body : List String} {label : String} {onZero : Bool}
    {seed stack : List Value} {r registers : Registers} {v : Value}
    (hlabel : label.toList.head? = some '~' ∨ label.toList.head? = some '\x7b')
    (hbody : ∀ w ∈ body, w.toList.head? ≠ some '\x7d')
    (hbefore : (⟨before, seed, r⟩ : Call).after depth before =
      ⟨v :: stack, .running, registers⟩) (rest : List String) :
    (((∃ negative, v = .number (Number.zero negative)) ↔ onZero = true) →
      runNested depth (ofTokens (before ++ block label onZero body ++ rest)) seed r =
        runNested depth (ofTokens rest) stack registers) ∧
    (¬((∃ negative, v = .number (Number.zero negative)) ↔ onZero = true) →
      "jmpz" ∉ body → "jmpnz" ∉ body → body.countP (·.toList.head? = some '|') % 2 = 0 →
      runNested depth (ofTokens (before ++ block label onZero body ++ rest)) seed r =
        runNested depth (ofTokens (body ++ rest)) (v :: stack) registers) := by
  rw [← Value.isZero_iff, ← Bool.eq_iff_iff]
  constructor
  · intro hv
    have hafter := Call.after_block_skipped hlabel hbody hbefore hv
    exact runNested_congr ((Call.after_append _ rest).trans
      (congrArg ((ofTokens rest).foldl (advance (foldNested depth))) hafter))
  · intro hv hz hnz heven
    have hjumps : ∀ w ∈ body, (Opcode.ofToken w).isJump = false := fun w hw =>
      Opcode.isJump_ofToken (fun heq => hz (heq ▸ hw)) (fun heq => hnz (heq ▸ hw))
    have hbars : bars body = body.countP (·.toList.head? = some '|') :=
      List.countP_congr fun w _ => by
        rw [Program.isBar_iff, Opcode.ofToken_eq_capture_iff, decide_eq_true_iff]
    have hafter := Call.after_block_entered hlabel hjumps (hbars ▸ heven) hbefore hv
    refine runNested_congr ((Call.after_append _ rest).trans ?_)
    exact (congrArg ((ofTokens rest).foldl (advance (foldNested depth))) hafter).trans
      (Call.after_append body rest).symm

/-- A machine that has copied a number and comes to a zero on top of it. -/
def copied : Call := ⟨["cpy", "0"], [.number 4], Registers.new⟩

theorem runNested_block_copied :
    copied.after 2 ["cpy", "0"] =
      ⟨[.number (Number.zero false), .number 4, .number 4], .running, Registers.new⟩ ∧
    run (ofTokens (["cpy", "0"] ++ block "~skip" true ["|", "reset", "~x", "str"] ++ ["+"]))
        [.number 4] Registers.new =
      run (ofTokens ["+"]) [.number 4, .number 4] Registers.new ∧
    run (ofTokens (["cpy", "0"] ++ block "\x7bskip" false ["|", "5", "|", "~x", "str"] ++ ["+"]))
        [.number 4] Registers.new =
      run (ofTokens (["|", "5", "|", "~x", "str"] ++ ["+"]))
        [.number (Number.zero false), .number 4, .number 4] Registers.new := by
  have hbefore : copied.after 2 ["cpy", "0"] =
      ⟨[.number (Number.zero false), .number 4, .number 4], .running, Registers.new⟩ := rfl
  refine ⟨hbefore, ?_, ?_⟩
  · exact (runNested_block (.inl rfl) (by decide) hbefore ["+"]).1 (by simp)
  · exact (runNested_block (.inr rfl) (by decide) hbefore ["+"]).2 (by simp) (by decide)
      (by decide) (by decide)

end Reckoner
