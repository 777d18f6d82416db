import Reckoner.Machine.Basic
import Reckoner.Proofs.Footprint
import Reckoner.Proofs.Program.Words

/-!
# The footprint of a program

An instruction touches the registers only as far as its operands name them
(`Machine.Permitted`), and the rest of the machine, its stack and its mode, does
not depend on anything else in them (`Machine.perform_footprint`).

The words before an instruction tell what it finds on the stack when it runs
(`Machine.Tracks`), whatever has been skipped or gathered (`Machine.tracks_foldl`).
-/

namespace Reckoner

namespace Machine

/-- A machine as its stack and mode, and its registers. -/
def split (m : Machine) : (List Value × Mode) × Registers := ((m.stack, m.mode), m.registers)

/-- What an opcode finds on the stack names registers that it may use. -/
def Permitted (fold : Fold) (reads writes : String → Prop) (stack : List Value) : Opcode → Prop
  | .load => ∃ v rest, stack = v :: rest ∧ reads v.toName
  | .store => ∃ v rest, stack = v :: rest ∧ writes v.toName
  | .copyRegister => ∃ v w rest, stack = v :: w :: rest ∧ reads w.toName ∧ writes v.toName
  | .eachRegister => ∃ v rest, stack = v :: rest ∧ Footprint reads writes (fold v)
  | .reset => False
  | _ => True

variable {fold : Fold} {reads writes : String → Prop}

/-- A jump skips, or it keeps its condition, which was on the stack. -/
theorem jump_eq (stack : List Value) (mode : Mode) (onZero : Bool) :
    ∃ condition rest, (∀ s, .text s ∈ condition :: rest → .text s ∈ stack) ∧
      ∀ r, jump ⟨stack, mode, r⟩ onZero =
        if condition.isZero = onZero then ⟨rest, .skipping, r⟩
        else ⟨condition :: rest, mode, r⟩ := by
  rcases stack with _ | ⟨v, _ | ⟨w, rest⟩⟩
  · exact ⟨.undefined, [], by simp, fun _ => rfl⟩
  · exact ⟨.undefined, [], by simp, fun _ => rfl⟩
  · exact ⟨w, rest, fun s hs => List.mem_cons_of_mem _ hs, fun _ => rfl⟩

theorem jump_footprint (stack : List Value) (mode : Mode) (onZero : Bool) :
    Footprint reads writes fun r => split (jump ⟨stack, mode, r⟩ onZero) := by
  obtain ⟨condition, rest, -, heq⟩ := jump_eq stack mode onZero
  simp only [heq]
  intro r s _
  split
  · exact ⟨(rest, .skipping), [], nofun, rfl, rfl⟩
  · exact ⟨(condition :: rest, mode), [], nofun, rfl, rfl⟩

theorem perform_footprint (hside : writes Registers.intermediateName) {stack : List Value}
    {mode : Mode} {op : Opcode} (h : Permitted fold reads writes stack op) :
    Footprint reads writes fun r => split (perform fold ⟨stack, mode, r⟩ op) := by
  have hset : ∀ x : Float, ∀ e ∈ [(Registers.intermediateName, x)], writes e.1 := by
    simpa using hside
  cases op with
  | load =>
    obtain ⟨v, rest, rfl, hv⟩ := h
    intro r s hrs
    exact ⟨(Value.ofOption (r.get? v.toName) :: rest, mode), [], nofun, rfl,
      by rw [hrs _ hv]; rfl⟩
  | store =>
    obtain ⟨v, rest, rfl, hv⟩ := h
    intro r s hrs
    cases rest with
    | nil => exact ⟨_, [(v.toName, _)], by simpa using hv, rfl, rfl⟩
    | cons w rest => exact ⟨_, [(v.toName, _)], by simpa using hv, rfl, rfl⟩
  | copyRegister =>
    obtain ⟨v, w, rest, rfl, hw, hv⟩ := h
    intro r s hrs
    refine ⟨(rest, mode), [(v.toName, (r.get? w.toName).getD Number.nan)], by simpa using hv,
      rfl, ?_⟩
    rw [hrs _ hw]
    rfl
  | eachRegister =>
    obtain ⟨v, rest, rfl, hv⟩ := h
    intro r s hrs
    obtain ⟨x, l, hl, hr, hs⟩ := hv r s hrs
    refine ⟨(x :: rest, mode), l, hl, ?_, ?_⟩
    · simp only [perform, pop, hr]
      rfl
    · simp only [perform, pop, hs]
      rfl
  | reset => exact h.elim
  | jumpIfZero => exact jump_footprint stack mode true
  | jumpIfNotZero => exact jump_footprint stack mode false
  | reduce reduction =>
    intro r s _
    cases reduction with
    | average => exact ⟨_, _, hset _, rfl, rfl⟩
    | sum | min | max | count => exact ⟨_, [], nofun, rfl, rfl⟩
  | percentAdd | percentSub | mround | fix =>
    intro r s _
    rcases stack with _ | ⟨v, _ | ⟨w, rest⟩⟩ <;> exact ⟨_, _, hset _, rfl, rfl⟩
  | _ =>
    intro r s _
    rcases stack with _ | ⟨v, _ | ⟨w, rest⟩⟩ <;> exact ⟨_, [], nofun, rfl, rfl⟩

/-! ## What the words before an instruction tell about the machine -/

open Program (isBar sinceBar operand? operandsBefore instruction)

/-- The stack and mode of a machine after some words: operands at their end are on
the stack if it is running, what it gathers are the words since the last bar, and
a bar that has ended this leaves them on the stack. -/
structure Tracks (before : List String) (c : List Value × Mode) : Prop where
  operands : c.2 = .running → operandsBefore before <+: c.1
  gathered : ∀ tokens, c.2 = .gathering tokens → tokens = sinceBar before
  captured : c.2 = .running → ∀ p b, before = p ++ [b] → isBar b = true →
    ∃ rest, c.1 = .text (Text.unwords (sinceBar p)) :: rest

theorem tracks_running {before : List String} {stack : List Value}
    (hoperands : operandsBefore before <+: stack)
    (hcaptured : ∀ p b, before = p ++ [b] → isBar b = true →
      ∃ rest, stack = .text (Text.unwords (sinceBar p)) :: rest) :
    Tracks before (stack, .running) where
  operands _ := hoperands
  gathered _ h := by cases h
  captured _ := hcaptured

theorem tracks_skipping (before : List String) (stack : List Value) :
    Tracks before (stack, .skipping) where
  operands h := by cases h
  gathered _ h := by cases h
  captured h := by cases h

theorem tracks_gathering (before : List String) (stack : List Value) :
    Tracks before (stack, .gathering (sinceBar before)) where
  operands h := by cases h
  gathered _ h := by cases h; rfl
  captured h := by cases h

theorem tracks_start (stack : List Value) : Tracks [] (stack, .running) :=
  tracks_running List.nil_prefix fun p b h => by simp at h

/-- Only a bar begins to gather. -/
theorem mode_perform {stack : List Value} {r : Registers} {op : Opcode} (hop : op ≠ .capture)
    (tokens : List String) :
    (perform fold ⟨stack, .running, r⟩ op).mode ≠ .gathering tokens := by
  have hjump : ∀ onZero, (jump ⟨stack, .running, r⟩ onZero).mode ≠ .gathering tokens := by
    intro onZero
    obtain ⟨condition, rest, -, heq⟩ := jump_eq stack .running onZero
    rw [heq]
    split <;> exact nofun
  cases op with
  | capture => exact absurd rfl hop
  | jumpIfZero => exact hjump true
  | jumpIfNotZero => exact hjump false
  | reduce reduction => cases reduction <;> exact nofun
  | _ => rcases stack with _ | ⟨v, _ | ⟨w, rest⟩⟩ <;> exact nofun

theorem perform_operand {token : String} {v : Value} (h : operand? token = some v)
    (m : Machine) : m.perform fold (Opcode.ofToken token) = m.push v := by
  unfold operand? at h
  split at h
  · next s hop => rw [hop, ← Option.some.inj h]; rfl
  · next x hop => rw [hop, ← Option.some.inj h]; rfl
  · cases h

theorem append_singleton_inj {before p : List String} {token b : String}
    (h : before ++ [token] = p ++ [b]) : before = p ∧ token = b := by
  simpa using List.append_inj' h rfl

theorem advance_running (stack : List Value) (r : Registers) (token : String) :
    advance fold ⟨stack, .running, r⟩ (instruction token) =
      perform fold ⟨stack, .running, r⟩ (Opcode.ofToken token) :=
  rfl

theorem advance_skipping (stack : List Value) (r : Registers) (token : String) :
    advance fold ⟨stack, .skipping, r⟩ (instruction token) =
      if Opcode.ofToken token = .blockClose then ⟨stack, .running, r⟩ else ⟨stack, .skipping, r⟩ :=
  rfl

theorem advance_gathering (stack : List Value) (tokens : List String) (r : Registers)
    (token : String) :
    advance fold ⟨stack, .gathering tokens, r⟩ (instruction token) =
      if Opcode.ofToken token = .capture then ⟨.text (Text.unwords tokens) :: stack, .running, r⟩
      else ⟨stack, .gathering (tokens ++ [token]), r⟩ :=
  rfl

/-- A word that is no bar ends no template. -/
theorem not_captured {before p : List String} {token b : String} (h : isBar token = false)
    (heq : before ++ [token] = p ++ [b]) : isBar b ≠ true := by
  obtain ⟨-, rfl⟩ := append_singleton_inj heq
  rw [h]
  exact Bool.false_ne_true

/-- An instruction keeps track of the words. -/
theorem Tracks.advance {before : List String} {stack : List Value} {mode : Mode}
    (h : Tracks before (stack, mode)) (token : String) (r : Registers) :
    Tracks (before ++ [token])
      (split (Machine.advance fold ⟨stack, mode, r⟩ (instruction token))).1 := by
  cases mode with
  | running =>
    rw [advance_running]
    cases hbar : isBar token with
    | true =>
      have hgather := tracks_gathering (before ++ [token]) stack
      rw [Program.sinceBar_append_bar before hbar] at hgather
      rwa [Program.isBar_iff.1 hbar]
    | false =>
      refine ⟨fun _ => ?_, fun tokens htokens => ?_, fun _ p b heq hb => ?_⟩
      · cases hv : operand? token with
        | none => rw [Program.operandsBefore_append_other _ hv]; exact List.nil_prefix
        | some v =>
          rw [Program.operandsBefore_append_operand _ hv, perform_operand hv]
          exact List.cons_prefix_cons.2 ⟨rfl, h.operands rfl⟩
      · exact absurd htokens (mode_perform (Program.isBar_eq_false_iff.1 hbar) tokens)
      · exact absurd hb (not_captured hbar heq)
  | skipping =>
    rw [advance_skipping]
    split
    · next hclose =>
      have hbar : isBar token = false := by
        rw [Program.isBar_eq_false_iff, hclose]
        exact Opcode.noConfusion
      refine tracks_running ?_ fun p b heq hb => absurd hb (not_captured hbar heq)
      rw [Program.operandsBefore_append_other _ (by simp [operand?, hclose])]
      exact List.nil_prefix
    · exact tracks_skipping _ _
  | gathering tokens =>
    obtain rfl : tokens = sinceBar before := h.gathered tokens rfl
    rw [advance_gathering]
    split
    · next hbar =>
      refine tracks_running ?_ fun p b heq _ => ?_
      · rw [Program.operandsBefore_append_other _ (by simp [operand?, hbar])]
        exact List.nil_prefix
      · obtain ⟨rfl, rfl⟩ := append_singleton_inj heq
        exact ⟨stack, rfl⟩
    · next hbar =>
      rw [← Program.sinceBar_append_word before (Program.isBar_eq_false_iff.2 hbar)]
      exact tracks_gathering _ _

theorem foldl_append_singleton (tokens : List String) (token : String) (m : Machine) :
    (Program.ofTokens (tokens ++ [token])).foldl (Machine.advance fold) m =
      Machine.advance fold ((Program.ofTokens tokens).foldl (Machine.advance fold) m)
        (instruction token) := by
  rw [Program.ofTokens, List.map_append, List.foldl_append]
  rfl

/-- A machine that has dealt with some words keeps track of them. -/
theorem tracks_foldl (stack : List Value) (r : Registers) (tokens : List String) :
    Tracks tokens
      (split ((Program.ofTokens tokens).foldl (Machine.advance fold) (start stack r))).1 := by
  induction tokens using List.reverseRecOn with
  | nil => exact tracks_start stack
  | append_singleton tokens token ih =>
    rw [foldl_append_singleton]
    exact ih.advance token _

end Machine

end Reckoner
