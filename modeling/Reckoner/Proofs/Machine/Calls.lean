import Reckoner.Proofs.Machine.Run

/-!
# What a program executes

The words of an expression are executed where the machine is running when it comes to
them (`Call.Executes`), and a fold that is executed calls the body of its template for
each register of its range (`Call.body`, `Call.Reaches`).

A text on the stack comes from a word or was gathered (`Call.text_after`), and one that is
a template was gathered between two bars of the same program (`Call.quoted_after`). So the
calls of an expression are its own and those of bodies that stand between two of its bars;
these hold no bar, and no fold in them finds a template (`Call.Reaches.top_or_body`).
-/

namespace Reckoner

open Machine (Tracks advance split start)
open Program (instruction ofTokens isBar sinceBar)

/-- The meaning of `eachreg` in a program whose folds nest `depth` deep at most. -/
def foldNested : Nat → Fold
  | 0 => fun _ r => (.undefined, r)
  | depth + 1 => foldWith (runNested depth)

theorem runNested_eq (depth : Nat) : runNested depth = runWith (foldNested depth) := by
  cases depth with
  | zero => rfl
  | succ depth => rfl

theorem Program.map_token_ofTokens (tokens : List String) :
    (ofTokens tokens).map Instruction.token = tokens := by
  rw [ofTokens, List.map_map]
  exact List.map_id'' (fun _ => rfl) tokens

theorem Template.map_token_body {s : String} {t : Template} (h : Template.parse? s = some t) :
    t.body.map Instruction.token = (Text.words s).drop 4 := by
  obtain ⟨-, -, hbody⟩ := Template.of_parse? h
  rw [hbody, Program.map_token_ofTokens]

theorem Template.ofTokens_body {s : String} {t : Template} (h : Template.parse? s = some t) :
    ofTokens (t.body.map Instruction.token) = t.body := by
  obtain ⟨-, -, hbody⟩ := Template.of_parse? h
  rw [Template.map_token_body h, hbody]

/-- The words of a program, with the stack and the registers that it is run on. -/
structure Call where
  tokens : List String
  stack : List Value
  registers : Registers

namespace Call

/-- The call of an expression on an empty stack. -/
def ofExpression (expression : String) (r : Registers) : Call :=
  ⟨Text.words expression, [], r⟩

/-- The machine of a call that has dealt with some words. -/
def after (depth : Nat) (c : Call) (before : List String) : Machine :=
  (ofTokens before).foldl (advance (foldNested depth)) (start c.stack c.registers)

/-- A word of a call that stands after some others is executed: the machine is running
when it comes to it. -/
def Executes (depth : Nat) (c : Call) (before : List String) (token : String) : Prop :=
  before ++ [token] <+: c.tokens ∧ (c.after depth before).mode = .running

instance (depth : Nat) (c : Call) (before : List String) (token : String) :
    Decidable (c.Executes depth before token) :=
  inferInstanceAs (Decidable (_ ∧ _))

/-- A word that is executed stands among the words of the call. -/
theorem Executes.exists_after {depth : Nat} {c : Call} {before : List String} {token : String}
    (h : c.Executes depth before token) : ∃ after, c.tokens = before ++ token :: after := by
  obtain ⟨after, hafter⟩ := h.1
  rw [List.append_assoc] at hafter
  exact ⟨after, hafter.symm⟩

/-- The call of the body of a template for the register at a place of its range. -/
def body (run : Runner) (t : Template) (place : Nat) (r : Registers) : Call :=
  let (x, r) := t.steps run place t.range.first t.initial r
  ⟨t.body.map Instruction.token,
    [Value.ofOption (r.get? (t.range.register (t.range.first + place))), .number x], r⟩

/-- The calls that come about when a call is made: its own, and those of bodies in the
folds that are executed. The number is how deep folds can nest in a call. -/
inductive Reaches (top : Call) : Nat → Call → Prop
  | top : Reaches top 2 top
  | body {depth : Nat} {c : Call} {before : List String} {token s : String} {t : Template}
      {place : Nat} (h : Reaches top (depth + 1) c) (hexec : c.Executes (depth + 1) before token)
      (hop : Opcode.ofToken token = .eachRegister)
      (hpop : (c.after (depth + 1) before).pop.1 = .text s) (ht : Template.parse? s = some t)
      (hplace : place < t.range.size) :
      Reaches top depth
        (Call.body (runNested depth) t place (c.after (depth + 1) before).registers)

/-- The result of an expression is what its call leaves on top. -/
theorem evaluate_eq (expression : String) (r : Registers) :
    let m := (ofExpression expression r).after 2 (Text.words expression)
    evaluate expression r = (m.result, m.registers.setLast m.result) := rfl

theorem steps_append_one (run : Runner) (t : Template) (count : Nat) (index : Int) (x : Float)
    (r : Registers) : t.steps run (count + 1) index x r =
      let done := t.steps run count index x r
      run t.body
        [Value.ofOption (done.2.get? (t.range.register (index + count))), .number done.1]
        done.2 := by
  induction count generalizing index x r with
  | zero => simp [Template.steps]
  | succ count ih =>
    have hindex : index + 1 + (count : Int) = index + (count + 1 : Nat) := by omega
    rw [← hindex]
    exact ih (index + 1) _ _

/-- A fold makes the calls of its body one after another. -/
theorem steps_succ (run : Runner) (t : Template) (place : Nat) (r : Registers) :
    t.steps run (place + 1) t.range.first t.initial r =
      run t.body (body run t place r).stack (body run t place r).registers :=
  steps_append_one run t place t.range.first t.initial r

theorem after_append_singleton (depth : Nat) (c : Call) (before : List String) (token : String) :
    c.after depth (before ++ [token]) =
      advance (foldNested depth) (c.after depth before) (instruction token) :=
  Machine.foldl_append_singleton before token _

theorem tracks_after (depth : Nat) (c : Call) (before : List String) :
    Tracks before (split (c.after depth before)).1 :=
  Machine.tracks_foldl c.stack c.registers before

/-- A word that is executed directly after a bar finds on top of the stack what was
gathered before the bar. -/
theorem pop_after_bar {depth : Nat} {c : Call} {left : List String} {bar token : String}
    (h : c.Executes depth (left ++ [bar]) token) (hbar : isBar bar = true) :
    (c.after depth (left ++ [bar])).pop.1 = .text (Text.unwords (sinceBar left)) := by
  obtain ⟨rest, hstack⟩ := (c.tracks_after depth (left ++ [bar])).captured h.2 left bar rfl hbar
  change (c.after depth (left ++ [bar])).stack = _ at hstack
  rw [Machine.pop, hstack]

end Call

/-! ## Texts on the stack -/

namespace Opcode

/-- The text that an opcode puts on the stack. -/
def pushedText? : Opcode → Option String
  | .name s | .blockOpen s => some s
  | _ => none

/-- A text that a word puts on the stack is a part of the word. -/
theorem subset_of_pushedText? {token s : String} (h : (ofToken token).pushedText? = some s) :
    s.toList ⊆ token.toList := by
  have hkeywords : ∀ k ∈ keywords, k.2.pushedText? = none := by decide
  unfold ofToken at h
  cases hlookup : keywords.lookup token with
  | some op =>
    obtain ⟨_, _, hmem, -⟩ := List.lookup_eq_some_iff.1 hlookup
    have hop := hkeywords (token, op) (by rw [hmem]; simp)
    rw [hlookup, Option.getD_some, hop] at h
    cases h
  | none =>
    rw [hlookup, Option.getD_none, ofWord] at h
    split at h
    · cases h
    · cases h
    · next heq =>
      obtain rfl := Option.some.inj h
      rw [heq, String.toList_ofList]
      exact List.subset_cons_self _ _
    · next heq =>
      obtain rfl := Option.some.inj h
      rw [heq, String.toList_ofList]
      exact List.subset_cons_self _ _
    · obtain rfl := Option.some.inj h
      exact List.Subset.refl _
    · split at h
      · cases h
      · cases h

end Opcode

theorem Value.text_ne_ofOption (s : String) (o : Option Float) : .text s ≠ Value.ofOption o := by
  cases o with
  | none => exact nofun
  | some x => exact nofun

/-- The accumulator and a register are no texts. -/
theorem Value.text_notMem_operands (o : Option Float) (x : Float) (s : String) :
    .text s ∉ [Value.ofOption o, .number x] := by
  simp [Value.text_ne_ofOption]

theorem Call.text_notMem_body (run : Runner) (t : Template) (place : Nat) (r : Registers)
    (s : String) : .text s ∉ (body run t place r).stack :=
  Value.text_notMem_operands _ _ s

namespace Machine

variable {fold : Fold}

/-- A text on the stack was there before an instruction, or the instruction has put it
there. -/
theorem mem_stack_perform (hfold : ∀ v r s, (fold v r).1 ≠ .text s) {stack : List Value}
    {mode : Mode} {r : Registers} {op : Opcode} {s : String}
    (h : .text s ∈ (perform fold ⟨stack, mode, r⟩ op).stack) :
    .text s ∈ stack ∨ op.pushedText? = some s := by
  have hoption := Value.text_ne_ofOption s
  have hjump : ∀ onZero, .text s ∈ (jump ⟨stack, mode, r⟩ onZero).stack → .text s ∈ stack := by
    intro onZero hmem
    obtain ⟨condition, rest, hstack, heq⟩ := jump_eq stack mode onZero
    rw [heq] at hmem
    split at hmem
    · exact hstack s (List.mem_cons_of_mem _ hmem)
    · exact hstack s hmem
  cases op with
  | name t | blockOpen t => simpa [perform, push, Opcode.pushedText?, or_comm, eq_comm] using h
  | jumpIfZero => exact .inl (hjump true h)
  | jumpIfNotZero => exact .inl (hjump false h)
  | reduce reduction =>
    have hstack : ∃ o, (perform fold ⟨stack, mode, r⟩ (.reduce reduction)).stack =
        [Value.ofOption o] := by
      cases reduction <;> exact ⟨_, rfl⟩
    obtain ⟨o, ho⟩ := hstack
    rw [ho, List.mem_singleton] at h
    exact absurd h (hoption o)
  | eachRegister =>
    rcases stack with _ | ⟨v, rest⟩
    · rcases List.mem_cons.1 h with h | h
      · exact absurd h.symm (hfold .undefined r s)
      · cases h
    · rcases List.mem_cons.1 h with h | h
      · exact absurd h.symm (hfold v r s)
      · exact .inl (List.mem_cons_of_mem _ h)
  | swap =>
    rcases stack with _ | ⟨v, _ | ⟨w, rest⟩⟩ <;> simp_all [perform, pop, push, or_left_comm]
  | _ =>
    refine .inl ?_
    rcases stack with _ | ⟨v, _ | ⟨w, rest⟩⟩ <;>
      simp_all [perform, pop, push, popNumber, pushNumber, binary, binaryWithSide, withRegisters,
        setIntermediate]

end Machine

/-- A text without a blank is no template. -/
theorem Template.parse?_eq_none {s : String} (h : ∀ c ∈ s.toList, Text.isBlank c = false) :
    Template.parse? s = none := by
  have hwords : Text.words s = [] ∨ ∃ w, Text.words s = [w] := by
    rw [Text.words, Text.splitWords, Text.cut_of_notBlank h]
    cases s.toList with
    | nil => exact .inl rfl
    | cons c cs => exact .inr ⟨_, rfl⟩
  unfold Template.parse?
  rcases hwords with hwords | ⟨w, hwords⟩ <;> rw [hwords]

/-- What a fold leaves on the stack is no text. -/
theorem foldNested_ne_text (depth : Nat) (v : Value) (r : Registers) (s : String) :
    (foldNested depth v r).1 ≠ .text s := by
  cases depth with
  | zero => exact nofun
  | succ depth =>
    rw [foldNested]
    unfold foldWith
    split
    · split
      · exact nofun
      · exact nofun
    · exact nofun

namespace Call

/-- A call gathers a part of some words: it stands between two bars and holds none, and the
machine is running when it comes to the first of them. -/
def Gathers (depth : Nat) (c : Call) (before part : List String) : Prop :=
  ∃ left opening closing right, before = left ++ opening :: (part ++ closing :: right) ∧
    (c.after depth left).mode = .running ∧ isBar opening = true ∧ isBar closing = true ∧
      ∀ w ∈ part, isBar w = false

variable {c : Call} {before : List String} {depth : Nat}

theorem Gathers.append_right {part : List String} (h : c.Gathers depth before part)
    (after : List String) : c.Gathers depth (before ++ after) part := by
  obtain ⟨left, opening, closing, right, rfl, h⟩ := h
  exact ⟨left, opening, closing, right ++ after, by simp, h⟩

/-- What is being gathered are the words since a bar that was executed, and none of them is
one. -/
theorem exists_of_gathering {tokens : List String}
    (h : (c.after depth before).mode = .gathering tokens) :
    ∃ left bar, before = left ++ bar :: tokens ∧ (c.after depth left).mode = .running ∧
      isBar bar = true ∧ ∀ w ∈ tokens, isBar w = false := by
  induction before using List.reverseRecOn generalizing tokens with
  | nil => cases h
  | append_singleton before token ih =>
    rw [after_append_singleton] at h
    generalize hm : c.after depth before = m at h ih
    obtain ⟨stack, mode, r⟩ := m
    cases mode with
    | running =>
      rw [Machine.advance_running] at h
      by_cases hbar : Opcode.ofToken token = .capture
      · rw [hbar] at h
        cases h
        exact ⟨before, token, rfl, congrArg Machine.mode hm, Program.isBar_iff.2 hbar, nofun⟩
      · exact absurd h (Machine.mode_perform hbar tokens)
    | skipping =>
      rw [Machine.advance_skipping] at h
      split at h
      · cases h
      · cases h
    | gathering gathered =>
      obtain ⟨left, bar, rfl, hrunning, hbar, hgathered⟩ := ih rfl
      rw [Machine.advance_gathering] at h
      split at h
      · cases h
      · next htoken =>
        cases h
        refine ⟨left, bar, by simp, hrunning, hbar, List.forall_mem_append.2 ⟨hgathered, ?_⟩⟩
        exact List.forall_mem_singleton.2 (Program.isBar_eq_false_iff.2 htoken)

/-- A text on the stack was there from the start, or a word has put it there, or it was
gathered. -/
theorem text_after {s : String} (hs : .text s ∈ (c.after depth before).stack) :
    .text s ∈ c.stack ∨ (∃ w ∈ before, (Opcode.ofToken w).pushedText? = some s) ∨
      ∃ part, c.Gathers depth before part ∧ s = Text.unwords part := by
  induction before using List.reverseRecOn with
  | nil => exact .inl hs
  | append_singleton before token ih =>
    have hearlier : .text s ∈ (c.after depth before).stack → .text s ∈ c.stack ∨
        (∃ w ∈ before ++ [token], (Opcode.ofToken w).pushedText? = some s) ∨
          ∃ part, c.Gathers depth (before ++ [token]) part ∧ s = Text.unwords part := by
      intro hmem
      rcases ih hmem with hstack | ⟨w, hw, hpushed⟩ | ⟨part, hpart, hs⟩
      · exact .inl hstack
      · exact .inr (.inl ⟨w, List.mem_append_left _ hw, hpushed⟩)
      · exact .inr (.inr ⟨part, hpart.append_right [token], hs⟩)
    have hgathering := @exists_of_gathering c before depth
    rw [after_append_singleton] at hs
    generalize c.after depth before = m at hs hgathering hearlier
    obtain ⟨stack, mode, r⟩ := m
    cases mode with
    | running =>
      rcases Machine.mem_stack_perform (foldNested_ne_text depth) hs with hmem | hpushed
      · exact hearlier hmem
      · exact .inr (.inl ⟨token, by simp, hpushed⟩)
    | skipping =>
      rw [Machine.advance_skipping] at hs
      split at hs
      · exact hearlier hs
      · exact hearlier hs
    | gathering tokens =>
      rw [Machine.advance_gathering] at hs
      split at hs
      · next hclosing =>
        rcases List.mem_cons.1 hs with heq | hmem
        · obtain ⟨left, opening, rfl, hrunning, hopening, hpart⟩ := hgathering rfl
          refine .inr (.inr ⟨tokens, ⟨left, opening, token, [], ?_, hrunning, hopening,
            Program.isBar_iff.2 hclosing, hpart⟩, Value.text.inj heq⟩)
          rw [List.append_assoc, List.cons_append]
        · exact hearlier hmem
      · exact hearlier hs

/-- A template on the stack was there from the start, or it was gathered: what a word puts there
has no blank. -/
theorem template_after (hwords : ∀ w ∈ before, Text.IsWord w.toList) {s : String} {t : Template}
    (hs : .text s ∈ (c.after depth before).stack) (ht : Template.parse? s = some t) :
    .text s ∈ c.stack ∨ ∃ part, c.Gathers depth before part ∧ s = Text.unwords part := by
  rcases text_after hs with hstack | ⟨w, hw, hpushed⟩ | hpart
  · exact .inl hstack
  · have hblank : ∀ d ∈ s.toList, Text.isBlank d = false := fun d hd =>
      (hwords w hw).2 d (Opcode.subset_of_pushedText? hpushed hd)
    rw [Template.parse?_eq_none hblank] at ht
    cases ht
  · exact .inr hpart

/-- A template on the stack was gathered before a bar of the program, if none is there
from the start. -/
theorem quoted_after (hstack : ∀ s, .text s ∈ c.stack → Template.parse? s = none)
    (hwords : ∀ w ∈ before, Text.IsWord w.toList) {s : String} {t : Template}
    (hs : .text s ∈ (c.after depth before).stack) (ht : Template.parse? s = some t) :
    ∃ left bar, left ++ [bar] <+: before ∧ isBar bar = true ∧
      s = Text.unwords (sinceBar left) := by
  rcases template_after hwords hs ht with hmem | ⟨part, hpart, rfl⟩
  · rw [hstack s hmem] at ht
    cases ht
  · obtain ⟨left, opening, closing, right, rfl, -, hopening, hclosing, hbars⟩ := hpart
    refine ⟨left ++ [opening] ++ part, closing, ⟨right, by simp⟩, hclosing, ?_⟩
    rw [Program.sinceBar_append _ hbars, Program.sinceBar_append_bar left hopening, List.nil_append]

theorem mem_stack_of_pop {m : Machine} {s : String} (h : m.pop.1 = .text s) :
    .text s ∈ m.stack := by
  obtain ⟨_ | ⟨v, stack⟩, mode, r⟩ := m
  · cases h
  · exact h ▸ List.mem_cons_self

/-- The calls of an expression are its own, and those of bodies that stand between two
of its bars, after the four words that a template begins with. -/
theorem Reaches.top_or_body {expression : String} {r : Registers}
    (h : Reaches (ofExpression expression r) depth c) :
    depth = 2 ∧ c = ofExpression expression r ∨
      depth = 1 ∧ (∀ s, .text s ∉ c.stack) ∧ ∃ left bar,
        left ++ [bar] <+: Text.words expression ∧ isBar bar = true ∧
          c.tokens = (sinceBar left).drop 4 := by
  induction h with
  | top => exact .inl ⟨rfl, rfl⟩
  | @body depth c before token s t place h hexec hop hpop ht hplace ih =>
    have hbefore : before <+: c.tokens := (List.prefix_append _ _).trans hexec.1
    have hquoted : (∀ s, .text s ∉ c.stack) → (∀ w ∈ c.tokens, Text.IsWord w.toList) →
        ∃ left bar, left ++ [bar] <+: before ∧ isBar bar = true ∧
          s = Text.unwords (sinceBar left) :=
      fun hstack hwords => quoted_after (fun s hs => absurd hs (hstack s))
        (fun w hw => hwords w (hbefore.subset hw)) (mem_stack_of_pop hpop) ht
    rcases ih with ⟨hdepth, rfl⟩ | ⟨-, hstack, left, bar, hinitial, -, htokens⟩
    · have hwords : ∀ w ∈ Text.words expression, Text.IsWord w.toList :=
        fun w => Text.isWord_of_mem_words
      obtain ⟨left, bar, hleft, hbar, rfl⟩ := hquoted (fun s => List.not_mem_nil) hwords
      have hinitial : left ++ [bar] <+: Text.words expression := hleft.trans hbefore
      have hgathered : ∀ w ∈ sinceBar left, Text.IsWord w.toList := fun w hw =>
        hwords w (hinitial.subset (List.mem_append_left _ (Program.sinceBar_subset left hw)))
      obtain ⟨-, hbody⟩ := Template.parse?_unwords hgathered ht
      refine .inr ⟨by omega, text_notMem_body _ t place _, left, bar, hinitial, hbar, ?_⟩
      simp only [Call.body, hbody, Program.map_token_ofTokens]
    · have hinner : ∀ w ∈ c.tokens, w ∈ sinceBar left := fun w hw =>
        List.mem_of_mem_drop (htokens ▸ hw)
      obtain ⟨left', bar', hleft', hbar', -⟩ := hquoted hstack fun w hw =>
        Text.isWord_of_mem_words (hinitial.subset (List.mem_append_left _
          (Program.sinceBar_subset left (hinner w hw))))
      -- a body holds no bar
      have hmem : bar' ∈ c.tokens := hbefore.subset (hleft'.subset (by simp))
      rw [Program.isBar_of_mem_sinceBar (hinner bar' hmem)] at hbar'
      cases hbar'

/-- The words of a call stand together in the expression. -/
theorem Reaches.tokens_infix {expression : String} {r : Registers} {depth : Nat} {c : Call}
    (h : Reaches (ofExpression expression r) depth c) : c.tokens <:+: Text.words expression := by
  rcases h.top_or_body with ⟨-, rfl⟩ | ⟨-, -, left, bar, hinitial, -, htokens⟩
  · exact List.infix_refl _
  · have hleft : left <+: Text.words expression := (List.prefix_append _ _).trans hinitial
    rw [htokens]
    exact ((List.drop_suffix 4 _).isInfix.trans (List.rtakeWhile_suffix _ _).isInfix).trans
      hleft.isInfix

end Call

end Reckoner
