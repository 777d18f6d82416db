import Reckoner.Proofs.Machine.Calls
import Reckoner.Proofs.Program.Keyword

/-!
# Evaluation ends

A program is run without a bound on how deep folds nest (`Machine.Runs`), and the steps of its
folds are written down, each with the bodies of the folds around it. The run has one end
(`Machine.Runs.unique`).

A body is gathered between two bars or comes from the stack that the evaluation begins with. One
of the first kind holds no bar, and nothing in it can fold. So what nests is known before anything
is run (`Call.Fits`): folds in a body from the stack call bodies between its bars, which are
shorter (`Call.Fits.length_body_lt`). Every evaluation ends, with what the machine whose folds nest
twice at most says (`evaluateOn_ends`).
-/

namespace Reckoner

open Machine (advance start)
open Program (instruction ofTokens isBar sinceBar)

/-- A step of a fold: the body that it runs, and the bodies of the folds around it, the
innermost first. -/
structure FoldStep where
  body : Program
  outer : List Program
  deriving DecidableEq

/-- A step in a step of another fold runs a body that is shorter than that of the other. -/
def FoldStep.Shrinks (step : FoldStep) : Prop :=
  ∀ p ∈ step.outer.head?, step.body.length < p.length

namespace Machine

/-- The template that an instruction folds, if it folds any. -/
def template? (m : Machine) (i : Instruction) : Option Template :=
  match m.mode, i.op, m.pop.1 with
  | .running, .eachRegister, .text s => Template.parse? s
  | _, _, _ => none

/-- The machine after a fold, given its result and the registers that it leaves. -/
def afterFold (m : Machine) (done : Float × Registers) : Machine :=
  (m.pop.2.withRegisters done.2).push (.number done.1)

mutual

/-- A program is run on a machine, in a step of some folds or of none. The machine ends, and
the steps of folds are these. No bound is set to how deep folds nest. -/
inductive Runs : List Program → Program → Machine → Machine → List FoldStep → Prop
  | nil (outer : List Program) (m : Machine) : Runs outer [] m m []
  | word {outer : List Program} {i : Instruction} {rest : Program} {m done : Machine}
    {log : List FoldStep} (hword : m.template? i = none)
    (hrest : Runs outer rest (advance (foldNested 0) m i) done log) :
    Runs outer (i :: rest) m done log
  | fold {outer : List Program} {i : Instruction} {rest : Program} {m done : Machine}
    {t : Template} {folded : Float × Registers} {steps log : List FoldStep}
    (htemplate : m.template? i = some t)
    (hsteps : Folds outer t t.range.size t.range.first (t.initial, m.registers) folded steps)
    (hrest : Runs outer rest (m.afterFold folded) done log) :
    Runs outer (i :: rest) m done (steps ++ log)

/-- A fold goes through so many registers from an index on. -/
inductive Folds : List Program → Template → Nat → Int → Float × Registers → Float × Registers →
    List FoldStep → Prop
  | nil (outer : List Program) (t : Template) (index : Int) (done : Float × Registers) :
    Folds outer t 0 index done done []
  | step {outer : List Program} {t : Template} {count : Nat} {index : Int}
    {begun done : Float × Registers} {m : Machine} {steps log : List FoldStep}
    (hbody : Runs (t.body :: outer) t.body
      (start [Value.ofOption (begun.2.get? (t.range.register index)), .number begun.1] begun.2)
      m steps)
    (hrest : Folds outer t count (index + 1) (m.result, m.registers.setLast m.result) done log) :
    Folds outer t (count + 1) index begun done (⟨t.body, outer⟩ :: steps ++ log)

end

/-! ## One end -/

/-- A program ends in one way. -/
theorem Runs.unique {outer : List Program} {p : Program} {m done done' : Machine}
    {log log' : List FoldStep} (h : Runs outer p m done log) (h' : Runs outer p m done' log') :
    done = done' ∧ log = log' := by
  revert done' log'
  refine @Runs.rec (fun outer p m done log _ => ∀ {done' log'}, Runs outer p m done' log' →
      done = done' ∧ log = log')
    (fun outer t count index begun done log _ => ∀ {done' log'},
      Folds outer t count index begun done' log' → done = done' ∧ log = log')
    ?nil ?word ?fold ?done ?step outer p m done log h
  case nil =>
    intro outer m done' log' h'
    cases h'
    exact ⟨rfl, rfl⟩
  case word =>
    intro outer i rest m done log hword _ ih done' log' h'
    cases h' with
    | word _ hrest => exact ih hrest
    | fold htemplate => cases hword.symm.trans htemplate
  case fold =>
    intro outer i rest m done t folded steps log htemplate _ _ ihsteps ih done' log' h'
    cases h' with
    | word hword => cases hword.symm.trans htemplate
    | fold htemplate' hsteps hrest =>
      obtain rfl := Option.some.inj (htemplate.symm.trans htemplate')
      obtain ⟨rfl, rfl⟩ := ihsteps hsteps
      obtain ⟨rfl, rfl⟩ := ih hrest
      exact ⟨rfl, rfl⟩
  case done =>
    intro outer t index done done' log' h'
    cases h'
    exact ⟨rfl, rfl⟩
  case step =>
    intro outer t count index begun done m steps log _ _ ihbody ih done' log' h'
    cases h' with
    | step hbody hrest =>
      obtain ⟨rfl, rfl⟩ := ihbody hbody
      obtain ⟨rfl, rfl⟩ := ih hrest
      exact ⟨rfl, rfl⟩

/-- What follows a program goes on with the machine that it leaves. -/
theorem Runs.append {outer : List Program} {p q : Program} {m between done : Machine}
    {steps log : List FoldStep} (h : Runs outer p m between steps)
    (hrest : Runs outer q between done log) : Runs outer (p ++ q) m done (steps ++ log) := by
  induction p generalizing m steps with
  | nil =>
    cases h
    exact hrest
  | cons i p ih =>
    cases h with
    | word hword h => exact .word hword (ih h)
    | fold htemplate hsteps h =>
      rw [List.append_assoc]
      exact .fold htemplate hsteps (ih h)

/-! ## The bounded machine -/

theorem template?_eq_some_iff {m : Machine} {i : Instruction} {t : Template} :
    m.template? i = some t ↔ m.mode = .running ∧ i.op = .eachRegister ∧
      ∃ s, m.pop.1 = .text s ∧ Template.parse? s = some t := by
  unfold template?
  constructor
  · intro h
    split at h
    · next s hmode hop hpop => exact ⟨hmode, hop, s, hpop, h⟩
    · cases h
  · rintro ⟨hmode, hop, s, hpop, ht⟩
    rw [hmode, hop, hpop]
    exact ht

theorem foldNested_of_parse?_none {v : Value} (h : ∀ s, v = .text s → Template.parse? s = none)
    (depth : Nat) (r : Registers) : foldNested depth v r = (.undefined, r) := by
  cases depth with
  | zero => rfl
  | succ depth =>
    cases v with
    | text s => simp only [foldNested, foldWith, h s rfl]
    | number x => rfl
    | undefined => rfl

theorem advance_of_template?_none {m : Machine} {i : Instruction} (h : m.template? i = none)
    (depth : Nat) : advance (foldNested depth) m i = advance (foldNested 0) m i := by
  obtain ⟨op, token⟩ := i
  obtain ⟨stack, mode, r⟩ := m
  cases mode with
  | skipping => rfl
  | gathering tokens => rfl
  | running =>
    cases op with
    | eachRegister =>
      have hnone : ∀ s, (Machine.pop ⟨stack, .running, r⟩).1 = .text s →
          Template.parse? s = none := by
        intro s hpop
        cases ht : Template.parse? s with
        | none => rfl
        | some t =>
          rw [template?_eq_some_iff.2 ⟨rfl, rfl, s, hpop, ht⟩] at h
          cases h
      simp only [advance, perform, foldNested_of_parse?_none hnone]
    | _ => rfl

theorem advance_of_template?_some {m : Machine} {i : Instruction} {t : Template}
    (h : m.template? i = some t) (depth : Nat) :
    advance (foldNested (depth + 1)) m i =
      m.afterFold (t.fold (runNested depth) m.registers) := by
  obtain ⟨hmode, hop, s, hpop, ht⟩ := template?_eq_some_iff.1 h
  have hregisters : m.pop.2.registers = m.registers := by
    obtain ⟨_ | ⟨v, stack⟩, mode, r⟩ := m <;> rfl
  simp only [advance, hmode, hop, perform, hpop, foldNested, foldWith, ht, hregisters]
  rfl

end Machine

namespace Call

open Machine (Runs Folds)

/-- Folds in a call nest so deep at most. One in which they do not nest finds no template on the
stack that it is made on, and one without folds gathers none either. -/
structure Fits (depth : Nat) (c : Call) : Prop where
  words : ∀ w ∈ c.tokens, Text.IsWord w.toList
  untemplated : depth ≤ 1 → ∀ s, .text s ∈ c.stack → Template.parse? s = none
  barless : depth = 0 → ∀ w ∈ c.tokens, isBar w = false

variable {c : Call} {before : List String} {token : String} {depth : Nat} {t : Template}

/-- A template that is folded where folds do not nest was gathered: its body stands between two
bars of the program. -/
theorem Fits.body_gathered (h : c.Fits depth) (hdepth : depth ≤ 1)
    (hinitial : before ++ [token] <+: c.tokens)
    (ht : (c.after depth before).template? (instruction token) = some t) :
    ∃ left bar, left ++ [bar] <+: c.tokens ∧ isBar bar = true ∧
      t.body = ofTokens ((sinceBar left).drop 4) := by
  obtain ⟨-, -, s, hpop, hparse⟩ := Machine.template?_eq_some_iff.1 ht
  have hbefore : before <+: c.tokens := (List.prefix_append _ _).trans hinitial
  obtain ⟨left, bar, hleft, hbar, rfl⟩ := quoted_after (h.untemplated hdepth)
    (fun w hw => h.words w (hbefore.subset hw)) (mem_stack_of_pop hpop) hparse
  have hgathered : ∀ w ∈ sinceBar left, Text.IsWord w.toList := fun w hw =>
    h.words w ((hleft.trans hbefore).subset
      (List.mem_append_left _ (Program.sinceBar_subset left hw)))
  exact ⟨left, bar, hleft.trans hbefore, hbar, (Template.parse?_unwords hgathered hparse).2⟩

/-- A call without folds folds nothing. -/
theorem Fits.template?_eq_none (h : c.Fits 0) (hinitial : before ++ [token] <+: c.tokens) :
    (c.after 0 before).template? (instruction token) = none := by
  cases ht : (c.after 0 before).template? (instruction token) with
  | none => rfl
  | some t =>
    obtain ⟨left, bar, hleft, hbar, -⟩ := h.body_gathered (Nat.zero_le 1) hinitial ht
    rw [h.barless rfl bar (hleft.subset (by simp))] at hbar
    cases hbar

/-- What a body finds on the stack is no text. -/
theorem Fits.body (h : c.Fits (depth + 1)) (hinitial : before ++ [token] <+: c.tokens)
    (ht : (c.after (depth + 1) before).template? (instruction token) = some t) {stack : List Value}
    (hstack : ∀ s, .text s ∉ stack) (r : Registers) :
    Fits depth ⟨t.body.map Instruction.token, stack, r⟩ := by
  obtain ⟨-, -, s, -, hparse⟩ := Machine.template?_eq_some_iff.1 ht
  refine ⟨fun w hw => ?_, fun _ s hs => absurd hs (hstack s), fun hdepth w hw => ?_⟩
  · rw [Template.map_token_body hparse] at hw
    exact Text.isWord_of_mem_words (List.mem_of_mem_drop hw)
  · obtain ⟨left, bar, -, -, hgathered⟩ := h.body_gathered (by omega) hinitial ht
    rw [hgathered, Program.map_token_ofTokens] at hw
    exact Program.isBar_of_mem_sinceBar (List.mem_of_mem_drop hw)

/-- A body that was gathered is shorter than the program. -/
theorem Fits.length_body_lt (h : c.Fits 1) (hinitial : before ++ [token] <+: c.tokens)
    (ht : (c.after 1 before).template? (instruction token) = some t) :
    t.body.length < c.tokens.length := by
  obtain ⟨left, bar, hleft, -, hbody⟩ := h.body_gathered le_rfl hinitial ht
  have hsince : (sinceBar left).length ≤ left.length := (List.rtakeWhile_suffix _ _).length_le
  have hlength := hleft.length_le
  rw [hbody, ofTokens, List.length_map, List.length_drop]
  rw [List.length_append, List.length_singleton] at hlength
  omega

/-- What is known of the steps of folds in a program with so many words for a fold, which is
run in a step of the folds `outer`. -/
structure Bounded (outer : List Program) (depth eachregs : Nat) (log : List FoldStep) : Prop where
  shrinks : ∀ step ∈ log, step.Shrinks
  outermost : depth ≤ 1 → ∀ step ∈ log, step.outer = outer
  length_le : depth ≤ 1 → log.length ≤ Template.maxSteps * eachregs
  none : depth = 0 → log = []

theorem bounded_nil (outer : List Program) (depth eachregs : Nat) :
    Bounded outer depth eachregs [] :=
  ⟨nofun, fun _ => nofun, fun _ => Nat.zero_le _, fun _ => rfl⟩

theorem Bounded.append {outer : List Program} {eachregs others : Nat} {log log' : List FoldStep}
    (h : Bounded outer depth eachregs log) (h' : Bounded outer depth others log') :
    Bounded outer depth (eachregs + others) (log ++ log') where
  shrinks := List.forall_mem_append.2 ⟨h.shrinks, h'.shrinks⟩
  outermost hdepth := List.forall_mem_append.2 ⟨h.outermost hdepth, h'.outermost hdepth⟩
  length_le hdepth := by
    rw [List.length_append, Nat.mul_add]
    exact Nat.add_le_add (h.length_le hdepth) (h'.length_le hdepth)
  none hdepth := by rw [h.none hdepth, h'.none hdepth, List.append_nil]

/-- A program ends on any machine as the one in which folds nest so deep at most says. -/
def Ends (outer : List Program) (depth eachregs : Nat) (p : Program) (stack : List Value)
    (r : Registers) : Prop :=
  ∃ m log, Runs outer p (start stack r) m log ∧
    Reckoner.runNested depth p stack r = (m.result, m.registers.setLast m.result) ∧
      Bounded outer depth eachregs log

/-- A fold ends if its body does. -/
theorem exists_folds {outer : List Program} {eachregs : Nat}
    (hbody : ∀ stack r, (∀ s, .text s ∉ stack) →
      Ends (t.body :: outer) depth eachregs t.body stack r)
    (hshrinks : ∀ p ∈ outer.head?, t.body.length < p.length) (count : Nat) (index : Int)
    (begun : Float × Registers) :
    ∃ log, Folds outer t count index begun
        (t.steps (Reckoner.runNested depth) count index begun.1 begun.2) log ∧
      (∀ step ∈ log, step.Shrinks) ∧
        (depth = 0 → log = List.replicate count ⟨t.body, outer⟩) := by
  induction count generalizing index begun with
  | zero => exact ⟨[], .nil outer t index begun, nofun, fun _ => rfl⟩
  | succ count ih =>
    obtain ⟨m, steps, hruns, heq, hsteps⟩ :=
      hbody [Value.ofOption (begun.2.get? (t.range.register index)), .number begun.1] begun.2
        (Value.text_notMem_operands _ _)
    obtain ⟨log, hfolds, hlog, hnone⟩ := ih (index + 1) (m.result, m.registers.setLast m.result)
    refine ⟨⟨t.body, outer⟩ :: steps ++ log, .step hruns ?_, ?_, fun hdepth => ?_⟩
    · rw [Template.steps, heq]
      exact hfolds
    · exact List.forall_mem_cons.2 ⟨hshrinks, List.forall_mem_append.2 ⟨hsteps.shrinks, hlog⟩⟩
    · rw [hnone hdepth, hsteps.none hdepth]
      rfl

/-- The steps of one fold, in a call where folds nest so deep at most. -/
theorem Fits.exists_folded (h : c.Fits (depth + 1)) (hdepth : depth ≤ 1) {outer : List Program}
    (houter : ∀ p ∈ outer.head?, depth = 0 ∧ p.length = c.tokens.length)
    (hbody : ∀ d : Call, d.Fits depth → ∀ outer : List Program,
      (∀ p ∈ outer.head?, p.length = d.tokens.length) →
        Ends outer depth (d.tokens.count "eachreg") (ofTokens d.tokens) d.stack d.registers)
    (hinitial : before ++ [token] <+: c.tokens)
    (ht : (c.after (depth + 1) before).template? (instruction token) = some t) :
    ∃ log, Folds outer t t.range.size t.range.first
        (t.initial, (c.after (depth + 1) before).registers)
        (t.fold (Reckoner.runNested depth) (c.after (depth + 1) before).registers) log ∧
      Bounded outer (depth + 1) 1 log := by
  obtain ⟨-, -, s, -, hparse⟩ := Machine.template?_eq_some_iff.1 ht
  obtain ⟨-, hsize, -⟩ := Template.of_parse? hparse
  have htokens := Template.ofTokens_body hparse
  have hends : ∀ stack r, (∀ s, .text s ∉ stack) → Ends (t.body :: outer) depth
      ((t.body.map Instruction.token).count "eachreg") t.body stack r := by
    intro stack r hstack
    have hrun := hbody _ (h.body hinitial ht hstack r) (t.body :: outer) (by simp)
    rwa [htokens] at hrun
  have hshrinks : ∀ p ∈ outer.head?, t.body.length < p.length := by
    intro p hp
    obtain ⟨rfl, hlength⟩ := houter p hp
    rw [hlength]
    exact h.length_body_lt hinitial ht
  obtain ⟨log, hfolds, hlog, hnone⟩ := exists_folds hends hshrinks t.range.size t.range.first
    (t.initial, (c.after (depth + 1) before).registers)
  refine ⟨log, hfolds, hlog, fun hle => ?_, fun hle => ?_, nofun⟩
  · rw [hnone (by omega)]
    intro step hstep
    rw [List.eq_of_mem_replicate hstep]
  · rw [hnone (by omega), List.length_replicate, Nat.mul_one]
    exact hsize

/-- Some words of a call are run, if the bodies that it calls end. -/
theorem Fits.exists_runs (h : c.Fits depth) (hdepth : depth ≤ 2) {outer : List Program}
    (houter : ∀ p ∈ outer.head?, depth ≤ 1 ∧ p.length = c.tokens.length)
    (hbody : ∀ n < depth, ∀ d : Call, d.Fits n → ∀ outer : List Program,
      (∀ p ∈ outer.head?, p.length = d.tokens.length) →
        Ends outer n (d.tokens.count "eachreg") (ofTokens d.tokens) d.stack d.registers)
    (hinitial : before <+: c.tokens) :
    ∃ log, Runs outer (ofTokens before) (start c.stack c.registers) (c.after depth before) log ∧
      Bounded outer depth (before.count "eachreg") log := by
  induction before using List.reverseRecOn with
  | nil => exact ⟨[], .nil outer _, bounded_nil outer depth 0⟩
  | append_singleton before token ih =>
    obtain ⟨log, hruns, hlog⟩ := ih ((List.prefix_append _ _).trans hinitial)
    have hprogram : ofTokens (before ++ [token]) = ofTokens before ++ [instruction token] := by
      rw [ofTokens, List.map_append]
      rfl
    rw [hprogram, after_append_singleton, List.count_append]
    cases ht : (c.after depth before).template? (instruction token) with
    | none =>
      rw [Machine.advance_of_template?_none ht]
      exact ⟨log ++ [], hruns.append (.word ht (.nil _ _)), hlog.append (bounded_nil _ _ _)⟩
    | some t =>
      have hop := (Machine.template?_eq_some_iff.1 ht).2.1
      obtain rfl : token = "eachreg" := (Opcode.ofToken_eq_iff (by decide) rfl).1 hop
      cases depth with
      | zero =>
        rw [h.template?_eq_none hinitial] at ht
        cases ht
      | succ depth =>
        obtain ⟨steps, hfolds, hsteps⟩ := h.exists_folded (Nat.le_of_succ_le_succ hdepth)
          (fun p hp => ⟨by have := (houter p hp).1; omega, (houter p hp).2⟩)
          (hbody depth depth.lt_succ_self) hinitial ht
        rw [Machine.advance_of_template?_some ht]
        exact ⟨log ++ (steps ++ []), hruns.append (.fold ht hfolds (.nil _ _)),
          hlog.append (by rwa [List.append_nil])⟩

/-- A call ends in which folds nest twice at most. -/
theorem Fits.ends (h : c.Fits depth) (hdepth : depth ≤ 2) (outer : List Program)
    (houter : ∀ p ∈ outer.head?, depth ≤ 1 ∧ p.length = c.tokens.length) :
    Ends outer depth (c.tokens.count "eachreg") (ofTokens c.tokens) c.stack c.registers := by
  induction depth using Nat.strongRecOn generalizing c outer with
  | ind depth ih =>
    obtain ⟨log, hruns, hlog⟩ := h.exists_runs hdepth houter
      (fun n hn d hd outer houter => ih n hn hd (by omega) outer fun p hp =>
        ⟨by omega, houter p hp⟩) (List.prefix_refl _)
    refine ⟨_, log, hruns, ?_, hlog⟩
    rw [Reckoner.runNested_eq]
    rfl

end Call

/-- Every evaluation ends, whatever lies on the stack. A fold in a step of another fold runs a
shorter body. If no text on the stack has a blank, folds do not nest, and a word for a fold makes
`Template.maxSteps` steps at most. -/
theorem evaluateOn_ends (expression : String) (stack : List Value) (r : Registers) :
    ∃ m log, Machine.Runs [] (Program.parse expression) (start stack r) m log ∧
      (∀ m' log', Machine.Runs [] (Program.parse expression) (start stack r) m' log' →
        m' = m ∧ log' = log) ∧
      evaluateOn expression stack r = (m.result, m.registers.setLast m.result) ∧
      (∀ step ∈ log, step.Shrinks) ∧
      ((∀ s, .text s ∈ stack → ∀ c ∈ s.toList, Text.isBlank c = false) →
        (∀ step ∈ log, step.outer = []) ∧
          log.length ≤ Template.maxSteps * (Text.words expression).count "eachreg") := by
  let c : Call := ⟨Text.words expression, stack, r⟩
  have hwords : ∀ w ∈ c.tokens, Text.IsWord w.toList := fun w => Text.isWord_of_mem_words
  have htwice : c.Fits 2 := ⟨hwords, by omega, by omega⟩
  obtain ⟨m, log, hruns, heq, hlog⟩ := htwice.ends le_rfl [] (by simp)
  refine ⟨m, log, hruns, fun m' log' h => h.unique hruns, heq, hlog.shrinks, fun hblank => ?_⟩
  -- the same run, as one in which folds do not nest
  have honce : c.Fits 1 :=
    ⟨hwords, fun _ s hs => Template.parse?_eq_none (hblank s hs), by omega⟩
  obtain ⟨m', log', hruns', -, hlog'⟩ := honce.ends (Nat.le_succ 1) [] (by simp)
  obtain ⟨-, rfl⟩ := hruns.unique hruns'
  exact ⟨hlog'.outermost le_rfl, hlog'.length_le le_rfl⟩

/-- A fold on a stack with a name on it, which has no blank. -/
theorem evaluateOn_ends_sum :
    (∀ s, .text s ∈ [Value.text "A1"] → ∀ c ∈ s.toList, Text.isBlank c = false) ∧
      ∃ m log, Machine.Runs [] (Program.parse "| ~A 1 3 0 + | eachreg")
          (start [.text "A1"] Registers.new) m log ∧
        (∀ step ∈ log, step.outer = []) ∧ log.length ≤ 1000000 := by
  have hblank : ∀ s, .text s ∈ [Value.text "A1"] → ∀ c ∈ s.toList, Text.isBlank c = false := by
    intro s hs
    obtain rfl := Value.text.inj (List.mem_singleton.1 hs)
    have hall : "A1".toList.all (fun c => !Text.isBlank c) = true := by decide
    exact fun c hc => by simpa using List.all_eq_true.1 hall c hc
  obtain ⟨m, log, hruns, -, -, -, hsteps⟩ :=
    evaluateOn_ends "| ~A 1 3 0 + | eachreg" [.text "A1"] Registers.new
  obtain ⟨houter, hlength⟩ := hsteps hblank
  have hcount : (Text.words "| ~A 1 3 0 + | eachreg").count "eachreg" = 1 := by decide +kernel
  rw [hcount] at hlength
  exact ⟨hblank, m, log, hruns, houter, hlength⟩

end Reckoner
