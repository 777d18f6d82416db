import Reckoner.Proofs.Machine.Calls
import Reckoner.Proofs.Machine.Result

/-!
# What writes to registers keep

An instruction writes at most one register, resets the store, or runs a fold
(`Machine.registers_perform`). What is kept by all that a call does (`Call.Keeps`) holds
throughout the call and its folds (`Call.Reaches.preserved`). What holds of a store however
registers are written (`Registers.Stable`) is kept (`Call.Keeps.of_stable`), if it holds of a new
store or no `reset` is executed. That a register is there is of this kind. A call that executes no
`str`, `cpr` and `reset` keeps what a register holds unless it is one of the machine's.
-/

namespace Reckoner

open Machine (advance start)
open Program (instruction ofTokens)

namespace Registers

/-- What holds of a store holds of it when a register is written. -/
def Stable (P : Registers → Prop) : Prop := ∀ r name x, P r → P (r.set name x)

theorem contains_set_self (r : Registers) (name : String) (x : Float) :
    (r.set name x).contains name = true := by
  rw [contains, get?_set_self]
  rfl

theorem contains_set {r : Registers} {other : String} (h : r.contains other = true) (name : String)
    (x : Float) : (r.set name x).contains other = true := by
  by_cases hother : other = name
  · rw [hother]
    exact contains_set_self r name x
  · rwa [contains, get?_set_of_ne r hother]

theorem stable_contains (name : String) : Stable fun r => r.contains name = true :=
  fun _ other x h => contains_set h other x

/-- The registers of the machine are there. -/
def HasReserved (r : Registers) : Prop :=
  r.contains intermediateName = true ∧ r.contains lastName = true

theorem stable_hasReserved : Stable HasReserved :=
  fun _ name x h => ⟨contains_set h.1 name x, contains_set h.2 name x⟩

theorem hasReserved_new : new.HasReserved :=
  ⟨contains_set (contains_set_self _ _ _) _ _, contains_set_self _ _ _⟩

end Registers

open Registers (Stable)

/-! ## One instruction -/

/-- An opcode writes to the register that is named on the stack. -/
def Opcode.IsStore (op : Opcode) : Prop := op = .store ∨ op = .copyRegister

instance : DecidablePred Opcode.IsStore := fun _ => inferInstanceAs (Decidable (_ ∨ _))

namespace Machine

theorem registers_jump (m : Machine) (onZero : Bool) : (m.jump onZero).registers = m.registers := by
  obtain ⟨stack, mode, r⟩ := m
  obtain ⟨condition, rest, -, heq⟩ := jump_eq stack mode onZero
  rw [heq]
  split
  · rfl
  · rfl

theorem registers_eachRegister (fold : Fold) (m : Machine) :
    (m.perform fold .eachRegister).registers = (fold m.pop.1 m.registers).2 := by
  obtain ⟨_ | ⟨v, stack⟩, mode, r⟩ := m
  · rfl
  · rfl

/-- What an instruction does to the registers. Only `str` and `cpr` write to others than the
machine's. -/
theorem registers_perform (fold : Fold) (m : Machine) (op : Opcode) :
    (m.perform fold op).registers = m.registers ∨
      (∃ name x, (Registers.isReserved name = true ∨ op.IsStore) ∧
        (m.perform fold op).registers = m.registers.set name x) ∨
        (op = .reset ∧ (m.perform fold op).registers = Registers.new) ∨
          (op = .eachRegister ∧ (m.perform fold op).registers = (fold m.pop.1 m.registers).2) := by
  obtain ⟨stack, mode, r⟩ := m
  cases op with
  | reset => exact .inr (.inr (.inl ⟨rfl, rfl⟩))
  | eachRegister => exact .inr (.inr (.inr ⟨rfl, registers_eachRegister fold _⟩))
  | jumpIfZero => exact .inl (registers_jump _ true)
  | jumpIfNotZero => exact .inl (registers_jump _ false)
  | reduce reduction =>
    cases reduction with
    | average => exact .inr (.inl ⟨Registers.intermediateName, _, .inl rfl, rfl⟩)
    | sum | min | max | count => exact .inl rfl
  | percentAdd | percentSub | mround | fix =>
    refine .inr (.inl ?_)
    rcases stack with _ | ⟨v, _ | ⟨w, rest⟩⟩ <;> exact ⟨Registers.intermediateName, _, .inl rfl, rfl⟩
  | store =>
    refine .inr (.inl ?_)
    rcases stack with _ | ⟨v, _ | ⟨w, rest⟩⟩ <;> exact ⟨_, _, .inr (.inl rfl), rfl⟩
  | copyRegister =>
    refine .inr (.inl ?_)
    rcases stack with _ | ⟨v, _ | ⟨w, rest⟩⟩ <;> exact ⟨_, _, .inr (.inr rfl), rfl⟩
  | _ =>
    refine .inl ?_
    rcases stack with _ | ⟨v, _ | ⟨w, rest⟩⟩ <;> rfl

/-- A word that is not executed leaves the registers alone. -/
theorem registers_advance_of_ne {fold : Fold} {m : Machine} (h : m.mode ≠ .running)
    (token : String) : (advance fold m (instruction token)).registers = m.registers := by
  obtain ⟨stack, mode, r⟩ := m
  cases mode with
  | running => exact absurd rfl h
  | skipping =>
    rw [advance_skipping]
    split
    · rfl
    · rfl
  | gathering tokens =>
    rw [advance_gathering]
    split
    · rfl
    · rfl

end Machine

/-! ## Calls -/

namespace Call

/-- The result of a call whose folds nest `depth` deep at most, and the registers after it. -/
def runNested (depth : Nat) (c : Call) : Float × Registers :=
  Reckoner.runNested depth (ofTokens c.tokens) c.stack c.registers

/-- The result of a call, and the registers after it. -/
def run (c : Call) : Float × Registers :=
  Reckoner.run (ofTokens c.tokens) c.stack c.registers

/-- In a call or one of its folds, a `reset` is executed. -/
def Resets (top : Call) : Prop :=
  ∃ depth c before token, Reaches top depth c ∧ c.Executes depth before token ∧
    Opcode.ofToken token = .reset

/-- In a call or one of its folds, a word that writes to a named register is executed. -/
def Stores (top : Call) : Prop :=
  ∃ depth c before token, Reaches top depth c ∧ c.Executes depth before token ∧
    (Opcode.ofToken token).IsStore

/-- What is executed are words of the expression. -/
theorem Reaches.mem_words {expression : String} {r : Registers} {depth : Nat} {c : Call}
    {before : List String} {token : String} (h : Reaches (ofExpression expression r) depth c)
    (hexec : c.Executes depth before token) : token ∈ Text.words expression := by
  obtain ⟨after, hafter⟩ := hexec.exists_after
  have hmem : token ∈ c.tokens := by
    rw [hafter]
    exact List.mem_append_right before List.mem_cons_self
  exact h.tokens_infix.subset hmem

/-- There is no `reset` without a word for it. -/
theorem not_resets {expression : String} {r : Registers}
    (h : ∀ token ∈ Text.words expression, Opcode.ofToken token ≠ .reset) :
    ¬(ofExpression expression r).Resets := by
  rintro ⟨depth, c, before, token, hreaches, hexec, hop⟩
  exact h token (hreaches.mem_words hexec) hop

/-- No register is written by name without a word for it. -/
theorem not_stores {expression : String} {r : Registers}
    (h : ∀ token ∈ Text.words expression, ¬(Opcode.ofToken token).IsStore) :
    ¬(ofExpression expression r).Stores := by
  rintro ⟨depth, c, before, token, hreaches, hexec, hop⟩
  exact h token (hreaches.mem_words hexec) hop

/-- What a call does to the registers keeps what holds of them: that it writes side results and
results, that it writes to other registers if it does so, and that it resets them if it does. -/
structure Keeps (top : Call) (P : Registers → Prop) : Prop where
  reserved : ∀ r name x, Registers.isReserved name = true → P r → P (r.set name x)
  stored : top.Stores → Stable P
  reset : top.Resets → P Registers.new

/-- What holds however registers are written is kept, if it holds of a new store or there is no
`reset`. -/
theorem Keeps.of_stable {P : Registers → Prop} (hP : Stable P) {top : Call}
    (hreset : top.Resets → P Registers.new) : top.Keeps P :=
  ⟨fun r name x _ => hP r name x, fun _ => hP, hreset⟩

variable {top c : Call} {depth : Nat} {before : List String} {token : String}

/-- A call ends with its result as the last one. -/
theorem registers_runNested (depth : Nat) (c : Call) : (c.runNested depth).2 =
    (c.after depth c.tokens).registers.setLast (c.after depth c.tokens).result := by
  rw [runNested, runNested_eq]
  rfl

theorem registers_after (h : c.Executes depth before token) :
    (c.after depth (before ++ [token])).registers =
      ((c.after depth before).perform (foldNested depth) (Opcode.ofToken token)).registers := by
  rw [after_append_singleton, advance, h.2]
  rfl

/-! ### What is kept -/

section Preserved

variable {P : Registers → Prop}

/-- A fold keeps what the calls of its body keep. -/
theorem Reaches.preserved_steps (h : Reaches top (depth + 1) c)
    (hexec : c.Executes (depth + 1) before token) (hop : Opcode.ofToken token = .eachRegister)
    {s : String} {t : Template} (hpop : (c.after (depth + 1) before).pop.1 = .text s)
    (ht : Template.parse? s = some t)
    (hbody : ∀ d, Reaches top depth d → P d.registers → P (d.runNested depth).2)
    (hr : P (c.after (depth + 1) before).registers) {count : Nat} (hcount : count ≤ t.range.size) :
    P (t.steps (Reckoner.runNested depth) count t.range.first t.initial
      (c.after (depth + 1) before).registers).2 := by
  induction count with
  | zero => exact hr
  | succ count ih =>
    have hrun := hbody _ (h.body hexec hop hpop ht hcount) (ih (Nat.le_of_succ_le hcount))
    rw [steps_succ, ← Template.ofTokens_body ht]
    exact hrun

theorem Reaches.preserved_fold (h : Reaches top depth c) (hexec : c.Executes depth before token)
    (hop : Opcode.ofToken token = .eachRegister)
    (hbody : ∀ n < depth, ∀ d, Reaches top n d → P d.registers → P (d.runNested n).2)
    (hr : P (c.after depth before).registers) :
    P (foldNested depth (c.after depth before).pop.1 (c.after depth before).registers).2 := by
  cases depth with
  | zero => exact hr
  | succ depth =>
    rw [foldNested]
    unfold foldWith
    split
    · next s hpop =>
      split
      · next t ht =>
        exact h.preserved_steps hexec hop hpop ht (hbody depth depth.lt_succ_self) hr le_rfl
      · exact hr
    · exact hr

variable (hkeeps : top.Keeps P)

include hkeeps

theorem Reaches.preserved_word (h : Reaches top depth c) (hinitial : before ++ [token] <+: c.tokens)
    (hbody : ∀ n < depth, ∀ d, Reaches top n d → P d.registers → P (d.runNested n).2)
    (hr : P (c.after depth before).registers) :
    P (c.after depth (before ++ [token])).registers := by
  by_cases hmode : (c.after depth before).mode = .running
  · have hexec : c.Executes depth before token := ⟨hinitial, hmode⟩
    rw [registers_after hexec]
    rcases Machine.registers_perform (foldNested depth) (c.after depth before)
      (Opcode.ofToken token) with heq | ⟨name, x, hname, heq⟩ | ⟨hop, heq⟩ | ⟨hop, heq⟩
    · rwa [heq]
    · rw [heq]
      rcases hname with hreserved | hstore
      · exact hkeeps.reserved _ name x hreserved hr
      · exact hkeeps.stored ⟨depth, c, before, token, h, hexec, hstore⟩ _ name x hr
    · rw [heq]
      exact hkeeps.reset ⟨depth, c, before, token, h, hexec, hop⟩
    · rw [heq]
      exact h.preserved_fold hexec hop hbody hr
  · rwa [after_append_singleton, Machine.registers_advance_of_ne hmode]

theorem Reaches.preserved_words (h : Reaches top depth c) {after : List String}
    (hinitial : before ++ after <+: c.tokens)
    (hbody : ∀ n < depth, ∀ d, Reaches top n d → P d.registers → P (d.runNested n).2)
    (hr : P (c.after depth before).registers) :
    P (c.after depth (before ++ after)).registers := by
  induction after using List.reverseRecOn with
  | nil => rwa [List.append_nil]
  | append_singleton after token ih =>
    rw [← List.append_assoc] at hinitial ⊢
    exact h.preserved_word hkeeps hinitial hbody (ih ((List.prefix_append _ _).trans hinitial))

theorem Reaches.preserved_run (h : Reaches top depth c) (hr : P c.registers) :
    P (c.runNested depth).2 := by
  induction depth using Nat.strongRecOn generalizing c with
  | ind depth ih =>
    rw [registers_runNested]
    exact hkeeps.reserved _ _ _ rfl (h.preserved_words hkeeps (List.prefix_refl ([] ++ c.tokens))
      (fun n hn d hd => ih n hn hd) hr)

theorem Keeps.run (hr : P top.registers) : P top.run.2 :=
  Reaches.top.preserved_run hkeeps hr

theorem Reaches.preserved (h : Reaches top depth c) {after : List String}
    (hinitial : before ++ after <+: c.tokens) (hr : P (c.after depth before).registers) :
    P (c.after depth (before ++ after)).registers :=
  h.preserved_words hkeeps hinitial (fun _ _ _ hd => hd.preserved_run hkeeps) hr

end Preserved

/-- The result of a call is a number. -/
theorem isNaN_run (c : Call) : c.run.1.isNaN = false :=
  Machine.isNaN_result _

/-- After a call its result is the last one. -/
theorem get?_last_run (c : Call) : c.run.2.get? Registers.lastName = some c.run.1 :=
  Registers.get?_set_self _ _ _

end Call

/-! ## Calls one after another -/

/-- The registers after some expressions, evaluated one after another. -/
def evaluateAll (texts : List String) (r : Registers) : Registers :=
  texts.foldl (fun r text => (evaluate text r).2) r

theorem evaluateAll_cons (text : String) (rest : List String) (r : Registers) :
    evaluateAll (text :: rest) r = evaluateAll rest (evaluate text r).2 := by
  rw [evaluateAll, List.foldl_cons, evaluateAll]

theorem evaluateAll_append (before after : List String) (r : Registers) :
    evaluateAll (before ++ after) r = evaluateAll after (evaluateAll before r) :=
  List.foldl_append

namespace Call

/-- The calls of some expressions, each made on the registers that the one before it leaves. -/
def inTurn : List String → Registers → List Call
  | [], _ => []
  | text :: rest, r => ofExpression text r :: inTurn rest (evaluate text r).2

theorem exists_of_mem_inTurn {c : Call} {texts : List String} {r : Registers}
    (h : c ∈ inTurn texts r) : ∃ text ∈ texts, ∃ found, c = ofExpression text found := by
  induction texts generalizing r with
  | nil => cases h
  | cons text rest ih =>
    rcases List.mem_cons.1 h with rfl | h
    · exact ⟨text, List.mem_cons_self, r, rfl⟩
    · obtain ⟨other, hother, found, heq⟩ := ih h
      exact ⟨other, List.mem_cons_of_mem _ hother, found, heq⟩

theorem forall_mem_inTurn_cons {Q : Call → Prop} {text : String} {rest : List String}
    {r : Registers} : (∀ c ∈ inTurn (text :: rest) r, Q c) ↔
      Q (ofExpression text r) ∧ ∀ c ∈ inTurn rest (evaluate text r).2, Q c :=
  List.forall_mem_cons

theorem run_ofExpression (text : String) (r : Registers) :
    (ofExpression text r).run = evaluate text r := rfl

theorem inTurn_append (before after : List String) (r : Registers) :
    inTurn (before ++ after) r = inTurn before r ++ inTurn after (evaluateAll before r) := by
  induction before generalizing r with
  | nil => rfl
  | cons text before ih =>
    rw [List.cons_append, inTurn, ih, inTurn, evaluateAll_cons, List.cons_append]

/-- The results of some expressions, evaluated one after another. -/
def results (texts : List String) (r : Registers) : List Float :=
  (inTurn texts r).map fun c => c.run.1

theorem results_cons (text : String) (rest : List String) (r : Registers) :
    results (text :: rest) r = (evaluate text r).1 :: results rest (evaluate text r).2 := by
  rw [results, inTurn, List.map_cons, run_ofExpression, results]

theorem results_append (before after : List String) (r : Registers) :
    results (before ++ after) r = results before r ++ results after (evaluateAll before r) := by
  rw [results, inTurn_append, List.map_append, results, results]

/-- What every call keeps is found by all of them and holds in the end. -/
theorem kept_inTurn {P : Registers → Prop} {texts : List String} {r : Registers}
    (hkeeps : ∀ c ∈ inTurn texts r, c.Keeps P) (hr : P r) :
    (∀ c ∈ inTurn texts r, P c.registers) ∧ P (evaluateAll texts r) := by
  induction texts generalizing r with
  | nil => exact ⟨nofun, hr⟩
  | cons text rest ih =>
    obtain ⟨hfirst, hrest⟩ := forall_mem_inTurn_cons.1 hkeeps
    have hrun : P (ofExpression text r).run.2 := hfirst.run hr
    rw [run_ofExpression] at hrun
    obtain ⟨hcalls, hend⟩ := ih hrest hrun
    rw [forall_mem_inTurn_cons, evaluateAll_cons]
    exact ⟨⟨hr, hcalls⟩, hend⟩

end Call

end Reckoner
