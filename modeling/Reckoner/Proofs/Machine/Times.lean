import Reckoner.Proofs.Machine.Stable

/-!
# The registers at all times

The registers at all times while a call is made are a list in order (`Call.times`): those before
each of its words, those at all times of the calls of bodies that a word makes (`Call.bodies`), and
those in the end. None that a word of a call that comes about finds is left out
(`Call.During.mem_times`).

What all that a call does keeps is carried from each time to all later ones
(`Registers.Carries`, `Call.Reaches.carries_times`), also through calls that are made one after
another (`Call.carries_inTurn`).
-/

namespace Reckoner

namespace Registers

/-- What holds of the first store holds of those in a list and of the last one, and what holds of
one in the list holds of all after it. -/
structure Carries (P : Registers → Prop) (first : Registers) (between : List Registers)
    (last : Registers) : Prop where
  whole : P first → P last
  start : ∀ r ∈ between, P first → P r
  rest : ∀ r ∈ between, P r → P last
  ordered : between.Pairwise fun r s => P r → P s

namespace Carries

variable {P : Registers → Prop} {r s t : Registers} {l m : List Registers}

theorem nil (h : P r → P s) : Carries P r [] s :=
  ⟨h, nofun, nofun, .nil⟩

theorem single (P : Registers → Prop) (r : Registers) : Carries P r [r] r :=
  ⟨id, fun _ h => List.mem_singleton.1 h ▸ id, fun _ h => List.mem_singleton.1 h ▸ id,
    List.pairwise_singleton _ r⟩

theorem append (h : Carries P r l s) (h' : Carries P s m t) : Carries P r (l ++ m) t where
  whole hr := h'.whole (h.whole hr)
  start x hx hr := by
    rcases List.mem_append.1 hx with hx | hx
    · exact h.start x hx hr
    · exact h'.start x hx (h.whole hr)
  rest x hx hP := by
    rcases List.mem_append.1 hx with hx | hx
    · exact h'.whole (h.rest x hx hP)
    · exact h'.rest x hx hP
  ordered := List.pairwise_append.2
    ⟨h.ordered, h'.ordered, fun x hx y hy hP => h'.start y hy (h.rest x hx hP)⟩

/-- From each of all the stores in order to every later one. -/
theorem pairwise (h : Carries P r l s) : (r :: (l ++ [s])).Pairwise fun x y => P x → P y := by
  refine List.pairwise_cons.2 ⟨fun x hx hr => ?_, List.pairwise_append.2
    ⟨h.ordered, List.pairwise_singleton _ s, fun x hx y hy hP => ?_⟩⟩
  · rcases List.mem_append.1 hx with hx | hx
    · exact h.start x hx hr
    · exact List.mem_singleton.1 hx ▸ h.whole hr
  · exact List.mem_singleton.1 hy ▸ h.rest x hx hP

end Carries

end Registers

open Registers (Carries)

namespace Call

/-! ## Times of a call -/

/-- The calls of a body that a word of a call makes after some others, in order: one for each
register of the range, if the word is executed and finds a template. -/
def bodies (depth : Nat) (c : Call) (before : List String) (token : String) : List Call :=
  if c.Executes (depth + 1) before token ∧ Opcode.ofToken token = .eachRegister then
    match (c.after (depth + 1) before).pop.1 with
    | .text s =>
      match Template.parse? s with
      | some t => (List.range t.range.size).map fun place =>
          body (Reckoner.runNested depth) t place (c.after (depth + 1) before).registers
      | none => []
    | _ => []
  else []

/-- The registers before each of some words and after them, with those at the times `within` a
word. -/
def timesFrom (depth : Nat) (within : List String → String → List Registers) (c : Call) :
    List String → List String → List Registers
  | before, [] => [(c.after depth before).registers]
  | before, token :: rest =>
    (c.after depth before).registers ::
      (within before token ++ timesFrom depth within c (before ++ [token]) rest)

/-- The registers at all times of a call, in order. -/
def times : Nat → Call → List Registers
  | 0, c => c.timesFrom 0 (fun _ _ => []) [] c.tokens ++ [(c.runNested 0).2]
  | depth + 1, c =>
    c.timesFrom (depth + 1) (fun before token => (c.bodies depth before token).flatMap (times depth))
      [] c.tokens ++ [(c.runNested (depth + 1)).2]

variable {top c : Call} {depth : Nat} {before : List String} {token : String}

theorem bodies_eq (hexec : c.Executes (depth + 1) before token)
    (hop : Opcode.ofToken token = .eachRegister) {s : String} {t : Template}
    (hpop : (c.after (depth + 1) before).pop.1 = .text s) (ht : Template.parse? s = some t) :
    c.bodies depth before token = (List.range t.range.size).map fun place =>
      body (Reckoner.runNested depth) t place (c.after (depth + 1) before).registers := by
  rw [bodies, if_pos ⟨hexec, hop⟩, hpop]
  simp only [ht]

/-- After a word that makes calls of a body the registers are those that the last of them leaves. -/
theorem registers_after_bodies (hexec : c.Executes (depth + 1) before token)
    (hop : Opcode.ofToken token = .eachRegister) {s : String} {t : Template}
    (hpop : (c.after (depth + 1) before).pop.1 = .text s) (ht : Template.parse? s = some t) :
    (c.after (depth + 1) (before ++ [token])).registers =
      (t.steps (Reckoner.runNested depth) t.range.size t.range.first t.initial
        (c.after (depth + 1) before).registers).2 := by
  rw [registers_after hexec, hop, Machine.registers_eachRegister, hpop, foldNested]
  simp only [foldWith, ht]
  rfl

/-- A word that makes calls of a body is an `eachreg` that finds a template. -/
theorem bodies_cases (depth : Nat) (c : Call) (before : List String) (token : String) :
    c.bodies depth before token = [] ∨ c.Executes (depth + 1) before token ∧
      Opcode.ofToken token = .eachRegister ∧ ∃ s t,
        (c.after (depth + 1) before).pop.1 = .text s ∧ Template.parse? s = some t := by
  by_cases h : c.Executes (depth + 1) before token ∧ Opcode.ofToken token = .eachRegister
  · rw [bodies, if_pos h]
    cases hpop : (c.after (depth + 1) before).pop.1 with
    | text s =>
      cases ht : Template.parse? s with
      | none => exact .inl (by simp only [ht])
      | some t => exact .inr ⟨h.1, h.2, s, t, rfl, ht⟩
    | _ => exact .inl rfl
  · exact .inl (if_neg h)

/-! ## No time is left out -/

variable {within : List String → String → List Registers}

theorem after_mem_timesFrom (done before after : List String) :
    (c.after depth (done ++ before)).registers ∈
      c.timesFrom depth within done (before ++ after) := by
  induction before generalizing done with
  | nil =>
    rw [List.append_nil, List.nil_append]
    cases after with
    | nil => exact List.mem_singleton_self _
    | cons token after => exact List.mem_cons_self
  | cons token before ih =>
    rw [List.append_cons]
    exact List.mem_cons_of_mem _ (List.mem_append_right _ (ih (done ++ [token])))

theorem mem_timesFrom_of_within {r : Registers} (done before after : List String)
    (h : r ∈ within (done ++ before) token) :
    r ∈ c.timesFrom depth within done (before ++ token :: after) := by
  induction before generalizing done with
  | nil =>
    rw [List.append_nil] at h
    exact List.mem_cons_of_mem _ (List.mem_append_left _ h)
  | cons other before ih =>
    rw [List.append_cons] at h
    exact List.mem_cons_of_mem _ (List.mem_append_right _ (ih (done ++ [other]) h))

theorem after_mem_times (depth : Nat) (hinitial : before <+: c.tokens) :
    (c.after depth before).registers ∈ c.times depth := by
  obtain ⟨after, hafter⟩ := hinitial
  cases depth with
  | zero =>
    rw [times, ← hafter]
    exact List.mem_append_left _ (after_mem_timesFrom [] before after)
  | succ depth =>
    rw [times, ← hafter]
    exact List.mem_append_left _ (after_mem_timesFrom [] before after)

/-- The times of a call that a word makes are times of the call that the word is in. -/
theorem mem_times_of_mem_bodies {d : Call} (hexec : c.Executes (depth + 1) before token)
    (hd : d ∈ c.bodies depth before token) {r : Registers} (hr : r ∈ d.times depth) :
    r ∈ c.times (depth + 1) := by
  obtain ⟨after, hafter⟩ := hexec.exists_after
  have hwithin : r ∈ c.timesFrom (depth + 1)
      (fun before token => (c.bodies depth before token).flatMap (times depth)) []
      (before ++ token :: after) :=
    mem_timesFrom_of_within [] before after (List.mem_flatMap.2 ⟨d, hd, hr⟩)
  rw [times]
  rw [← hafter] at hwithin
  exact List.mem_append_left _ hwithin

/-- The times of all calls that come about are times of the call that they come from. -/
theorem Reaches.mem_times (h : Reaches top depth c) {r : Registers} (hr : r ∈ c.times depth) :
    r ∈ top.times 2 := by
  induction h with
  | top => exact hr
  | @body depth c before token s t place h hexec hop hpop ht hplace ih =>
    refine ih (mem_times_of_mem_bodies hexec ?_ hr)
    rw [bodies_eq hexec hop hpop ht]
    exact List.mem_map_of_mem (List.mem_range.2 hplace)

/-- The registers at a time while a call is made: some of its words are dealt with, or some of
those of a body that it calls. -/
def During (top : Call) (r : Registers) : Prop :=
  ∃ depth c before, Reaches top depth c ∧ before <+: c.tokens ∧
    r = (c.after depth before).registers

theorem During.mem_times {r : Registers} (h : top.During r) : r ∈ top.times 2 := by
  obtain ⟨depth, c, before, hreaches, hinitial, rfl⟩ := h
  exact hreaches.mem_times (after_mem_times depth hinitial)

theorem run_mem_times (c : Call) : c.run.2 ∈ c.times 2 :=
  List.mem_append_right _ (List.mem_singleton_self _)

/-! ## What is carried through a call -/

section Carried

variable {P : Registers → Prop}

theorem carries_timesFrom (hwithin : ∀ before token, before ++ [token] <+: c.tokens →
      Carries P (c.after depth before).registers (within before token)
        (c.after depth (before ++ [token])).registers)
    {rest : List String} (hrest : before ++ rest <+: c.tokens) :
    Carries P (c.after depth before).registers (c.timesFrom depth within before rest)
      (c.after depth (before ++ rest)).registers := by
  induction rest generalizing before with
  | nil =>
    rw [List.append_nil]
    exact .single P _
  | cons token rest ih =>
    rw [List.append_cons] at hrest ⊢
    have hword := hwithin before token ((List.prefix_append _ _).trans hrest)
    exact (Carries.single P _).append (hword.append (ih hrest))

/-- Through the calls of a body one after another. -/
theorem carries_steps {t : Template} {r : Registers} {count : Nat}
    (hbody : ∀ place < count, let d := body (Reckoner.runNested depth) t place r
      Carries P d.registers (d.times depth) (t.steps (Reckoner.runNested depth) (place + 1)
        t.range.first t.initial r).2) :
    Carries P r
      ((List.range count).flatMap fun place =>
        (body (Reckoner.runNested depth) t place r).times depth)
      (t.steps (Reckoner.runNested depth) count t.range.first t.initial r).2 := by
  induction count with
  | zero => exact .nil id
  | succ count ih =>
    rw [List.range_succ, List.flatMap_append, List.flatMap_singleton]
    exact (ih fun place hplace => hbody place (Nat.lt_succ_of_lt hplace)).append
      (hbody count count.lt_succ_self)

/-- From the last word of a call to the result as the last one. -/
theorem Keeps.carries_end (hkeeps : top.Keeps P) (depth : Nat) (c : Call) :
    Carries P (c.after depth c.tokens).registers [(c.runNested depth).2]
      (c.runNested depth).2 := by
  refine (Carries.nil fun hr => ?_).append (.single P _)
  rw [registers_runNested]
  exact hkeeps.reserved _ _ _ rfl hr

/-- What all that a call does keeps is carried through the times of every call that comes about. -/
theorem Reaches.carries_times (hkeeps : top.Keeps P) (h : Reaches top depth c) :
    Carries P c.registers (c.times depth) (c.runNested depth).2 := by
  induction depth generalizing c with
  | zero =>
    exact (carries_timesFrom (fun before token hinitial => .nil (h.preserved hkeeps hinitial))
      (List.prefix_refl ([] ++ c.tokens))).append (hkeeps.carries_end 0 c)
  | succ depth ih =>
    refine (carries_timesFrom (fun before token hinitial => ?_)
      (List.prefix_refl ([] ++ c.tokens))).append (hkeeps.carries_end (depth + 1) c)
    rcases bodies_cases depth c before token with hnil | ⟨hexec, hop, s, t, hpop, ht⟩
    · rw [hnil]
      exact .nil (h.preserved hkeeps hinitial)
    · rw [registers_after_bodies hexec hop hpop ht, bodies_eq hexec hop hpop ht, List.flatMap_map]
      refine carries_steps fun place hplace => ?_
      have hcall := ih (h.body hexec hop hpop ht hplace)
      rw [steps_succ, ← Template.ofTokens_body ht]
      exact hcall

/-- A register that is written in the first call of a body, and goes away with the `reset`. -/
example : ((ofExpression "| R 1 2 0 7 ~x str | eachreg reset" Registers.new).times 2).map
    (fun r => r.contains "x") =
      List.replicate 13 false ++ List.replicate 8 true ++ [false, false] := by
  decide +kernel

/-- What all that a call does keeps holds at all times while it is made. -/
theorem During.kept (hkeeps : top.Keeps P) {r : Registers} (h : top.During r)
    (hr : P top.registers) : P r :=
  (Reaches.top.carries_times hkeeps).start r h.mem_times hr

/-- Through calls that are made one after another. -/
theorem carries_inTurn {texts : List String} {r : Registers}
    (hkeeps : ∀ c ∈ inTurn texts r, c.Keeps P) :
    Carries P r ((inTurn texts r).flatMap (times 2)) (evaluateAll texts r) := by
  induction texts generalizing r with
  | nil => exact .nil id
  | cons text rest ih =>
    obtain ⟨hfirst, hrest⟩ := forall_mem_inTurn_cons.1 hkeeps
    rw [inTurn, List.flatMap_cons, evaluateAll_cons]
    exact (Reaches.top.carries_times hfirst).append (ih hrest)

end Carried

end Call

end Reckoner
