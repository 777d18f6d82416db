import Mathlib.Algebra.Group.Int.Defs
import Reckoner.Proofs.Machine.Nesting

/-!
# Folds go through their range

The steps of a fold are those of a list fold over the indices of its range
(`Template.fold_eq_foldl`), and these are the whole numbers between the ends, each once and in
order (`RegisterRange.pairwise_indices`, `RegisterRange.mem_indices`).

The ends are cut to 64 bits before the registers are counted. So a range with an end beyond them
is gone through as written unless what is left of it can be gone through
(`RegisterRange.InReach`): `1e19` to `2e19` is far too long, and cut it has one register.

In every call that comes about in an evaluation, the body of a fold is run by the machine that
runs the expression itself (`Call.Fits.runNested_eq`).

* `Call.Reaches.folds_range`: what `eachreg` does with a template.
-/

namespace Reckoner

open Machine (start)
open Program (instruction ofTokens)

/-! ## Indices -/

namespace RegisterRange

/-- The indices of a range, in order. -/
def indices (range : RegisterRange) : List Int :=
  (List.range range.size).map fun n : Nat => range.first + n

theorem pairwise_indices (range : RegisterRange) : range.indices.Pairwise (· < ·) := by
  rw [indices, List.pairwise_map]
  refine List.pairwise_lt_range.imp fun {m n} hlt => ?_
  show range.first + (m : Int) < range.first + n
  omega

theorem mem_indices {range : RegisterRange} {i : Int} :
    i ∈ range.indices ↔ range.first ≤ i ∧ i ≤ range.last := by
  rw [indices, List.mem_map]
  constructor
  · rintro ⟨n, hn, rfl⟩
    have hsize : n < (range.last - range.first + 1).toNat := List.mem_range.1 hn
    omega
  · rintro ⟨hfirst, hlast⟩
    refine ⟨(i - range.first).toNat, List.mem_range.2 ?_, by omega⟩
    show (i - range.first).toNat < (range.last - range.first + 1).toNat
    omega

/-- Both ends are integers of 64 bits, or the range is empty or too long when they are cut
to such integers. -/
def InReach (first last : Int) : Prop :=
  (Number.clamp64 first = first ∧ Number.clamp64 last = last) ∨
    Number.clamp64 last < Number.clamp64 first ∨
      1000000 ≤ Number.clamp64 last - Number.clamp64 first

instance (first last : Int) : Decidable (InReach first last) :=
  inferInstanceAs (Decidable (_ ∨ _))

theorem clamp64_eq (n : Int) :
    Number.clamp64 n = max (-9223372036854775808) (min n 9223372036854775807) := rfl

/-- Cutting the ends of a range in reach does not make it short enough to be gone through. -/
theorem InReach.size_le_iff {first last : Int} (h : InReach first last) (base : String) :
    (RegisterRange.mk base (Number.clamp64 first) (Number.clamp64 last)).size ≤ Template.maxSteps ↔
      last - first + 1 ≤ 1000000 := by
  show (Number.clamp64 last - Number.clamp64 first + 1).toNat ≤ 1000000 ↔ _
  simp only [InReach, clamp64_eq] at h ⊢
  omega

/-- A range in reach that is short enough has the same indices when its ends are cut. -/
theorem InReach.mem_iff {first last : Int} (h : InReach first last)
    (hfew : last - first + 1 ≤ 1000000) (i : Int) :
    Number.clamp64 first ≤ i ∧ i ≤ Number.clamp64 last ↔ first ≤ i ∧ i ≤ last := by
  simp only [InReach, clamp64_eq] at h ⊢
  omega

theorem index?_eq {field : String} {n : Int}
    (h : (Number.read? field).bind Number.truncate? = some n) :
    index? field = some (Number.clamp64 n) := by
  obtain ⟨x, hx, hn⟩ := Option.bind_eq_some_iff.1 h
  simp only [index?, hx, hn, Option.bind_eq_bind, Option.bind_some, Option.pure_def]

end RegisterRange

/-! ## Steps -/

namespace Template

/-- The body of a template for the register with an index. -/
def runAt (run : Runner) (t : Template) (done : Float × Registers) (index : Int) :
    Float × Registers :=
  run t.body [Value.ofOption (done.2.get? (t.range.register index)), .number done.1] done.2

theorem steps_eq_foldl (run : Runner) (t : Template) (count : Nat) (index : Int) (x : Float)
    (r : Registers) : t.steps run count index x r =
      ((List.range count).map fun n : Nat => index + n).foldl (t.runAt run) (x, r) := by
  induction count generalizing index x r with
  | zero => rfl
  | succ count ih =>
    have hshift : (fun n : Nat => index + 1 + (n : Int)) = fun n : Nat => index + (n + 1 : Nat) := by
      funext n
      omega
    rw [List.range_succ_eq_map, List.map_cons, List.foldl_cons, List.map_map, Int.natCast_zero,
      Int.add_zero]
    exact (ih (index + 1) _ _).trans (by rw [hshift]; rfl)

/-- A fold goes through the indices of its range. -/
theorem fold_eq_foldl (run : Runner) (t : Template) (r : Registers) :
    t.fold run r = t.range.indices.foldl (t.runAt run) (t.initial, r) :=
  steps_eq_foldl run t t.range.size t.range.first t.initial r

/-- A fold is the same with two machines that run its body in the same way. -/
theorem fold_congr {run run' : Runner} {t : Template}
    (h : ∀ v x r, run t.body [Value.ofOption v, .number x] r =
      run' t.body [Value.ofOption v, .number x] r) (r : Registers) :
    t.fold run r = t.fold run' r := by
  have hstep : t.runAt run = t.runAt run' := by
    funext done index
    exact h _ done.1 done.2
  rw [fold_eq_foldl, fold_eq_foldl, hstep]

/-- The template of a text whose second and third words are numbers. -/
theorem parse?_of_words {s base first last initial word : String} {words : List String}
    {m n : Int} (hwords : Text.words s = base :: first :: last :: initial :: word :: words)
    (hfirst : (Number.read? first).bind Number.truncate? = some m)
    (hlast : (Number.read? last).bind Number.truncate? = some n) :
    let range : RegisterRange := ⟨String.ofList (base.toList.dropWhile (· == '~')),
      Number.clamp64 m, Number.clamp64 n⟩
    parse? s = if range.size ≤ maxSteps then
      some ⟨range, Number.readOrZero initial, ofTokens (word :: words)⟩ else none := by
  simp only [parse?, hwords, RegisterRange.ofFields?, RegisterRange.index?_eq hfirst,
    RegisterRange.index?_eq hlast, Option.bind_eq_bind, Option.bind_some, Option.pure_def]

end Template

/-! ## The machine that runs a body -/

namespace Call

variable {c : Call} {before : List String} {token : String} {depth : Nat}

theorem Fits.mono (h : c.Fits depth) {deeper : Nat} (hle : depth ≤ deeper) : c.Fits deeper where
  words := h.words
  untemplated hdeeper := h.untemplated (hle.trans hdeeper)
  barless hdeeper := h.barless (by omega)

/-- A call in which folds nest so deep at most is run as the machine runs it. -/
theorem Fits.runNested_eq (h : c.Fits depth) (hdepth : depth ≤ 2) :
    runNested depth (ofTokens c.tokens) c.stack c.registers =
      run (ofTokens c.tokens) c.stack c.registers := by
  obtain ⟨m, log, hruns, heq, -⟩ := h.ends hdepth [] (by simp)
  obtain ⟨m', log', hruns', heq', -⟩ := (h.mono hdepth).ends le_rfl [] (by simp)
  obtain ⟨rfl, -⟩ := hruns.unique hruns'
  rw [heq, run, heq']

/-- Folds in a call that comes about in an evaluation nest as deep as its number says. -/
theorem Reaches.fits {top : Call} (hwords : ∀ w ∈ top.tokens, Text.IsWord w.toList)
    (h : Reaches top depth c) : c.Fits depth ∧ depth ≤ 2 := by
  induction h with
  | top => exact ⟨⟨hwords, by omega, by omega⟩, le_rfl⟩
  | @body depth c before token s t place h hexec hop hpop ht hplace ih =>
    have htemplate : (c.after (depth + 1) before).template? (instruction token) = some t :=
      Machine.template?_eq_some_iff.2 ⟨hexec.2, hop, s, hpop, ht⟩
    exact ⟨ih.1.body hexec.1 htemplate (text_notMem_body _ t place _) _, by omega⟩

/-- What a fold in such a call leaves. -/
theorem Fits.after_eachRegister (h : c.Fits depth) (hdepth : depth ≤ 2)
    (hexec : c.Executes depth before token) {t : Template}
    (ht : (c.after depth before).template? (instruction token) = some t) :
    c.after depth (before ++ [token]) =
      (c.after depth before).afterFold (t.fold run (c.after depth before).registers) := by
  cases depth with
  | zero =>
    rw [h.template?_eq_none hexec.1] at ht
    cases ht
  | succ depth =>
    obtain ⟨-, -, s, -, hparse⟩ := Machine.template?_eq_some_iff.1 ht
    have hbody : ∀ v x r, runNested depth t.body [Value.ofOption v, .number x] r =
        run t.body [Value.ofOption v, .number x] r := by
      intro v x r
      have hfits := h.body hexec.1 ht (Value.text_notMem_operands v x) r
      have hrun := hfits.runNested_eq (by omega)
      rwa [Template.ofTokens_body hparse] at hrun
    rw [after_append_singleton, Machine.advance_of_template?_some ht, Template.fold_congr hbody]

/-- What is no template gives nothing. -/
theorem after_eachRegister_of_none (hexec : c.Executes depth before token)
    (hop : Opcode.ofToken token = .eachRegister) {s : String}
    (hpop : (c.after depth before).pop.1 = .text s) (hparse : Template.parse? s = none) :
    c.after depth (before ++ [token]) = (c.after depth before).pop.2.push .undefined := by
  have hfold : foldNested depth (.text s) (c.after depth before).registers =
      (.undefined, (c.after depth before).registers) :=
    Machine.foldNested_of_parse?_none (fun _ heq => Value.text.inj heq ▸ hparse) depth _
  have hmode := hexec.2
  rw [after_append_singleton]
  generalize c.after depth before = m at *
  obtain ⟨_ | ⟨v, stack⟩, mode, r⟩ := m
  · cases hpop
  · obtain rfl : v = .text s := hpop
    obtain rfl : mode = .running := hmode
    have hfold : foldNested depth (.text s) r = (.undefined, r) := hfold
    simp only [Machine.advance, hop, instruction, Machine.perform, Machine.pop, hfold]
    rfl

/-- In any call that comes about in an evaluation, `eachreg` goes through the whole numbers from
the one end of a template to the other, each once and in order, and runs the body on the
accumulator and, on top, the register; too many of them give nothing, and nothing is run. -/
theorem Reaches.folds_range {expression : String} {stack : List Value} {r : Registers}
    (h : Reaches ⟨Text.words expression, stack, r⟩ depth c) (hexec : c.Executes depth before token)
    (hop : Opcode.ofToken token = .eachRegister) {s base first last initial word : String}
    {words : List String} {m n : Int} (hpop : (c.after depth before).pop.1 = .text s)
    (hwords : Text.words s = base :: first :: last :: initial :: word :: words)
    (hfirst : (Number.read? first).bind Number.truncate? = some m)
    (hlast : (Number.read? last).bind Number.truncate? = some n)
    (hreach : RegisterRange.InReach m n) :
    (n - m + 1 ≤ 1000000 → ∃ indices : List Int, indices.Pairwise (· < ·) ∧
        (∀ i, i ∈ indices ↔ m ≤ i ∧ i ≤ n) ∧
        c.after depth (before ++ [token]) = (c.after depth before).afterFold
          (indices.foldl (fun done i => run (ofTokens (word :: words))
              [Value.ofOption
                (done.2.get? (String.ofList (base.toList.dropWhile (· == '~')) ++ i.repr)),
                .number done.1] done.2)
            (Number.readOrZero initial, (c.after depth before).registers))) ∧
      (1000000 < n - m + 1 →
        c.after depth (before ++ [token]) = (c.after depth before).pop.2.push .undefined) := by
  obtain ⟨hfits, hdepth⟩ := h.fits fun w => Text.isWord_of_mem_words
  have hparse := Template.parse?_of_words hwords hfirst hlast
  simp only [hreach.size_le_iff] at hparse
  refine ⟨fun hfew => ?_, fun hmany => ?_⟩
  · rw [if_pos hfew] at hparse
    have hfold := hfits.after_eachRegister hdepth hexec
      (Machine.template?_eq_some_iff.2 ⟨hexec.2, hop, s, hpop, hparse⟩)
    rw [Template.fold_eq_foldl] at hfold
    exact ⟨_, RegisterRange.pairwise_indices _,
      fun i => RegisterRange.mem_indices.trans (hreach.mem_iff hfew i), hfold⟩
  · exact after_eachRegister_of_none hexec hop hpop (hparse.trans (if_neg (Int.not_le.2 hmany)))

/-- The words of a fold of the registers from `R-1` to `R1` before its last one. -/
def windowLeft : List String := ["|", "~R", "-1.5", "1", "10", "+", "|"]

/-- A call of this fold. -/
def window : Call := ofExpression "| ~R -1.5 1 10 + | eachreg" (Registers.ofList [("R0", 2)])

/-- The fold goes through three registers, two of which have never been written. -/
theorem folds_range_window :
    window.Executes 2 windowLeft "eachreg" ∧
      (window.after 2 windowLeft).pop.1 = .text "~R -1.5 1 10 +" ∧
      (Number.read? "-1.5").bind Number.truncate? = some (-1) ∧ RegisterRange.InReach (-1) 1 ∧
      ∃ indices : List Int, indices.Pairwise (· < ·) ∧ (∀ i, i ∈ indices ↔ -1 ≤ i ∧ i ≤ 1) ∧
        window.after 2 (windowLeft ++ ["eachreg"]) = (window.after 2 windowLeft).afterFold
          (indices.foldl (fun done i => run (ofTokens ["+"])
              [Value.ofOption
                (done.2.get? (String.ofList ("~R".toList.dropWhile (· == '~')) ++ i.repr)),
                .number done.1] done.2)
            (Number.readOrZero "10", (window.after 2 windowLeft).registers)) := by
  have hexec : window.Executes 2 windowLeft "eachreg" := by decide +kernel
  have hpop : (window.after 2 windowLeft).pop.1 = .text "~R -1.5 1 10 +" := by decide +kernel
  have hfirst : (Number.read? "-1.5").bind Number.truncate? = some (-1) := by decide +kernel
  have hlast : (Number.read? "1").bind Number.truncate? = some 1 := by decide +kernel
  have hwords : Text.words "~R -1.5 1 10 +" = ["~R", "-1.5", "1", "10", "+"] := by decide +kernel
  have hreach : RegisterRange.InReach (-1) 1 := by decide
  have hfolds := Reaches.folds_range .top hexec (by decide +kernel) hpop hwords hfirst hlast hreach
  exact ⟨hexec, hpop, hfirst, hreach, hfolds.1 (by decide)⟩

/-- The words of a fold with both ends beyond 64 bits before its last one. -/
def beyondLeft : List String := ["|", "R", "1e19", "2e19", "7", "+", "|"]

/-- A call of this fold, with a number in the register of the greatest integer of 64 bits. -/
def beyond : Call :=
  ofExpression "| R 1e19 2e19 7 + | eachreg" (Registers.ofList [("R9223372036854775807", 1)])

/-- A range that is far too long is gone through: one step is run, with an index that is not
between the ends. -/
theorem folds_beyond :
    beyond.Executes 2 beyondLeft "eachreg" ∧
      (beyond.after 2 beyondLeft).pop.1 = .text "R 1e19 2e19 7 +" ∧
      Text.words "R 1e19 2e19 7 +" = ["R", "1e19", "2e19", "7", "+"] ∧
      (Number.read? "1e19").bind Number.truncate? = some (10 ^ 19) ∧
      (Number.read? "2e19").bind Number.truncate? = some (2 * 10 ^ 19) ∧
      (1000000 : Int) < 2 * 10 ^ 19 - 10 ^ 19 + 1 ∧
      (beyond.after 2 (beyondLeft ++ ["eachreg"])).pop.1 = .number 8 ∧
      beyond.after 2 (beyondLeft ++ ["eachreg"]) ≠
        (beyond.after 2 beyondLeft).pop.2.push .undefined := by
  have hpop : (beyond.after 2 (beyondLeft ++ ["eachreg"])).pop.1 = .number 8 := by decide +kernel
  refine ⟨by decide +kernel, by decide +kernel, by decide +kernel, by decide +kernel,
    by decide +kernel, by decide, hpop, fun heq => ?_⟩
  rw [heq] at hpop
  cases hpop

end Call

end Reckoner
