import Reckoner.Proofs.Dependency.Footprint

/-!
# The dependency scan

The scan of a tidy program finds all registers that it touches
(`Dependencies.mem_requires`, `Dependencies.mem_provides`). So a run of it from
two stores with the same in the registers that it requires does the same to both,
and changes none that it does not provide (`Dependencies.evaluateOn_agree`).
-/

namespace Reckoner

open Program (Tidy Reads Writes isBar sinceBar bars operand? operandsBefore)

namespace Dependencies

namespace Scan

/-- What the scan knows after some words. -/
theorem foldl_step (before : List String) : before.foldl step start =
    ⟨before.reverse[0]?, before.reverse[1]?,
      if bars before % 2 = 1 then some (sinceBar before) else none⟩ := by
  induction before using List.reverseRecOn with
  | nil => rfl
  | append_singleton before token ih =>
    rw [List.foldl_append, ih, List.reverse_append]
    refine congrArg (Scan.mk _ _) ?_
    cases hbar : isBar token with
    | true =>
      rw [Program.bars_append_bar before hbar, Program.sinceBar_append_bar before hbar,
        nextTemplate, if_pos (Program.isBar_iff.1 hbar)]
      by_cases hodd : bars before % 2 = 1
      · rw [if_pos hodd, if_neg (by omega)]
      · rw [if_neg hodd, if_pos (by omega)]
    | false =>
      have hword : ∀ w ∈ [token], isBar w = false := by simpa using hbar
      rw [Program.bars_append before hword, Program.sinceBar_append before hword, nextTemplate,
        if_neg (Program.isBar_eq_false_iff.1 hbar)]
      split
      · rfl
      · rfl

theorem mem_scan (s : Scan) (before : List String) (token : String) (after : List String) :
    (before.foldl step s).symbols token after.head? ∈ s.scan (before ++ token :: after) := by
  induction before generalizing s with
  | nil => exact List.mem_cons_self
  | cons first before ih => exact List.mem_cons_of_mem _ (ih (s.step first))

end Scan

variable {literal : String → Prop} {expression : String}

theorem operandRegister?_eq {token : String} {v : Value} (h : operand? token = some v)
    (hv : Registers.isReserved v.toName = false) :
    operandRegister? (some token) = some (.register v.toName) := by
  unfold operand? at h
  split at h
  · next s hop =>
    obtain rfl := Option.some.inj h
    simp [operandRegister?, hop, show Registers.isReserved s = false from hv, Value.toName]
  · next x hop =>
    obtain rfl := Option.some.inj h
    simp [operandRegister?, hop, show Registers.isReserved (Number.format x) = false from hv,
      Value.toName]
  · cases h

theorem mem_templateRegisters {template : List String} {range : RegisterRange} {name : String}
    (hrange : RegisterRange.ofFields? template = some range) (hsize : range.size ≤ maxTracked)
    (hname : name ∈ range.registers) (hreserved : Registers.isReserved name = false) :
    .register name ∈ templateRegisters template := by
  simp [templateRegisters, hrange, hsize, hname, hreserved]

/-- What the scan finds at a word is required. -/
theorem mem_requires_of_symbols (name : Option String) {before after : List String}
    {token : String} (heq : Text.words expression = before ++ token :: after) {symbol : Symbol}
    (h : symbol ∈ ((before.foldl Scan.step Scan.start).symbols token after.head?).requires) :
    symbol ∈ (analyze name expression).requires := by
  refine List.mem_eraseDups.2 (List.mem_append_right _ (List.mem_flatMap.2 ⟨_, ?_, h⟩))
  rw [heq]
  exact Scan.mem_scan _ _ _ _

/-- What the scan finds at a word is provided. -/
theorem mem_provides_of_symbols (name : Option String) {before after : List String}
    {token : String} (heq : Text.words expression = before ++ token :: after) {symbol : Symbol}
    (h : symbol ∈ ((before.foldl Scan.step Scan.start).symbols token after.head?).provides) :
    symbol ∈ (analyze name expression).provides := by
  refine List.mem_eraseDups.2 (List.mem_append_right _ (List.mem_flatMap.2 ⟨_, ?_, h⟩))
  rw [heq]
  exact Scan.mem_scan _ _ _ _

/-- An operand that names a register of its own is found. -/
theorem operandRegister?_of_operandsBefore {before : List String} {k : Nat} {name : String}
    (h : (operandsBefore before)[k]?.map Value.toName = some name)
    (hreserved : Registers.isReserved name = false) :
    operandRegister? before.reverse[k]? = some (.register name) := by
  obtain ⟨v, hv, rfl⟩ := Option.map_eq_some_iff.1 h
  obtain ⟨token, htoken, hoperand⟩ := Program.exists_of_operandsBefore hv
  rw [htoken, operandRegister?_eq hoperand hreserved]

/-- The scan finds the register that an operand names which stands directly before a
word that loads it. -/
theorem mem_requires_of_loadedAt (value : Option String) {before after : List String}
    {token : String} (heq : Text.words expression = before ++ token :: after) {name : String}
    (h : Program.loadedAt before (Opcode.ofToken token) = some name)
    (hreserved : Registers.isReserved name = false) :
    .register name ∈ (analyze value expression).requires := by
  refine mem_requires_of_symbols value heq ?_
  rw [Scan.foldl_step, Scan.symbols]
  cases hop : Opcode.ofToken token with
  | load | copyRegister =>
    rw [hop] at h
    simp only [operandRegister?_of_operandsBefore h hreserved]
    exact List.mem_singleton_self _
  | _ => rw [hop] at h; cases h

/-- The scan finds the registers of a template that ends at an even-numbered bar directly
before a fold. -/
theorem mem_requires_of_template (value : Option String) {left after : List String}
    {bar token : String} (heq : Text.words expression = left ++ bar :: token :: after)
    (hbar : isBar bar = true) (hodd : bars left % 2 = 1)
    (hop : Opcode.ofToken token = .eachRegister) {range : RegisterRange}
    (hrange : RegisterRange.ofFields? (sinceBar left) = some range)
    (hsize : range.size ≤ maxTracked) {name : String} (hname : name ∈ range.registers)
    (hreserved : Registers.isReserved name = false) :
    .register name ∈ (analyze value expression).requires := by
  refine mem_requires_of_symbols value heq ?_
  rw [Scan.foldl_step, Scan.symbols, Program.isBar_iff.1 hbar, if_pos hodd, List.head?_cons,
    Option.map_some, hop]
  exact mem_templateRegisters hrange hsize hname hreserved

/-- The scan finds all registers that a tidy expression reads. -/
theorem mem_requires (h : Tidy literal (Text.words expression)) (value : Option String)
    {name : String} (hreads : Reads (Text.words expression) name)
    (hreserved : Registers.isReserved name = false) :
    .register name ∈ (analyze value expression).requires := by
  obtain ⟨before, token, after, heq, hloaded | hfolded⟩ := hreads
  · exact mem_requires_of_loadedAt value heq hloaded hreserved
  · cases hop : Opcode.ofToken token with
    | eachRegister =>
      obtain ⟨-, -, htemplate⟩ := h.placed heq
      obtain ⟨left, bar, rfl, hbar⟩ := (htemplate hop).exists_append
      obtain ⟨-, heven, -, hsize⟩ := htemplate hop
      rw [Program.bars_append_bar left hbar] at heven
      rw [List.append_assoc, List.singleton_append] at heq
      rw [hop, Program.foldedAt] at hfolded
      split at hfolded
      · next range hrange =>
        have hsince := hrange
        rw [Program.template, List.dropLast_concat] at hsince
        exact mem_requires_of_template value heq hbar (by omega) hop hsince (hsize range hrange)
          hfolded hreserved
      · cases hfolded
    | _ => rw [hop] at hfolded; cases hfolded

/-- The scan finds all registers that an expression writes. -/
theorem mem_provides (value : Option String) {name : String}
    (hwrites : Writes (Text.words expression) name)
    (hreserved : Registers.isReserved name = false) :
    .register name ∈ (analyze value expression).provides := by
  obtain ⟨before, token, after, heq, hstored⟩ := hwrites
  refine mem_provides_of_symbols value heq ?_
  rw [Scan.foldl_step, Scan.symbols]
  cases hop : Opcode.ofToken token with
  | store | copyRegister =>
    rw [hop] at hstored
    simp only [operandRegister?_of_operandsBefore hstored hreserved]
    exact List.mem_singleton_self _
  | _ => rw [hop] at hstored; cases hstored

/-- The footprint of a tidy expression is what the scan finds. -/
theorem evaluateOn_footprint (h : Tidy literal (Text.words expression)) (value : Option String)
    (stack : List Value) :
    Footprint
      (fun name => .register name ∈ (analyze value expression).requires ∨
        Registers.isReserved name = true)
      (fun name => .register name ∈ (analyze value expression).provides ∨
        Registers.isReserved name = true)
      (evaluateOn expression stack) := by
  refine h.run_footprint (fun w => Text.isWord_of_mem_words) (fun name hname => ?_)
    (fun name hname => ?_) stack
  · cases hreserved : Registers.isReserved name with
    | true => exact .inr rfl
    | false => exact .inl (mem_requires h value hname hreserved)
  · cases hreserved : Registers.isReserved name with
    | true => exact .inr rfl
    | false =>
      rw [hreserved] at hname
      exact .inl (mem_provides value (hname.resolve_right nofun) hreserved)

/-- A tidy expression gives the same result from two stores with the same in the
registers that it requires and in the machine's. It changes no others than those
that it provides and the machine's, and leaves each of the former the same in both
stores or as it was in both. -/
theorem evaluateOn_agree (h : Tidy (fun _ => True) (Text.words expression)) (stack : List Value)
    {r s : Registers}
    (hrs : ∀ name, .register name ∈ (analyze none expression).requires ∨
      Registers.isReserved name = true → r.get? name = s.get? name) :
    (evaluateOn expression stack r).1 = (evaluateOn expression stack s).1 ∧
      (∀ name, .register name ∉ (analyze none expression).provides →
        Registers.isReserved name = false →
          (evaluateOn expression stack r).2.get? name = r.get? name ∧
            (evaluateOn expression stack s).2.get? name = s.get? name) ∧
      (∀ name, .register name ∈ (analyze none expression).provides →
        (evaluateOn expression stack r).2.get? name = (evaluateOn expression stack s).2.get? name ∨
          (evaluateOn expression stack r).2.get? name = r.get? name ∧
            (evaluateOn expression stack s).2.get? name = s.get? name) ∧
      ∀ name, Registers.isReserved name = true →
        (evaluateOn expression stack r).2.get? name =
          (evaluateOn expression stack s).2.get? name := by
  have hfoot := evaluateOn_footprint h none stack
  refine ⟨hfoot.result_eq hrs, fun name hname hreserved => ?_,
    fun name _ => (hfoot.unchanged_or_eq hrs name).symm,
    fun name hname => hfoot.get?_congr hrs (hrs name (.inr hname))⟩
  have hwrites : ¬(.register name ∈ (analyze none expression).provides ∨
      Registers.isReserved name = true) := by
    rintro (hprovides | hmachine)
    · exact hname hprovides
    · rw [hreserved] at hmachine
      cases hmachine
  exact ⟨hfoot.unchanged r hwrites, hfoot.unchanged s hwrites⟩

/-- A running total, from a register on and over two others. -/
def runningTotal : String := "~start ldr | ~item 1 2 0 + ~sum str | eachreg +"

/-- The total does not depend on a register that it does not name, nor change it. -/
theorem evaluateOn_runningTotal :
    (evaluateOn runningTotal [] Registers.new).1 =
        (evaluateOn runningTotal [] (Registers.new.set "other" (Number.ofNat 7))).1 ∧
      (evaluateOn runningTotal [] (Registers.new.set "other" (Number.ofNat 7))).2.get? "other" =
        some (Number.ofNat 7) := by
  have htidy : Tidy (fun _ => True) (Text.words runningTotal) := by decide +kernel
  have hother : ¬(.register "other" ∈ (analyze none runningTotal).requires ∨
      Registers.isReserved "other" = true) := by decide +kernel
  have hagree : ∀ name, .register name ∈ (analyze none runningTotal).requires ∨
      Registers.isReserved name = true → Registers.new.get? name =
        (Registers.new.set "other" (Number.ofNat 7)).get? name := by
    intro name hname
    have hne : name ≠ "other" := by
      rintro rfl
      exact hother hname
    exact (Registers.get?_set_of_ne _ hne _).symm
  have h := evaluateOn_agree htidy [] hagree
  refine ⟨h.1, (h.2.1 "other" (by decide +kernel) (by decide)).2.trans ?_⟩
  exact Registers.get?_set_self _ _ _

end Dependencies

end Reckoner
