import Reckoner.Dependency

/-!
# Values among the symbols

What the scan of an expression finds are registers (`Dependencies.Scan.value_notMem_scan`). So the
values that an expression requires are those that it refers to, and it provides no value but its
own (`Dependencies.value_mem_requires`, `Dependencies.value_mem_provides`).
-/

namespace Reckoner.Dependencies

variable {expression : String}

theorem value_notMem_operandRegister? (operand : Option String) (name : String) :
    .value name ∉ (operandRegister? operand).toList := by
  have hregister : ∀ s : String, (if Registers.isReserved s then none else some (.register s)) ≠
      some (Symbol.value name) := by
    intro s
    split
    · exact nofun
    · exact nofun
  cases operand with
  | none => exact List.not_mem_nil
  | some token =>
    rw [Option.mem_toList, operandRegister?]
    simp only [Option.bind_eq_bind, Option.bind_some]
    split
    · exact hregister _
    · exact hregister _
    · exact nofun

theorem value_notMem_templateRegisters (template : List String) (name : String) :
    .value name ∉ templateRegisters template := by
  unfold templateRegisters
  split
  · split
    · simp
    · exact List.not_mem_nil
  · exact List.not_mem_nil

/-- What the scan finds at a word are registers. -/
theorem Scan.value_notMem_symbols (s : Scan) (token : String) (next : Option String)
    (name : String) : .value name ∉ (s.symbols token next).requires ∧
      .value name ∉ (s.symbols token next).provides := by
  unfold symbols
  split
  · exact ⟨value_notMem_operandRegister? _ _, List.not_mem_nil⟩
  · exact ⟨List.not_mem_nil, value_notMem_operandRegister? _ _⟩
  · exact ⟨value_notMem_operandRegister? _ _, value_notMem_operandRegister? _ _⟩
  · split
    · exact ⟨List.not_mem_nil, List.not_mem_nil⟩
    · split
      · exact ⟨value_notMem_templateRegisters _ _, List.not_mem_nil⟩
      · exact ⟨List.not_mem_nil, List.not_mem_nil⟩
  · exact ⟨List.not_mem_nil, List.not_mem_nil⟩

theorem Scan.value_notMem_scan (s : Scan) (tokens : List String) (name : String) :
    .value name ∉ (s.scan tokens).flatMap requires ∧
      .value name ∉ (s.scan tokens).flatMap provides := by
  induction tokens generalizing s with
  | nil => exact ⟨List.not_mem_nil, List.not_mem_nil⟩
  | cons token tokens ih =>
    obtain ⟨hrequires, hprovides⟩ := s.value_notMem_symbols token tokens.head? name
    obtain ⟨hrequires', hprovides'⟩ := ih (s.step token)
    rw [Scan.scan, List.flatMap_cons, List.flatMap_cons, List.mem_append, List.mem_append, not_or,
      not_or]
    exact ⟨⟨hrequires, hrequires'⟩, hprovides, hprovides'⟩

/-- The values that an expression requires are those that it refers to. -/
theorem value_mem_requires {value : Option String} {name : String} :
    .value name ∈ (analyze value expression).requires ↔ name ∈ referenceNames expression := by
  refine List.mem_eraseDups.trans (List.mem_append.trans ?_)
  rw [or_iff_left (Scan.value_notMem_scan _ _ name).1, List.mem_map]
  constructor
  · rintro ⟨other, hother, heq⟩
    exact Symbol.value.inj heq ▸ hother
  · exact fun h => ⟨name, h, rfl⟩

/-- The only value that an expression provides is its own. -/
theorem value_mem_provides {value : Option String} {name : String} :
    .value name ∈ (analyze value expression).provides ↔ value = some name := by
  refine List.mem_eraseDups.trans (List.mem_append.trans ?_)
  rw [or_iff_left (Scan.value_notMem_scan _ _ name).2]
  simp [eq_comm]

end Reckoner.Dependencies
