import Reckoner.Machine.Template
import Reckoner.Reference.Basic
import Reckoner.Registers

/-!
# What an expression reads and writes

The symbols that an expression requires and provides, as far as they can be
told from its text. It requires the values it refers to. A register operation
requires or provides the register whose name is written directly before it, and
a fold requires the registers that its template names, if the template stands
directly before it and names at most `maxTracked` of them. Bars are taken in
pairs from the left.

The registers of the machine order nothing and are left out.

* `Dependencies.analyze`: the symbols, each once, in the order of first mention.
-/

namespace Reckoner

/-- Something that an expression reads or writes. -/
inductive Symbol where
  | value (name : String)
  | register (name : String)
  deriving DecidableEq

/-- The symbols that an expression reads and those that it writes. -/
structure Dependencies where
  requires : List Symbol
  provides : List Symbol
  deriving DecidableEq

namespace Dependencies

/-- The most registers of a fold that are tracked. -/
def maxTracked : Nat := 1024

/-- The register that an operand names, unless it is one of the machine's. -/
def operandRegister? (operand : Option String) : Option Symbol := do
  let token ← operand
  let name ← match Opcode.ofToken token with
    | .name s => some s
    | .number x => some (Number.format x)
    | _ => none
  if Registers.isReserved name then none else some (.register name)

/-- The registers that a template names, without the machine's. -/
def templateRegisters (template : List String) : List Symbol :=
  match RegisterRange.ofFields? template with
  | some range =>
    if range.size ≤ maxTracked then
      (range.registers.filter fun name => !Registers.isReserved name).map .register
    else []
  | none => []

/-- What a scan of the words of an expression knows of those before the next one:
the last two, and all since the bar that opens a template. -/
structure Scan where
  before : Option String
  beforeThat : Option String
  template : Option (List String)

namespace Scan

/-- The scan before the first word. -/
def start : Scan := ⟨none, none, none⟩

/-- The symbols of a word, given the word after it. -/
def symbols (s : Scan) (token : String) (next : Option String) : Dependencies :=
  match Opcode.ofToken token with
  | .load => ⟨(operandRegister? s.before).toList, []⟩
  | .store => ⟨[], (operandRegister? s.before).toList⟩
  | .copyRegister =>
    ⟨(operandRegister? s.beforeThat).toList, (operandRegister? s.before).toList⟩
  | .capture =>
    match s.template with
    | none => ⟨[], []⟩
    | some words =>
      if next.map Opcode.ofToken = some .eachRegister then ⟨templateRegisters words, []⟩
      else ⟨[], []⟩
  | _ => ⟨[], []⟩

/-- The template that is open after a word. -/
def nextTemplate (s : Scan) (token : String) : Option (List String) :=
  if Opcode.ofToken token = .capture then
    match s.template with
    | none => some []
    | some _ => none
  else s.template.map (· ++ [token])

/-- The scan after a further word. -/
def step (s : Scan) (token : String) : Scan :=
  ⟨some token, s.before, s.nextTemplate token⟩

/-- The symbols of every further word. -/
def scan (s : Scan) : List String → List Dependencies
  | [] => []
  | token :: rest => s.symbols token rest.head? :: (s.step token).scan rest

end Scan

/-- The symbols of an expression, which writes the value `name` if it has one. -/
def analyze (name : Option String) (expression : String) : Dependencies :=
  let found := Scan.start.scan (Text.words expression)
  ⟨((referenceNames expression).map Symbol.value ++ found.flatMap Dependencies.requires).eraseDups,
    (name.toList.map Symbol.value ++ found.flatMap Dependencies.provides).eraseDups⟩

end Dependencies

end Reckoner
