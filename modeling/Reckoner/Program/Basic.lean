import Reckoner.Program.Opcode

/-!
# Programs

An expression is a sequence of words, and a program is the sequence of their
opcodes, each with its word. Any expression is a program; `validate` is for
those who want every word to mean something.

Two bars enclose a template. Its first word is a name and need not mean
anything.

* `firstUnknown?`: the position of the first word that means nothing.
-/

namespace Reckoner

/-- What went wrong with an expression or with a batch of them. -/
inductive Failure where
  /-- A word that means nothing. -/
  | unknownToken (token : String) (position : Nat)
  /-- A node that depends on itself, through the nodes of a chain. -/
  | cycle (node : String) (chain : List String)
  deriving DecidableEq

namespace Failure

/-- The words for a failure. -/
def message : Failure → String
  | .unknownToken token position => "Unknown token '" ++ token ++ "' at position " ++ toString position
  | .cycle node chain =>
    "Cyclic dependency detected at " ++ node ++ " (" ++ " -> ".intercalate chain ++ ")"

end Failure

/-- An opcode and the word it was read from. -/
structure Instruction where
  op : Opcode
  token : String
  deriving DecidableEq

/-- A sequence of instructions. -/
abbrev Program := List Instruction

namespace Program

/-- The instruction of a word. -/
def instruction (token : String) : Instruction :=
  ⟨Opcode.ofToken token, token⟩

/-- The program of a sequence of words. -/
def ofTokens (tokens : List String) : Program :=
  tokens.map instruction

/-- The program of an expression. -/
def parse (expression : String) : Program :=
  ofTokens (Text.words expression)

/-- The words that mean nothing, with their positions. -/
def unknownTokens (p : Program) : List (Nat × String) :=
  p.zipIdx.filterMap fun (i, position) =>
    if i.op.isUnknown then some (position, i.token) else none

/-- Where a word stands with respect to templates. -/
inductive Place where
  | outside
  /-- At the beginning of a template. -/
  | templateName
  | template
  deriving DecidableEq

namespace Place

/-- Where the next word stands. -/
def next (place : Place) (op : Opcode) : Place :=
  if op = .capture then
    if place = .outside then .templateName else .outside
  else if place = .outside then .outside
  else .template

end Place

/-- The first word that means nothing and has to, counting positions from
`position`. -/
def firstUnknown? (place : Place) (position : Nat) : Program → Option Failure
  | [] => none
  | i :: rest =>
    if i.op.isUnknown && place != .templateName then some (.unknownToken i.token position)
    else firstUnknown? (place.next i.op) (position + 1) rest

end Program

/-- The program of an expression in which every word has to mean something. -/
def validate (expression : String) : Except Failure Program :=
  let p := Program.parse expression
  match p.firstUnknown? .outside 0 with
  | some failure => .error failure
  | none => .ok p

end Reckoner
