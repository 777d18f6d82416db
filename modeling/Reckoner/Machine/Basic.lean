import Reckoner.Machine.Template
import Reckoner.Machine.Value
import Reckoner.Registers

/-!
# The stack machine

A machine runs a program from left to right over a stack and the registers. It
never fails: below the bottom of the stack it finds undefined values, and what
has no number counts as zero in the end.

A conditional jump skips what follows up to the next `}`, and a bar gathers
what follows up to the next bar as a text. `eachreg` takes such a text as a
template and runs its body for each register of a range.

A body that was gathered between bars holds no bar, so it gathers nothing and
all texts on its stack are single words, which are no templates. So folds nest
twice at most: `run` runs a program whose folds may hold folds, and these hold
none.

* `Machine.advance`: one instruction;
* `runWith`: a whole program, with a given meaning of `eachreg`;
* `run`, `evaluate`: the machine itself.
-/

namespace Reckoner

/-- What a machine does with the next instruction. -/
inductive Mode where
  | running
  /-- It is passed over unless it closes a block. -/
  | skipping
  /-- Its word is added to these unless it is a bar. -/
  | gathering (tokens : List String)
  deriving DecidableEq

/-- The state of a machine; the head of the stack is its top. -/
structure Machine where
  stack : List Value
  mode : Mode
  registers : Registers

/-- The meaning of `eachreg`: what a fold with a template leaves on the stack and
in the registers. -/
abbrev Fold := Value → Registers → Value × Registers

/-- The meaning of a program: its result on a stack, and the registers after it. -/
abbrev Runner := Program → List Value → Registers → Float × Registers

namespace Machine

/-- The value on top, and the machine without it. -/
def pop (m : Machine) : Value × Machine :=
  match m.stack with
  | [] => (.undefined, m)
  | v :: rest => (v, { m with stack := rest })

/-- The operand on top, and the machine without it. -/
def popNumber (m : Machine) : Float × Machine :=
  let (v, m) := m.pop
  (v.toFloat, m)

/-- The machine with a value on top. -/
def push (m : Machine) (v : Value) : Machine :=
  { m with stack := v :: m.stack }

/-- The machine with a number on top. -/
def pushNumber (m : Machine) (x : Float) : Machine :=
  m.push (.number x)

/-- The machine with new registers. -/
def withRegisters (m : Machine) (r : Registers) : Machine :=
  { m with registers := r }

/-- The machine with a new side result. -/
def setIntermediate (m : Machine) (x : Float) : Machine :=
  m.withRegisters (m.registers.setIntermediate x)

/-- A number computed from the two on top, the lower one first. -/
def binary (m : Machine) (f : Float → Float → Float) : Machine :=
  let (y, m) := m.popNumber
  let (x, m) := m.popNumber
  m.pushNumber (f x y)

/-- A number and a side result computed from the two numbers on top, the lower
one first. -/
def binaryWithSide (m : Machine) (f : Float → Float → Float × Float) : Machine :=
  let (y, m) := m.popNumber
  let (x, m) := m.popNumber
  let (result, side) := f x y
  (m.setIntermediate side).pushNumber result

/-- A reduction of the whole stack. -/
def reduce (m : Machine) (r : Number.Reduction) : Machine :=
  let reduced := r.apply (m.stack.reverse.map Value.toFloat)
  let m := { m with stack := [] }
  let m := match reduced.count with
    | some n => m.setIntermediate (Number.ofNat n)
    | none => m
  m.push (Value.ofOption reduced.value)

/-- A conditional jump: on the condition the machine skips, and else the
condition stays. -/
def jump (m : Machine) (onZero : Bool) : Machine :=
  let (_, m) := m.pop
  let (condition, m) := m.pop
  if condition.isZero = onZero then { m with mode := .skipping } else m.push condition

/-- An opcode on a machine that is running. -/
def perform (fold : Fold) (m : Machine) : Opcode → Machine
  | .number x => m.pushNumber x
  | .name s => m.push (.text s)
  | .blockOpen label => m.push (.text label)
  | .unknown _ => m.pushNumber (Number.zero false)
  | .binary op => m.binary op.apply
  | .unary f =>
    let (x, m) := m.popNumber
    m.pushNumber (f.apply x)
  | .constant c => m.pushNumber c.value
  | .reduce r => m.reduce r
  | .percent => m.binary Number.percent
  | .percentAdd => m.binaryWithSide fun x y => (x + Number.percent x y, Number.percent x y)
  | .percentSub => m.binaryWithSide fun x y => (x - Number.percent x y, Number.percent x y)
  | .mround => m.binaryWithSide Number.mround
  | .fix => m.binaryWithSide Number.fix
  | .root => m.binary Number.root
  | .swap =>
    let (v, m) := m.pop
    let (w, m) := m.pop
    (m.push v).push w
  | .copy =>
    let (v, m) := m.pop
    (m.push v).push v
  | .pop => m.pop.2
  | .load =>
    let (v, m) := m.pop
    m.push (Value.ofOption (m.registers.get? v.toName))
  | .store =>
    let (v, m) := m.pop
    let (x, m) := m.popNumber
    (m.withRegisters (m.registers.set v.toName x)).pushNumber x
  | .copyRegister =>
    let (destination, m) := m.pop
    let (source, m) := m.pop
    m.withRegisters (m.registers.copy source.toName destination.toName)
  | .reset => m.withRegisters Registers.new
  | .jumpIfZero => m.jump true
  | .jumpIfNotZero => m.jump false
  | .blockClose => m
  | .capture => { m with mode := .gathering [] }
  | .eachRegister =>
    let (v, m) := m.pop
    let (folded, r) := fold v m.registers
    (m.withRegisters r).push folded
  | .debug => m

/-- One instruction. -/
def advance (fold : Fold) (m : Machine) (i : Instruction) : Machine :=
  match m.mode with
  | .gathering tokens =>
    if i.op = .capture then { m with mode := .running }.push (.text (Text.unwords tokens))
    else { m with mode := .gathering (tokens ++ [i.token]) }
  | .skipping => if i.op = .blockClose then { m with mode := .running } else m
  | .running => m.perform fold i.op

/-- The machine before the first instruction. -/
def start (stack : List Value) (r : Registers) : Machine :=
  ⟨stack, .running, r⟩

/-- The result of a machine that has come to the end: the value on top, zero if
it is no number. -/
def result (m : Machine) : Float :=
  (m.pop.1.result?).getD (Number.zero false)

end Machine

/-- A program on a stack: its result, which is also the last result in the
registers. -/
def runWith (fold : Fold) : Runner := fun program stack r =>
  let m := program.foldl (Machine.advance fold) (Machine.start stack r)
  (m.result, m.registers.setLast m.result)

/-! ## Folds over registers -/

namespace Template

/-- The steps of a fold: `body` for each of `count` registers from an index on,
on a stack of the accumulator and, on top, the register. -/
def steps (run : Runner) (t : Template) : Nat → Int → Float → Registers → Float × Registers
  | 0, _, accumulator, r => (accumulator, r)
  | count + 1, index, accumulator, r =>
    let operand := Value.ofOption (r.get? (t.range.register index))
    let (accumulator, r) := run t.body [operand, .number accumulator] r
    steps run t count (index + 1) accumulator r

/-- The whole fold. -/
def fold (run : Runner) (t : Template) (r : Registers) : Float × Registers :=
  t.steps run t.range.size t.range.first t.initial r

end Template

/-- The meaning of `eachreg` when bodies are run by `run`. What is no template
gives nothing. -/
def foldWith (run : Runner) : Fold := fun v r =>
  match v with
  | .text s =>
    match Template.parse? s with
    | some t =>
      let (x, r) := t.fold run r
      (.number x, r)
    | none => (.undefined, r)
  | _ => (.undefined, r)

/-- A program whose folds nest `depth` deep at most; a deeper one gives nothing. -/
def runNested : Nat → Runner
  | 0 => runWith fun _ r => (.undefined, r)
  | depth + 1 => runWith (foldWith (runNested depth))

/-- The meaning of programs. -/
def run : Runner :=
  runNested 2

/-- An expression on a stack. -/
def evaluateOn (expression : String) (stack : List Value) (r : Registers) : Float × Registers :=
  run (Program.parse expression) stack r

/-- An expression on an empty stack. -/
def evaluate (expression : String) (r : Registers) : Float × Registers :=
  evaluateOn expression [] r

end Reckoner
