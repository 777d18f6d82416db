import Reckoner.Number.Function
import Reckoner.Number.Literal

/-!
# Opcodes

What a token of an expression asks the machine to do. A token is a keyword, or
its first character tells what it is, or it begins with a number; all else is
unknown.

* `Opcode.ofToken`: the opcode of a token;
* `keywords`: the words with a meaning of their own. `log` is the natural
  logarithm and `ln` the decimal one.
-/

namespace Reckoner

/-- What one token asks the machine to do. -/
inductive Opcode where
  | number (x : Float)
  /-- A register name or label to be pushed as text. -/
  | name (s : String)
  /-- The label of a block, pushed as text. -/
  | blockOpen (label : String)
  | unknown (token : String)
  | binary (op : Number.Binary)
  | unary (f : Number.Unary)
  | constant (c : Number.Constant)
  | reduce (r : Number.Reduction)
  | percent
  | percentAdd
  | percentSub
  | mround
  | fix
  | root
  | swap
  | copy
  | pop
  | load
  | store
  | copyRegister
  | reset
  | jumpIfZero
  | jumpIfNotZero
  | blockClose
  | capture
  | eachRegister
  | debug
  deriving DecidableEq

namespace Opcode

/-- The words with a meaning of their own. -/
def keywords : List (String × Opcode) :=
  [("+", .binary .add), ("-", .binary .subtract), ("*", .binary .multiply),
    ("/", .binary .divide), ("^", .binary .power), ("mod", .binary .modulo),
    ("swap", .swap), ("cpy", .copy), ("pop", .pop),
    ("%", .percent), ("%+", .percentAdd), ("%-", .percentSub),
    ("sin", .unary .sin), ("cos", .unary .cos), ("tan", .unary .tan),
    ("asin", .unary .asin), ("acos", .unary .acos), ("atan", .unary .atan),
    ("log", .unary .naturalLog), ("ln", .unary .decimalLog), ("exp", .unary .exp),
    ("abs", .unary .abs), ("floor", .unary .floor), ("ceil", .unary .ceil),
    ("round", .unary .round), ("sign", .unary .sign), ("negate", .unary .negate),
    ("pi", .constant .pi), ("e", .constant .e),
    ("ldr", .load), ("str", .store), ("cpr", .copyRegister), ("reset", .reset),
    ("mround", .mround), ("fix", .fix), ("root", .root),
    ("sum", .reduce .sum), ("avg", .reduce .average), ("min", .reduce .min),
    ("max", .reduce .max), ("count", .reduce .count),
    ("jmpz", .jumpIfZero), ("jmpnz", .jumpIfNotZero), ("eachreg", .eachRegister),
    ("debug", .debug)]

/-- The opcode of a token that is no keyword. -/
def ofWord (token : String) : Opcode :=
  match token.toList with
  | '\x7d' :: _ => .blockClose
  | '|' :: _ => .capture
  | '~' :: cs => .name (String.ofList cs)
  | '$' :: cs => .name (String.ofList cs)
  | '\x7b' :: _ => .blockOpen token
  | cs =>
    match Number.readChars? cs with
    | some x => .number x
    | none => .unknown token

/-- The opcode of a token. -/
def ofToken (token : String) : Opcode :=
  (keywords.lookup token).getD (ofWord token)

/-- Whether a token means nothing. -/
def isUnknown : Opcode → Bool
  | .unknown _ => true
  | _ => false

end Opcode

end Reckoner
