/-!
# Arguments of the command line

A command is a subcommand, its argument, and options anywhere after it, or just
the question for the version, after which no word counts. An option takes its
value from the same word, after an equals sign or directly after a one-letter
name, or from the next word, which must not look like an option itself. After
`--` every word is an argument.

* `Command.ofArguments?`: the command that words stand for, if they stand for
  one: each option at most once, no other options, and one argument.
-/

namespace Reckoner.CommandLine

/-- How a report is written. -/
inductive OutputFormat where
  | text
  | json
  deriving DecidableEq

/-- What the command line asks for. -/
inductive Command where
  | version
  | eval (expression : String) (values : Option String) (registers : Bool)
  | check (expression : String)
  | batch (input : String) (values outer : Option String) (precision : Option UInt64)
      (format : OutputFormat) (registers : Bool)
  | ledger (input : String) (precision : Option UInt64) (format : OutputFormat) (registers : Bool)
  deriving DecidableEq

/-! ## Options -/

/-- An option of a subcommand. -/
structure OptionSpec where
  name : String
  letter : Option Char
  takesValue : Bool
  deriving DecidableEq

/-- What a word is on its own. -/
inductive Word where
  | argument
  /-- An option, with the value that stands in the same word. -/
  | option (spec : OptionSpec) (value : Option String)
  | unknown
  deriving DecidableEq

/-- An option as far as its word goes; one without a value must not have one. -/
def Word.ofSpec (spec : OptionSpec) (value : Option String) : Word :=
  if spec.takesValue || value.isNone then .option spec value else .unknown

/-- The word for an option with a long name. -/
def Word.long (specs : List OptionSpec) (cs : List Char) : Word :=
  let name := String.ofList (cs.takeWhile (· != '='))
  match specs.find? fun spec => spec.name == name with
  | none => .unknown
  | some spec =>
    match cs.dropWhile (· != '=') with
    | [] => .ofSpec spec none
    | _ :: value => .ofSpec spec (some (String.ofList value))

/-- The word for an option with a letter. -/
def Word.short (specs : List OptionSpec) (letter : Char) (cs : List Char) : Word :=
  match specs.find? fun spec => spec.letter == some letter with
  | none => .unknown
  | some spec =>
    match cs with
    | [] => .ofSpec spec none
    | '=' :: value => .ofSpec spec (some (String.ofList value))
    | value => .ofSpec spec (some (String.ofList value))

/-- What a word is on its own. A dash alone is an argument. -/
def Word.of (specs : List OptionSpec) (word : String) : Word :=
  match word.toList with
  | '-' :: '-' :: cs => .long specs cs
  | '-' :: letter :: cs => .short specs letter cs
  | _ => .argument

/-- The arguments and the options of a command. -/
structure Given where
  arguments : List String
  options : List (OptionSpec × Option String)

namespace Given

/-- Whether an option is given. -/
def has (g : Given) (name : String) : Bool :=
  g.options.any fun o => o.1.name == name

/-- The value of an option. -/
def value? (g : Given) (name : String) : Option String :=
  (g.options.find? fun o => o.1.name == name).bind Prod.snd

/-- With an argument in front. -/
def addArgument (word : String) (g : Given) : Given :=
  { g with arguments := word :: g.arguments }

/-- With an option in front, unless it is given already. -/
def addOption? (spec : OptionSpec) (value : Option String) (g : Given) : Option Given :=
  if g.has spec.name then none else some { g with options := (spec, value) :: g.options }

end Given

/-- Whether a word can be the value of the option before it. -/
def isValue (word : String) : Bool :=
  match word.toList with
  | '-' :: _ :: _ => false
  | _ => true

/-- The arguments and the options among words. -/
def Given.ofWords? (specs : List OptionSpec) : List String → Option Given
  | [] => some ⟨[], []⟩
  | "--" :: rest => some ⟨rest, []⟩
  | word :: rest =>
    match Word.of specs word with
    | .argument => (ofWords? specs rest).map (addArgument word)
    | .unknown => none
    | .option spec value =>
      if spec.takesValue && value.isNone then
        match rest with
        | next :: rest =>
          if isValue next then (ofWords? specs rest).bind (addOption? spec (some next)) else none
        | [] => none
      else (ofWords? specs rest).bind (addOption? spec value)

/-! ## Values of options -/

/-- The name of a file, which is not empty. -/
def file? (s : String) : Option String :=
  if s.isEmpty then none else some s

/-- A count: digits, with or without a plus sign, below `2 ^ 64`. -/
def count? (s : String) : Option UInt64 :=
  let digits := match s.toList with
    | '+' :: cs => cs
    | cs => cs
  if digits.isEmpty || !digits.all Char.isDigit then none
  else
    let n := Nat.ofDigitChars 10 digits 0
    if n < Nat.pow 2 64 then some (UInt64.ofNat n) else none

/-- The name of a format. -/
def format? (s : String) : Option OutputFormat :=
  if s = "text" then some .text else if s = "json" then some .json else none

namespace Given

/-- The one argument. -/
def argument? (g : Given) : Option String :=
  match g.arguments with
  | [word] => some word
  | _ => none

/-- The value of an option, which has to be of a kind if it is there. -/
def valueOf? {α : Type} (g : Given) (name : String) (read : String → Option α) :
    Option (Option α) :=
  match g.value? name with
  | none => some none
  | some s => (read s).map some

end Given

/-! ## Commands -/

/-- An option with the name of a file. -/
def fileSpec (name : String) : OptionSpec := ⟨name, none, true⟩

/-- The option that adds the registers to the output. -/
def registersSpec : OptionSpec := ⟨"registers", none, false⟩

/-- The option for a number of decimals. -/
def precisionSpec : OptionSpec := ⟨"precision", some 'p', true⟩

/-- The option for the format of the output. -/
def formatSpec : OptionSpec := ⟨"format", some 'f', true⟩

/-- The command of a subcommand with the words after it. -/
def Command.ofSubcommand? (name : String) (words : List String) : Option Command :=
  match name with
  | "eval" => do
    let g ← Given.ofWords? [fileSpec "values", registersSpec] words
    let expression ← g.argument?
    let values ← g.valueOf? "values" file?
    return .eval expression values (g.has "registers")
  | "check" => do
    let g ← Given.ofWords? [] words
    let expression ← g.argument?
    return .check expression
  | "batch" => do
    let g ← Given.ofWords?
      [fileSpec "values", fileSpec "outer", precisionSpec, formatSpec, registersSpec] words
    let input ← g.argument?.bind file?
    let values ← g.valueOf? "values" file?
    let outer ← g.valueOf? "outer" file?
    let precision ← g.valueOf? "precision" count?
    let format ← g.valueOf? "format" format?
    return .batch input values outer precision (format.getD .text) (g.has "registers")
  | "ledger" => do
    let g ← Given.ofWords? [precisionSpec, formatSpec, registersSpec] words
    let input ← g.argument?.bind file?
    let precision ← g.valueOf? "precision" count?
    let format ← g.valueOf? "format" format?
    return .ledger input precision (format.getD .text) (g.has "registers")
  | _ => none

/-- Whether a word in place of a subcommand asks for the version. The letter
answers before those that follow it in the word. -/
def asksVersion (word : String) : Bool :=
  match word.toList with
  | '-' :: 'V' :: _ => true
  | _ => word == "--version"

/-- The command that words stand for. -/
def Command.ofArguments? : List String → Option Command
  | [] => none
  | name :: words =>
    if asksVersion name then some .version else Command.ofSubcommand? name words

end Reckoner.CommandLine
