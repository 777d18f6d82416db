import Reckoner.Json.Token

/-!
# JSON documents

`parse?` reads a document. Its tokens pass one by one through a reader that
keeps the open arrays and objects in a stack and knows what may come next, so
any nesting is read in one pass. `write` is the compact text of a value and
`pretty` the text with a line for every item and member.

* `tokens`: a value as the tokens of its compact text.
-/

namespace Reckoner.Json

/-! ## Reading -/

/-- An array or object that is still open, its items or members in reverse. -/
inductive Frame where
  | array (items : List Json)
  /-- With the name of the member that is being read. -/
  | object (members : List (Option String × Json)) (name : Option String)

/-- What a reader waits for. -/
inductive Awaiting where
  /-- A value. -/
  | value
  /-- The first item of an array, or its end. -/
  | item
  /-- The first name of an object, or its end. -/
  | name
  /-- The name of a further member. -/
  | nextName
  /-- The colon after a name. -/
  | colon
  /-- A comma, or the end of what is open. -/
  | separator
  /-- Nothing: the document has this value. -/
  | nothing (v : Json)

/-- A reader between two tokens. -/
structure Reader where
  frames : List Frame
  awaiting : Awaiting

/-- The object with these members; one with a name that is no text denotes
nothing. -/
def ofMembers (members : List (Option String × Json)) : Json :=
  match members.mapM fun (name, value) => name.map (·, value) with
  | some members => .object members
  | none => .invalid

namespace Reader

/-- The reader of a new document. -/
def start : Reader := ⟨[], .value⟩

/-- A value is complete: it goes into what is open around it. -/
def put (v : Json) : List Frame → Reader
  | [] => ⟨[], .nothing v⟩
  | .array items :: frames => ⟨.array (v :: items) :: frames, .separator⟩
  | .object members name :: frames =>
    ⟨.object ((name, v) :: members) name :: frames, .separator⟩

/-- A token at a place where a value may begin. -/
def beginValue (frames : List Frame) : Token → Option Reader
  | .null => some (put .null frames)
  | .bool b => some (put (.bool b) frames)
  | .number n => some (put ((n.map Json.number).getD .invalid) frames)
  | .text s => some (put ((s.map Json.string).getD .invalid) frames)
  | .openArray => some ⟨.array [] :: frames, .item⟩
  | .openObject => some ⟨.object [] none :: frames, .name⟩
  | _ => none

/-- The reader after a further token, if it may stand there. -/
def step (r : Reader) (t : Token) : Option Reader :=
  match r.awaiting, r.frames, t with
  | .value, frames, t => beginValue frames t
  | .item, .array _ :: frames, .closeArray => some (put (.array []) frames)
  | .item, frames, t => beginValue frames t
  | .name, .object _ _ :: frames, .closeObject => some (put (.object []) frames)
  | .name, .object members _ :: frames, .text s => some ⟨.object members s :: frames, .colon⟩
  | .nextName, .object members _ :: frames, .text s => some ⟨.object members s :: frames, .colon⟩
  | .colon, frames, .colon => some ⟨frames, .value⟩
  | .separator, .array items :: frames, .comma => some ⟨.array items :: frames, .value⟩
  | .separator, .array items :: frames, .closeArray =>
    some (put (.array items.reverse) frames)
  | .separator, .object members name :: frames, .comma =>
    some ⟨.object members name :: frames, .nextName⟩
  | .separator, .object members _ :: frames, .closeObject =>
    some (put (ofMembers members.reverse) frames)
  | _, _, _ => none

/-- The value of a document that is read to its end. -/
def value? (r : Reader) : Option Json :=
  match r.awaiting with
  | .nothing v => some v
  | _ => none

end Reader

/-- The value of a document. -/
def parse? (s : String) : Option Json := do
  let tokens ← lex? s.toList
  let r ← tokens.foldlM Reader.step Reader.start
  r.value?

/-! ## Writing -/

mutual

/-- The tokens of a value; what denotes nothing is written `null`. -/
def tokens : Json → List Token
  | .null => [.null]
  | .bool b => [.bool b]
  | .number n => [.number (some n)]
  | .string s => [.text (some s)]
  | .array items => .openArray :: itemTokens items ++ [.closeArray]
  | .object members => .openObject :: memberTokens members ++ [.closeObject]
  | .invalid => [.null]

/-- The tokens of the items of an array. -/
def itemTokens : List Json → List Token
  | [] => []
  | [item] => tokens item
  | item :: items => tokens item ++ .comma :: itemTokens items

/-- The tokens of the members of an object. -/
def memberTokens : List (String × Json) → List Token
  | [] => []
  | [(name, value)] => .text (some name) :: .colon :: tokens value
  | (name, value) :: members =>
    .text (some name) :: .colon :: tokens value ++ .comma :: memberTokens members

end

/-- The compact text of a value. -/
def write (v : Json) : String :=
  String.ofList (v.tokens.flatMap Token.write)

/-- A new line at a depth of nesting. -/
def newLine (depth : Nat) : List Char :=
  '\n' :: List.replicate (2 * depth) ' '

mutual

/-- The text of a value with a line for every item and member. -/
def prettyChars (depth : Nat) : Json → List Char
  | .array [] => ['[', ']']
  | .array items => '[' :: prettyItems (depth + 1) items ++ newLine depth ++ [']']
  | .object [] => ['\x7b', '\x7d']
  | .object members => '\x7b' :: prettyMembers (depth + 1) members ++ newLine depth ++ ['\x7d']
  | .null => Token.null.write
  | .bool b => (Token.bool b).write
  | .number n => n.write
  | .string s => Quoted.quote s.toList
  | .invalid => Token.null.write

/-- The items of an array, each on its line. -/
def prettyItems (depth : Nat) : List Json → List Char
  | [] => []
  | [item] => newLine depth ++ prettyChars depth item
  | item :: items => newLine depth ++ prettyChars depth item ++ ',' :: prettyItems depth items

/-- The members of an object, each on its line. -/
def prettyMembers (depth : Nat) : List (String × Json) → List Char
  | [] => []
  | [(name, value)] =>
    newLine depth ++ Quoted.quote name.toList ++ ':' :: ' ' :: prettyChars depth value
  | (name, value) :: members =>
    newLine depth ++ Quoted.quote name.toList ++ ':' :: ' ' :: prettyChars depth value ++
      ',' :: prettyMembers depth members

end

/-- The text of a value over several lines. -/
def pretty (v : Json) : String :=
  String.ofList (prettyChars 0 v)

end Reckoner.Json
