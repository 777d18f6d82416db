import Reckoner.Json.Document
import Reckoner.Proofs.Json.Token

/-!
# Reading documents that have been written

The compact text of a value is read as the value (`Json.parse?_write`), if all that it holds
denotes something and its numbers are read from their texts (`Json.IsReadable`). The tokens of
the text are those of the value (`Json.IsReadable.lexes`), and they take a reader from where a
value may begin to where it is complete (`Json.IsReadable.reads`).
-/

namespace Reckoner.Json

/-- Values that all of what they hold can be read back. -/
inductive IsReadable : Json → Prop
  | null : IsReadable .null
  | bool (b : Bool) : IsReadable (.bool b)
  | number {n : Numeral} (h : n.ReadsBack) : IsReadable (.number n)
  | string (s : String) : IsReadable (.string s)
  | array {items : List Json} (h : ∀ v ∈ items, IsReadable v) : IsReadable (.array items)
  | object {members : List (String × Json)} (h : ∀ m ∈ members, IsReadable m.2) :
    IsReadable (.object members)

/-! ## The tokens of a value -/

theorem lexes_itemTokens {items : List Json} (h : ∀ v ∈ items, Lexes v.tokens) :
    Lexes (itemTokens items) := by
  induction items with
  | nil => exact lexes_nil
  | cons v items ih =>
    obtain ⟨hv, hitems⟩ := List.forall_mem_cons.1 h
    cases items with
    | nil => exact hv
    | cons w items => exact hv.append_cons (Token.isPlain nofun nofun) (ih hitems)

theorem lexes_memberTokens {members : List (String × Json)}
    (h : ∀ m ∈ members, Lexes m.2.tokens) : Lexes (memberTokens members) := by
  induction members with
  | nil => exact lexes_nil
  | cons m members ih =>
    obtain ⟨name, v⟩ := m
    obtain ⟨hv, hmembers⟩ := List.forall_mem_cons.1 h
    have hname : (Token.text (some name)).IsPlain := Token.isPlain nofun nofun
    have hcolon : Token.colon.IsPlain := Token.isPlain nofun nofun
    cases members with
    | nil => exact (hv.cons hcolon).cons hname
    | cons m members =>
      have hrest := hv.append_cons (Token.isPlain (t := .comma) nofun nofun) (ih hmembers)
      exact (hrest.cons hcolon).cons hname

/-- The text of a value is read as its tokens. -/
theorem IsReadable.lexes {v : Json} (h : IsReadable v) : Lexes v.tokens := by
  induction h with
  | null => exact lexes_nil.cons (Token.isPlain nofun nofun)
  | bool b => exact lexes_nil.cons (Token.isPlain nofun nofun)
  | number h => exact h.lexes
  | string s => exact lexes_nil.cons (Token.isPlain nofun nofun)
  | array _ ih =>
    have hitems := (lexes_itemTokens ih).append_cons
      (Token.isPlain (t := .closeArray) nofun nofun) lexes_nil
    exact hitems.cons (Token.isPlain nofun nofun)
  | object _ ih =>
    have hmembers := (lexes_memberTokens ih).append_cons
      (Token.isPlain (t := .closeObject) nofun nofun) lexes_nil
    exact hmembers.cons (Token.isPlain nofun nofun)

/-! ## The value of the tokens -/

/-- Tokens that take a reader from where a value may begin to where this one is complete. -/
def Reads (ts : List Token) (v : Json) : Prop :=
  ∀ awaiting, awaiting = .value ∨ awaiting = .item → ∀ frames us,
    (ts ++ us).foldlM Reader.step ⟨frames, awaiting⟩ = us.foldlM Reader.step (Reader.put v frames)

/-- Where the first item of an array may stand, a token does what it does for any value, but
the end of the array. -/
theorem step_begin {awaiting : Awaiting} (h : awaiting = .value ∨ awaiting = .item)
    (frames : List Frame) {t : Token} (ht : t ≠ .closeArray) :
    Reader.step ⟨frames, awaiting⟩ t = Reader.beginValue frames t := by
  obtain rfl | rfl := h
  · rfl
  · unfold Reader.step
    split <;> simp_all

theorem reads_singleton {t : Token} {v : Json} (ht : t ≠ .closeArray)
    (h : ∀ frames, Reader.beginValue frames t = some (Reader.put v frames)) : Reads [t] v := by
  intro awaiting hawaiting frames us
  rw [List.singleton_append, List.foldlM_cons, step_begin hawaiting frames ht, h]
  rfl

/-- The items of an array and its end, after some items. -/
theorem foldlM_itemTokens {items : List Json} (h : ∀ v ∈ items, Reads v.tokens v)
    (hne : items ≠ []) {awaiting : Awaiting} (hawaiting : awaiting = .value ∨ awaiting = .item)
    (done : List Json) (frames : List Frame) (us : List Token) :
    (itemTokens items ++ .closeArray :: us).foldlM Reader.step ⟨.array done :: frames, awaiting⟩ =
      us.foldlM Reader.step (Reader.put (.array (done.reverse ++ items)) frames) := by
  induction items generalizing done awaiting with
  | nil => exact absurd rfl hne
  | cons v items ih =>
    obtain ⟨hv, hitems⟩ := List.forall_mem_cons.1 h
    cases items with
    | nil =>
      rw [itemTokens, hv awaiting hawaiting]
      show us.foldlM Reader.step (Reader.put (.array (v :: done).reverse) frames) = _
      rw [List.reverse_cons]
    | cons w items =>
      rw [itemTokens, List.append_assoc, hv awaiting hawaiting]
      · show (itemTokens (w :: items) ++ .closeArray :: us).foldlM Reader.step
          ⟨.array (v :: done) :: frames, .value⟩ = _
        rw [ih hitems (List.cons_ne_nil _ _) (.inl rfl), List.reverse_cons, List.append_assoc]
        rfl
      · exact List.cons_ne_nil _ _

theorem reads_array {items : List Json} (h : ∀ v ∈ items, Reads v.tokens v) :
    Reads (tokens (.array items)) (.array items) := by
  intro awaiting hawaiting frames us
  have hopen := step_begin hawaiting frames (t := .openArray) nofun
  rw [tokens, List.append_assoc, List.cons_append, List.foldlM_cons, hopen]
  show (itemTokens items ++ .closeArray :: us).foldlM Reader.step ⟨.array [] :: frames, .item⟩ = _
  by_cases hne : items = []
  · subst hne
    rfl
  · exact foldlM_itemTokens h hne (.inr rfl) [] frames us

/-- The members of an object and its end, after some members. -/
theorem foldlM_memberTokens {members : List (String × Json)}
    (h : ∀ m ∈ members, Reads m.2.tokens m.2) (hne : members ≠ []) {awaiting : Awaiting}
    (hawaiting : awaiting = .name ∨ awaiting = .nextName) (done : List (Option String × Json))
    (open? : Option String) (frames : List Frame) (us : List Token) :
    (memberTokens members ++ .closeObject :: us).foldlM Reader.step
        ⟨.object done open? :: frames, awaiting⟩ =
      us.foldlM Reader.step
        (Reader.put (ofMembers (done.reverse ++ members.map fun m => (some m.1, m.2))) frames) := by
  induction members generalizing done open? awaiting with
  | nil => exact absurd rfl hne
  | cons m members ih =>
    obtain ⟨name, v⟩ := m
    obtain ⟨hv, hmembers⟩ := List.forall_mem_cons.1 h
    have hname (ts : List Token) : (Token.text (some name) :: .colon :: ts).foldlM Reader.step
        ⟨.object done open? :: frames, awaiting⟩ =
          ts.foldlM Reader.step ⟨.object done (some name) :: frames, .value⟩ := by
      obtain rfl | rfl := hawaiting <;> rfl
    cases members with
    | nil =>
      rw [memberTokens, List.cons_append, List.cons_append, hname, hv .value (.inl rfl)]
      show us.foldlM Reader.step (Reader.put (ofMembers ((some name, v) :: done).reverse) frames) = _
      rw [List.reverse_cons]
      rfl
    | cons m members =>
      rw [memberTokens, List.append_assoc, List.cons_append, List.cons_append, hname,
        hv .value (.inl rfl)]
      · show (memberTokens (m :: members) ++ .closeObject :: us).foldlM Reader.step
          ⟨.object ((some name, v) :: done) (some name) :: frames, .nextName⟩ = _
        rw [ih hmembers (List.cons_ne_nil _ _) (.inr rfl), List.reverse_cons, List.append_assoc]
        rfl
      · exact List.cons_ne_nil _ _

theorem mapM_map_eq_some {α β : Type} {read : β → Option α} {write : α → β} {l : List α}
    (h : ∀ a ∈ l, read (write a) = some a) : (l.map write).mapM read = some l := by
  induction l with
  | nil => rfl
  | cons a l ih =>
    obtain ⟨ha, hl⟩ := List.forall_mem_cons.1 h
    rw [List.map_cons, List.mapM_cons, ha, ih hl]
    rfl

theorem ofMembers_map (members : List (String × Json)) :
    ofMembers (members.map fun m => (some m.1, m.2)) = .object members := by
  have hmap : (members.map fun m => (some m.1, m.2)).mapM
      (fun (m : Option String × Json) => m.1.map (·, m.2)) = some members :=
    mapM_map_eq_some fun m _ => rfl
  unfold ofMembers
  rw [hmap]

theorem reads_object {members : List (String × Json)} (h : ∀ m ∈ members, Reads m.2.tokens m.2) :
    Reads (tokens (.object members)) (.object members) := by
  intro awaiting hawaiting frames us
  have hopen := step_begin hawaiting frames (t := .openObject) nofun
  rw [tokens, List.append_assoc, List.cons_append, List.foldlM_cons, hopen]
  show (memberTokens members ++ .closeObject :: us).foldlM Reader.step
    ⟨.object [] none :: frames, .name⟩ = _
  by_cases hne : members = []
  · subst hne
    rfl
  · rw [foldlM_memberTokens h hne (.inl rfl), List.reverse_nil, List.nil_append, ofMembers_map]

/-- The tokens of a value are read as the value. -/
theorem IsReadable.reads {v : Json} (h : IsReadable v) : Reads v.tokens v := by
  induction h with
  | null => exact reads_singleton nofun fun _ => rfl
  | bool b => exact reads_singleton nofun fun _ => rfl
  | number _ => exact reads_singleton nofun fun _ => rfl
  | string s => exact reads_singleton nofun fun _ => rfl
  | array _ ih => exact reads_array ih
  | object _ ih => exact reads_object ih

/-- The compact text of a value is read as the value. -/
theorem parse?_write {v : Json} (h : IsReadable v) : parse? v.write = some v := by
  have hlex : lex? (v.tokens.flatMap Token.write) = some v.tokens := by
    have hall := h.lexes [] nofun
    rwa [List.append_nil, lex?_nil, Option.map_some, List.append_nil] at hall
  have hread := h.reads .value (.inl rfl) [] []
  rw [List.append_nil, List.foldlM_nil] at hread
  rw [parse?, write, String.toList_ofList, hlex]
  show (v.tokens.foldlM Reader.step ⟨[], .value⟩).bind Reader.value? = some v
  rw [hread]
  rfl

/-! ## The text of an object -/

theorem flatMap_memberTokens (members : List (String × Json)) :
    (memberTokens members).flatMap Token.write = [','].intercalate
      (members.map fun m => Quoted.quote m.1.toList ++ ':' :: m.2.write.toList) := by
  induction members with
  | nil => rfl
  | cons m members ih =>
    obtain ⟨name, v⟩ := m
    cases members with
    | nil => simp [memberTokens, Token.write, write]
    | cons m members =>
      rw [List.map_cons, List.map_cons, List.intercalate_cons_cons]
      rw [List.map_cons] at ih
      rw [← ih]
      simp [memberTokens, Token.write, write]

/-- The text of an object lists its members in order. -/
theorem toList_write_object (members : List (String × Json)) :
    (write (.object members)).toList = '\x7b' :: [','].intercalate
      (members.map fun m => Quoted.quote m.1.toList ++ ':' :: m.2.write.toList) ++ ['\x7d'] := by
  rw [← flatMap_memberTokens]
  simp [write, tokens, Token.write]

/-! ## Documents of one number -/

/-- A reader inside an array or an object, or one whose value is complete and no number. -/
def Nested (r : Reader) : Prop :=
  (r.frames ≠ [] ∧ ∀ v, r.awaiting ≠ .nothing v) ∨
    ∃ v, r = ⟨[], .nothing v⟩ ∧ ∀ n, v ≠ .number n

theorem nested_put {v : Json} {frames : List Frame} (h : frames ≠ [] ∨ ∀ n, v ≠ .number n) :
    Nested (Reader.put v frames) := by
  cases frames with
  | nil => exact .inr ⟨v, rfl, h.resolve_left (absurd rfl)⟩
  | cons frame frames => cases frame <;> exact .inl ⟨List.cons_ne_nil _ _, nofun⟩

theorem nested_beginValue {frames : List Frame} {t : Token} {r : Reader}
    (h : Reader.beginValue frames t = some r)
    (ht : frames ≠ [] ∨ ∀ n, t ≠ .number n) : Nested r := by
  cases t with
  | number n =>
    cases h
    exact nested_put (.inl (ht.resolve_right fun hn => hn n rfl))
  | text s =>
    cases h
    cases s <;> exact nested_put (.inr nofun)
  | null | bool =>
    cases h
    exact nested_put (.inr nofun)
  | openArray | openObject =>
    cases h
    exact .inl ⟨List.cons_ne_nil _ _, nofun⟩
  | _ => cases h

theorem ofMembers_ne_number (members : List (Option String × Json)) (n : Numeral) :
    ofMembers members ≠ .number n := by
  unfold ofMembers
  split <;> exact nofun

theorem nested_step {r r' : Reader} {t : Token} (hr : Nested r) (h : r.step t = some r') :
    Nested r' := by
  obtain ⟨hframes, -⟩ | ⟨v, rfl, -⟩ := hr
  · unfold Reader.step at h
    split at h
    · exact nested_beginValue h (.inl hframes)
    · cases h
      exact nested_put (.inr nofun)
    · exact nested_beginValue h (.inl hframes)
    · cases h
      exact nested_put (.inr nofun)
    · cases h
      exact .inl ⟨List.cons_ne_nil _ _, nofun⟩
    · cases h
      exact .inl ⟨List.cons_ne_nil _ _, nofun⟩
    · cases h
      exact .inl ⟨hframes, nofun⟩
    · cases h
      exact .inl ⟨List.cons_ne_nil _ _, nofun⟩
    · cases h
      exact nested_put (.inr nofun)
    · cases h
      exact .inl ⟨List.cons_ne_nil _ _, nofun⟩
    · cases h
      exact nested_put (.inr (ofMembers_ne_number _))
    · cases h
  · cases h

theorem nested_foldlM {r r' : Reader} {ts : List Token} (hr : Nested r)
    (h : ts.foldlM Reader.step r = some r') : Nested r' := by
  induction ts generalizing r with
  | nil =>
    obtain rfl := Option.some.inj h
    exact hr
  | cons t ts ih =>
    rw [List.foldlM_cons] at h
    obtain ⟨s, hs, hts⟩ := Option.bind_eq_some_iff.1 h
    exact ih (nested_step hr hs) hts

theorem Nested.value?_ne {r : Reader} (h : Nested r) (n : Numeral) :
    r.value? ≠ some (.number n) := by
  unfold Reader.value?
  obtain ⟨-, hawaiting⟩ | ⟨v, rfl, hv⟩ := h
  · split
    · next v heq => exact absurd heq (hawaiting v)
    · exact nofun
  · exact fun heq => hv n (Option.some.inj heq)

/-- A document that is a number has one token. -/
theorem lex?_of_parse?_number {s : String} {n : Numeral} (h : parse? s = some (.number n)) :
    lex? s.toList = some [.number (some n)] := by
  obtain ⟨ts, hlex, h⟩ := Option.bind_eq_some_iff.1 h
  obtain ⟨r, hread, hvalue⟩ := Option.bind_eq_some_iff.1 h
  cases ts with
  | nil =>
    obtain rfl := Option.some.inj hread
    cases hvalue
  | cons t ts =>
    rw [List.foldlM_cons] at hread
    obtain ⟨first, hfirst, hread⟩ := Option.bind_eq_some_iff.1 hread
    by_cases hnumber : ∃ m, t = .number m
    · obtain ⟨m, rfl⟩ := hnumber
      obtain rfl := Option.some.inj hfirst
      -- the value is complete, so no further token may stand there
      cases ts with
      | nil =>
        obtain rfl := Option.some.inj hread
        cases m with
        | none => cases hvalue
        | some m =>
          obtain rfl := Json.number.inj (Option.some.inj hvalue)
          exact hlex
      | cons t ts => cases hread
    · have hnested := nested_beginValue hfirst (.inr fun m heq => hnumber ⟨m, heq⟩)
      exact absurd hvalue ((nested_foldlM hnested hread).value?_ne n)

end Reckoner.Json
