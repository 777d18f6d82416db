import Mathlib.Data.List.Basic
import Reckoner.Proofs.Program.Tidy

/-!
# Words in place of words

An expansion (`Program.Expansion`) writes words in the place of others, both of
which do no more than put something on the stack. It leaves a tidy program tidy
(`Program.Tidy.flatMap`) if it keeps the words that name registers, and it makes
the program use no further registers (`Program.Reads.of_flatMap`,
`Program.Writes.of_flatMap`).
-/

namespace Reckoner

namespace Program

/-- Whether an opcode is a number or a word to be put on the stack. -/
def isPlainOpcode : Opcode → Bool
  | .number _ | .name _ | .unknown _ => true
  | _ => false

/-- Whether a word only puts something on the stack. -/
def isPlain (token : String) : Bool := isPlainOpcode (Opcode.ofToken token)

/-- Plain words in place of plain words, but literals in place of themselves. -/
structure Expansion (literal : String → Prop) (f : String → List String) : Prop where
  literal : ∀ token, literal token → f token = [token]
  plain : ∀ token, f token = [token] ∨
    f token ≠ [] ∧ isPlain token = true ∧ ∀ w ∈ f token, isPlain w = true

variable {literal : String → Prop} {f : String → List String} {tokens before after : List String}
  {token : String}

theorem isBar_of_isPlain (h : isPlain token = true) : isBar token = false := by
  rw [isBar_eq_false_iff]
  intro hbar
  rw [isPlain, hbar] at h
  cases h

theorem Expansion.ne_nil (hf : Expansion literal f) (token : String) : f token ≠ [] := by
  rcases hf.plain token with h | ⟨h, -⟩
  · rw [h]
    exact List.cons_ne_nil _ _
  · exact h

theorem Expansion.length_le (hf : Expansion literal f) (ws : List String) :
    ws.length ≤ (ws.flatMap f).length := by
  induction ws with
  | nil => exact Nat.le_refl _
  | cons w ws ih =>
    have hpos := List.length_pos_iff.2 (hf.ne_nil w)
    rw [List.flatMap_cons, List.length_append, List.length_cons]
    omega

/-- A word that is not plain comes from itself. -/
theorem Expansion.eq_of_mem (hf : Expansion literal f) {w : String} (h : w ∈ f token)
    (hw : isPlain w = false) : w = token ∧ f token = [token] := by
  rcases hf.plain token with heq | ⟨-, -, hplain⟩
  · rw [heq] at h
    exact ⟨List.mem_singleton.1 h, heq⟩
  · rw [hplain w h] at hw
    cases hw

theorem Expansion.eq_of_isBar (hf : Expansion literal f) (h : isBar token = true) :
    f token = [token] := by
  rcases hf.plain token with heq | ⟨-, hplain, -⟩
  · exact heq
  · rw [isBar_of_isPlain hplain] at h
    cases h

theorem Expansion.flatMap_literal (hf : Expansion literal f) {xs : List String}
    (h : ∀ x ∈ xs, literal x) : xs.flatMap f = xs := by
  rw [List.flatMap_congr fun x hx => hf.literal x (h x hx), List.flatMap_singleton']

/-- One expansion after another. -/
theorem Expansion.comp {g : String → List String} (hf : Expansion literal f)
    (hg : Expansion literal g) : Expansion literal fun token => (f token).flatMap g where
  literal token h := by rw [hf.literal token h, List.flatMap_singleton, hg.literal token h]
  plain token := by
    rcases hf.plain token with h | ⟨hne, htoken, hplain⟩
    · rw [h, List.flatMap_singleton]
      exact hg.plain token
    · refine .inr ⟨fun hnil => ?_, htoken, fun w hw => ?_⟩
      · obtain ⟨v, vs, hv⟩ := List.exists_cons_of_ne_nil hne
        rw [hv, List.flatMap_cons] at hnil
        exact hg.ne_nil v (List.append_eq_nil_iff.1 hnil).1
      · obtain ⟨v, hv, hw⟩ := List.mem_flatMap.1 hw
        cases hplainw : isPlain w with
        | true => rfl
        | false =>
          obtain ⟨rfl, -⟩ := hg.eq_of_mem hw hplainw
          rw [hplain w hv] at hplainw
          cases hplainw

/-! ## Bars -/

/-- A word is replaced by itself or by words that are no bars. -/
theorem Expansion.countP_isBar (hf : Expansion literal f) (token : String) :
    (f token).countP isBar = [token].countP isBar := by
  rcases hf.plain token with h | ⟨-, htoken, hplain⟩
  · rw [h]
  · rw [List.countP_eq_zero.2 fun w hw => by simp [isBar_of_isPlain (hplain w hw)]]
    simp [isBar_of_isPlain htoken]

theorem Expansion.bars_flatMap (hf : Expansion literal f) (before : List String) :
    bars (before.flatMap f) = bars before := by
  induction before with
  | nil => rfl
  | cons token before ih =>
    rw [List.flatMap_cons, bars, List.countP_append, hf.countP_isBar]
    exact (congrArg _ ih).trans List.countP_append.symm

theorem Expansion.sinceBar_flatMap (hf : Expansion literal f) (before : List String) :
    sinceBar (before.flatMap f) = (sinceBar before).flatMap f := by
  induction before using List.reverseRecOn with
  | nil => rfl
  | append_singleton before token ih =>
    rw [List.flatMap_append, List.flatMap_singleton]
    cases hbar : isBar token with
    | true =>
      rw [hf.eq_of_isBar hbar, sinceBar_append_bar _ hbar, sinceBar_append_bar _ hbar]
      rfl
    | false =>
      have hwords : ∀ w ∈ f token, isBar w = false := by
        intro w hw
        cases hplain : isPlain w with
        | true => exact isBar_of_isPlain hplain
        | false => rwa [(hf.eq_of_mem hw hplain).1]
      rw [sinceBar_append _ hwords, sinceBar_append_word _ hbar, ih, List.flatMap_append,
        List.flatMap_singleton]

/-! ## Tidy programs -/

/-- A word among those that others are replaced by is one of those in the place of a word,
which has the words before and after it replaced around it. -/
theorem exists_of_flatMap_eq {f : String → List String} {before' after' : List String}
    (h : tokens.flatMap f = before' ++ token :: after') :
    ∃ before w after left right, tokens = before ++ w :: after ∧ f w = left ++ token :: right ∧
      before' = before.flatMap f ++ left ∧ after' = right ++ after.flatMap f := by
  induction tokens generalizing before' with
  | nil => simp at h
  | cons first tokens ih =>
    rw [List.flatMap_cons, List.append_eq_append_iff] at h
    rcases h with ⟨between, rfl, hrest⟩ | ⟨between, hfirst, hrest⟩
    · obtain ⟨before, w, after, left, right, rfl, hw, rfl, hafter⟩ := ih hrest
      exact ⟨first :: before, w, after, left, right, rfl, hw, by simp, hafter⟩
    · cases between with
      | nil =>
        obtain ⟨before, w, after, left, right, rfl, hw, hnil, hafter⟩ := @ih [] hrest.symm
        refine ⟨first :: before, w, after, left, right, rfl, hw, ?_, hafter⟩
        rw [List.flatMap_cons, List.append_assoc, ← hnil, hfirst, List.append_nil, List.append_nil]
      | cons v between =>
        obtain ⟨rfl, hafter⟩ := List.cons.inj hrest
        exact ⟨[], first, tokens, before', between, rfl, hfirst, rfl, hafter⟩

/-- A word that is not plain has the words before and after it replaced around it. -/
theorem Expansion.exists_of_flatMap_eq (hf : Expansion literal f) {before' after' : List String}
    (h : tokens.flatMap f = before' ++ token :: after') (htoken : isPlain token = false) :
    ∃ before after, tokens = before ++ token :: after ∧ before' = before.flatMap f ∧
      after' = after.flatMap f := by
  obtain ⟨before, w, after, left, right, rfl, hw, rfl, rfl⟩ := Program.exists_of_flatMap_eq h
  obtain ⟨rfl, hself⟩ := hf.eq_of_mem (by rw [hw]; simp) htoken
  rw [hself] at hw
  obtain ⟨rfl, rfl⟩ : left = [] ∧ right = [] := by
    simpa [List.append_eq_singleton_iff] using hw.symm
  exact ⟨before, after, rfl, List.append_nil _, List.nil_append _⟩

theorem Expansion.hasOperands_scope (hf : Expansion literal f) {n : Nat}
    (h : HasOperands literal n (scope before after)) :
    HasOperands (fun _ => True) n (scope (before.flatMap f) (after.flatMap f)) := by
  obtain ⟨left, xs, hscope, hn, hxs⟩ := h.exists_append
  have hself := hf.flatMap_literal fun x hx => (hxs x hx).2
  have hoperands : ∀ x ∈ xs, (operand? x).isSome ∧ True := fun x hx => ⟨(hxs x hx).1, trivial⟩
  unfold scope at hscope ⊢
  rw [hf.bars_flatMap, hf.bars_flatMap, hf.sinceBar_flatMap]
  split at hscope
  · next htemplate =>
    rw [if_pos htemplate]
    rcases Nat.lt_or_ge (sinceBar before).length 4 with hlt | hge
    · rw [List.drop_eq_nil_of_le (by omega)] at hscope
      obtain ⟨rfl, rfl⟩ := List.append_eq_nil_iff.1 hscope.symm
      obtain rfl : n = 0 := hn.symm
      exact hasOperands_zero _
    · rw [← List.take_append_drop 4 (sinceBar before), hscope, List.flatMap_append,
        List.flatMap_append, hself]
      have hlength : 4 ≤ (((sinceBar before).take 4).flatMap f).length :=
        (List.length_take_of_le hge).symm.trans_le (hf.length_le _)
      rw [List.drop_append_of_le_length hlength, ← List.append_assoc]
      exact hasOperands_append _ hn hoperands
  · next htemplate =>
    rw [if_neg htemplate, hscope, List.flatMap_append, hself]
    exact hasOperands_append _ hn hoperands

theorem ofFields?_flatMap (hf : Expansion literal f) {ws : List String}
    (h : ∀ w ∈ ws.take 3, literal w) :
    RegisterRange.ofFields? (ws.flatMap f) = RegisterRange.ofFields? ws := by
  rw [← List.take_append_drop 3 ws, List.flatMap_append, hf.flatMap_literal h]
  rcases ws with _ | ⟨base, _ | ⟨first, _ | ⟨last, rest⟩⟩⟩
  · rfl
  · rfl
  · rfl
  · rfl

theorem Expansion.template_flatMap (hf : Expansion literal f) (h : HasTemplate literal before) :
    RegisterRange.ofFields? (template (before.flatMap f)) =
      RegisterRange.ofFields? (template before) := by
  obtain ⟨left, bar, rfl, hbar⟩ := h.exists_append
  obtain ⟨-, -, hliteral, -⟩ := h
  have hself : f bar = [bar] := hf.eq_of_isBar hbar
  rw [template, List.dropLast_concat] at hliteral
  rw [template, template, List.flatMap_append, List.flatMap_singleton, hself, List.dropLast_concat,
    List.dropLast_concat, hf.sinceBar_flatMap, ofFields?_flatMap hf hliteral]

theorem Expansion.hasTemplate (hf : Expansion literal f) (h : HasTemplate literal before) :
    HasTemplate (fun _ => True) (before.flatMap f) := by
  obtain ⟨left, bar, rfl, hbar⟩ := h.exists_append
  refine ⟨?_, (hf.bars_flatMap _).symm ▸ h.2.1, fun _ _ => trivial, fun range hrange => ?_⟩
  · rw [List.flatMap_append, List.flatMap_singleton, hf.eq_of_isBar hbar, List.getLast?_concat]
    exact hbar
  · rw [hf.template_flatMap h] at hrange
    exact h.2.2.2 range hrange

theorem placed_of_isPlain (h : isPlain token = true) (before after : List String) :
    Placed literal before token after := by
  rw [Placed]
  cases hop : Opcode.ofToken token with
  | number | name | unknown => exact ⟨nofun, hasOperands_zero _, nofun⟩
  | _ => rw [isPlain, hop] at h; cases h

/-- An expansion leaves a tidy program tidy. -/
theorem Tidy.flatMap (h : Tidy literal tokens) (hf : Expansion literal f) :
    Tidy (fun _ => True) (tokens.flatMap f) := by
  refine tidy_iff.2 fun before' token after' heq => ?_
  cases hplain : isPlain token with
  | true => exact placed_of_isPlain hplain before' after'
  | false =>
    obtain ⟨before, after, rfl, rfl, rfl⟩ := hf.exists_of_flatMap_eq heq hplain
    obtain ⟨hreset, hoperands, htemplate⟩ := h.placed rfl
    exact ⟨hreset, hf.hasOperands_scope hoperands, fun hop => hf.hasTemplate (htemplate hop)⟩

/-! ## What a program uses -/

/-- The operands of an opcode stay. -/
theorem Expansion.operandsBefore_flatMap (hf : Expansion literal f) {n : Nat}
    (h : HasOperands literal n before) :
    (operandsBefore (before.flatMap f)).take n = (operandsBefore before).take n := by
  obtain ⟨left, xs, rfl, hn, hxs⟩ := h.exists_append
  have hoperands := fun x hx => (hxs x hx).1
  have hlength : n = (xs.filterMap operand?).reverse.length := by
    rw [List.length_reverse, length_filterMap_operand? hoperands, hn]
  rw [List.flatMap_append, hf.flatMap_literal fun x hx => (hxs x hx).2,
    operandsBefore_append _ hoperands, operandsBefore_append _ hoperands,
    List.take_left' hlength.symm, List.take_left' hlength.symm]

theorem getElem?_of_take_eq {l l' : List Value} {n k : Nat} (h : l.take n = l'.take n)
    (hk : k < n) : l[k]? = l'[k]? := by
  rw [← List.getElem?_take_of_lt hk, h, List.getElem?_take_of_lt hk]

/-- What an opcode loads and writes is named by its operands. -/
theorem loadedAt_congr {before' : List String} {op : Opcode}
    (h : (operandsBefore before).take (operandCount op) =
      (operandsBefore before').take (operandCount op)) :
    loadedAt before op = loadedAt before' op := by
  cases op with
  | load => exact congrArg (Option.map Value.toName) (getElem?_of_take_eq h (by decide))
  | copyRegister => exact congrArg (Option.map Value.toName) (getElem?_of_take_eq h (by decide))
  | _ => rfl

theorem storedAt_congr {before' : List String} {op : Opcode}
    (h : (operandsBefore before).take (operandCount op) =
      (operandsBefore before').take (operandCount op)) :
    storedAt before op = storedAt before' op := by
  cases op with
  | store | copyRegister =>
    exact congrArg (Option.map Value.toName) (getElem?_of_take_eq h (by decide))
  | _ => rfl

theorem foldedAt_congr {before' : List String} {op : Opcode}
    (h : op = .eachRegister → RegisterRange.ofFields? (template before) =
      RegisterRange.ofFields? (template before')) : foldedAt before op = foldedAt before' op := by
  cases op with
  | eachRegister => rw [foldedAt, foldedAt, h rfl]
  | _ => rfl

/-- A plain opcode uses no register. -/
theorem not_isPlainOpcode {op : Opcode} {name : String}
    (h : loadedAt before op = some name ∨ name ∈ foldedAt before op ∨
      storedAt before op = some name) : isPlainOpcode op = false := by
  cases op with
  | number | name | unknown => simp [loadedAt, foldedAt, storedAt] at h
  | _ => rfl

/-- A tidy program reads no further registers with an expansion. -/
theorem Reads.of_flatMap (h : Tidy literal tokens) (hf : Expansion literal f) {name : String}
    (hname : Reads (tokens.flatMap f) name) : Reads tokens name := by
  obtain ⟨before', token, after', heq, hat⟩ := hname
  obtain ⟨before, after, rfl, rfl, rfl⟩ :=
    hf.exists_of_flatMap_eq heq (not_isPlainOpcode (hat.imp_right .inl))
  have hplaced := h.placed rfl
  rw [loadedAt_congr (hf.operandsBefore_flatMap hplaced.hasOperands_before),
    foldedAt_congr fun hop => hf.template_flatMap (hplaced.2.2 hop)] at hat
  exact ⟨before, token, after, rfl, hat⟩

/-- A tidy program writes no further registers with an expansion. -/
theorem Writes.of_flatMap (h : Tidy literal tokens) (hf : Expansion literal f) {name : String}
    (hname : Writes (tokens.flatMap f) name) : Writes tokens name := by
  obtain ⟨before', token, after', heq, hat⟩ := hname
  obtain ⟨before, after, rfl, rfl, rfl⟩ :=
    hf.exists_of_flatMap_eq heq (not_isPlainOpcode (.inr (.inr hat)))
  have hplaced := h.placed rfl
  rw [storedAt_congr (hf.operandsBefore_flatMap hplaced.hasOperands_before)] at hat
  exact ⟨before, token, after, rfl, hat⟩

end Program

end Reckoner
