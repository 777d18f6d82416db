import Reckoner.Proofs.Machine.Calls

/-!
# Templates are parts of programs

Words that are written on one line read back as the program that they were
(`Program.parse_unwords`), so a part of a program can be kept as a text.

This is how the machine keeps templates. A template that a fold finds was gathered by the call
that it is in, or it lay on the stack when the evaluation began (`Call.Executes.gathered`). The
program of a call stands in the expression, or in a text that lay there (`Call.Reaches.source`). So
what a fold runs are instructions of the expression, one by one, as they stand between two of its
bars (`Program.parse_part`).
-/

namespace Reckoner

open Program (instruction ofTokens)

/-- Words on one line are the program that they were. -/
theorem Program.parse_unwords {ws : List String} (h : ∀ w ∈ ws, Text.IsWord w.toList) :
    parse (Text.unwords ws) = ofTokens ws := by
  rw [parse, Text.words_unwords h]

theorem Template.body_eq_drop {s : String} {t : Template} (h : parse? s = some t) :
    t.body = (Program.parse s).drop 4 := by
  obtain ⟨-, -, hbody⟩ := of_parse? h
  rw [hbody, Program.parse, ofTokens, ofTokens, List.map_drop]

/-- The words of a template from the fifth on, on a line of their own, are its body. -/
theorem Template.parse_body {s : String} {t : Template} (h : parse? s = some t) :
    Program.parse (Text.unwords ((Text.words s).drop 4)) = t.body := by
  obtain ⟨-, -, hbody⟩ := of_parse? h
  rw [hbody, Program.parse_unwords fun w hw => Text.isWord_of_mem_words (List.mem_of_mem_drop hw)]

/-- Two bars of a program enclose a part of it that holds no bar. -/
def Program.Encloses (p part : Program) : Prop :=
  ∃ left opening closing right, p = left ++ opening :: (part ++ closing :: right) ∧
    opening.op = .capture ∧ closing.op = .capture ∧ ∀ i ∈ part, i.op ≠ .capture

/-- What a part of a program encloses, the program encloses. -/
theorem Program.Encloses.of_infix {p q part : Program} (h : Encloses q part) (hq : q <:+: p) :
    Encloses p part := by
  obtain ⟨left, opening, closing, right, rfl, hbars⟩ := h
  obtain ⟨before, after, rfl⟩ := hq
  exact ⟨before ++ left, opening, closing, right ++ after, by simp, hbars⟩

namespace Call

variable {c : Call} {before part : List String} {token s expression : String} {t : Template}
  {stack : List Value} {r : Registers} {depth : Nat}

theorem Gathers.isInfix (h : c.Gathers depth before part) : part <:+: before := by
  obtain ⟨left, opening, closing, right, rfl, -⟩ := h
  exact ⟨left ++ [opening], closing :: right, by simp⟩

/-- The program of some words encloses the program of those that are gathered. -/
theorem Gathers.encloses (h : c.Gathers depth before part) :
    (ofTokens before).Encloses (ofTokens part) := by
  obtain ⟨left, opening, closing, right, rfl, -, hopening, hclosing, hpart⟩ := h
  refine ⟨ofTokens left, instruction opening, instruction closing, ofTokens right, ?_,
    Program.isBar_iff.1 hopening, Program.isBar_iff.1 hclosing, fun i hi => ?_⟩
  · simp only [ofTokens, List.map_append, List.map_cons]
  · obtain ⟨w, hw, rfl⟩ := List.mem_map.1 hi
    exact Program.isBar_eq_false_iff.1 (hpart w hw)

/-- A template on top of the stack was there from the start, or the call has gathered its words. -/
theorem Executes.gathered (h : c.Executes depth before token)
    (hwords : ∀ w ∈ c.tokens, Text.IsWord w.toList)
    (hpop : (c.after depth before).pop.1 = .text s) (ht : Template.parse? s = some t) :
    .text s ∈ c.stack ∨
      c.Gathers depth before (Text.words s) ∧ s = Text.unwords (Text.words s) := by
  have hbefore : ∀ w ∈ before, Text.IsWord w.toList := fun w hw =>
    hwords w (h.1.subset (List.mem_append_left _ hw))
  rcases template_after hbefore (mem_stack_of_pop hpop) ht with hmem | ⟨part, hpart, rfl⟩
  · exact .inl hmem
  · rw [Text.words_unwords fun w hw => hbefore w (hpart.isInfix.subset hw)]
    exact .inr ⟨hpart, rfl⟩

/-- The words of a call stand together in the expression or in a text that lies on the stack when
the evaluation begins, and no other text lies on the stack when the call begins. -/
theorem Reaches.source (h : Reaches ⟨Text.words expression, stack, r⟩ depth c) :
    (∀ s, .text s ∈ c.stack → .text s ∈ stack) ∧
      ∃ source, (source = expression ∨ .text source ∈ stack) ∧ c.tokens <:+: Text.words source := by
  induction h with
  | top => exact ⟨fun _ hs => hs, expression, .inl rfl, List.infix_refl _⟩
  | @body depth c before token s t place h hexec hop hpop ht hplace ih =>
    obtain ⟨hstack, source, hsource, htokens⟩ := ih
    refine ⟨fun s hs => absurd hs (text_notMem_body _ t place _ s), ?_⟩
    · have hbody : (Call.body (runNested depth) t place
          (c.after (depth + 1) before).registers).tokens = (Text.words s).drop 4 :=
        Template.map_token_body ht
      have hwords : ∀ w ∈ c.tokens, Text.IsWord w.toList := fun w hw =>
        Text.isWord_of_mem_words (htokens.subset hw)
      rw [hbody]
      rcases hexec.gathered hwords hpop ht with hmem | ⟨hgathers, -⟩
      · exact ⟨s, .inr (hstack s hmem), (List.drop_suffix 4 _).isInfix⟩
      · have hbefore : before <:+: c.tokens :=
          ((List.prefix_append _ _).trans hexec.1).isInfix
        exact ⟨source, hsource, (List.drop_suffix 4 _).isInfix.trans
          (hgathers.isInfix.trans (hbefore.trans htokens))⟩

end Call

/-- Any words of an expression, in their order, are the same words and the same opcodes when they
are written on one line and read again.

So what a fold runs are the instructions of a part of the expression, from its fifth on: the part
stands between two bars, and the machine was running when it came to the first. Only a text that
lies on the stack when the evaluation begins can be a template that has not been gathered, or can
have further templates in it. -/
theorem Program.parse_part (expression : String) :
    (∀ ws : List String, ws.Sublist (Text.words expression) →
      Text.words (Text.unwords ws) = ws ∧ parse (Text.unwords ws) = ofTokens ws) ∧
    (∀ part : Program, part.Sublist (parse expression) →
      parse (Text.unwords (part.map Instruction.token)) = part) ∧
    ∀ (stack : List Value) (r : Registers) (depth : Nat) (c : Call) (before : List String)
      (token s : String) (t : Template),
      Call.Reaches ⟨Text.words expression, stack, r⟩ depth c → c.Executes depth before token →
      Opcode.ofToken token = .eachRegister → (c.after depth before).pop.1 = .text s →
      Template.parse? s = some t →
        t.body = parse (Text.unwords ((Text.words s).drop 4)) ∧ t.body = (parse s).drop 4 ∧
          (.text s ∈ stack ∨
            c.Gathers depth before (Text.words s) ∧ s = Text.unwords (Text.words s) ∧
              ∃ source, (source = expression ∨ .text source ∈ stack) ∧
                (parse source).Encloses (parse s)) := by
  have hwords : ∀ ws : List String, ws.Sublist (Text.words expression) →
      ∀ w ∈ ws, Text.IsWord w.toList := fun ws hws w hw =>
    Text.isWord_of_mem_words (hws.subset hw)
  refine ⟨fun ws hws => ?_, fun part hpart => ?_, ?_⟩
  · exact ⟨Text.words_unwords (hwords ws hws), parse_unwords (hwords ws hws)⟩
  · obtain ⟨ws, hws, rfl⟩ := List.sublist_map_iff.1 hpart
    have htokens : (ws.map instruction).map Instruction.token = ws := map_token_ofTokens ws
    rw [htokens]
    exact parse_unwords (hwords ws hws)
  · intro stack r depth c before token s t hreaches hexec _ hpop ht
    obtain ⟨hstack, source, hsource, htokens⟩ := hreaches.source
    refine ⟨(Template.parse_body ht).symm, Template.body_eq_drop ht, ?_⟩
    rcases hexec.gathered (fun w hw => Text.isWord_of_mem_words (htokens.subset hw)) hpop ht with
      hmem | ⟨hgathers, hs⟩
    · exact .inl (hstack s hmem)
    · have hbefore : before <:+: Text.words source :=
        ((List.prefix_append _ _).trans hexec.1).isInfix.trans htokens
      exact .inr ⟨hgathers, hs, source, hsource, hgathers.encloses.of_infix (hbefore.map _)⟩

/-- An expression that folds what lies on the stack when it begins. -/
def foldSeed : String := "0\u2003pop\teachreg"

/-- A template with another one between bars in its body, where it is folded. -/
def seed : String := "~A 1 1 0 | B 1 2 0 + | eachreg"

/-- The words of this body before its last one. -/
def seedLeft : List String := ["|", "B", "1", "2", "0", "+", "|"]

/-- The inner fold runs what the bars of the seed enclose. -/
theorem Program.parse_part_seed :
    (["0", "eachreg"].Sublist (Text.words foldSeed) ∧
      Text.words (Text.unwords ["0", "eachreg"]) = ["0", "eachreg"]) ∧
    ∃ c t, Call.Reaches ⟨Text.words foldSeed, [.text seed], Registers.new⟩ 1 c ∧
      c.Executes 1 seedLeft "eachreg" ∧ Opcode.ofToken "eachreg" = .eachRegister ∧
      (c.after 1 seedLeft).pop.1 = .text "B 1 2 0 +" ∧ Template.parse? "B 1 2 0 +" = some t ∧
      t.body = (parse "B 1 2 0 +").drop 4 ∧
      ∃ source, (source = foldSeed ∨ .text source ∈ [Value.text seed]) ∧
        (parse source).Encloses (parse "B 1 2 0 +") := by
  obtain ⟨hsublist, -, hfolds⟩ := parse_part foldSeed
  have hwords : ["0", "eachreg"].Sublist (Text.words foldSeed) := by decide +kernel
  obtain ⟨outer, houter, hranges⟩ : ∃ t, Template.parse? seed = some t ∧
      (t.range, t.initial, t.body) = (⟨"A", 1, 1⟩, 0, ofTokens (seedLeft ++ ["eachreg"])) :=
    Option.map_eq_some_iff.1 (by decide +kernel)
  obtain ⟨inner, hinner⟩ := Option.isSome_iff_exists.1
    (show (Template.parse? "B 1 2 0 +").isSome = true by decide +kernel)
  obtain ⟨range, initial, body⟩ := outer
  cases hranges
  let top : Call := ⟨Text.words foldSeed, [.text seed], Registers.new⟩
  let c : Call := Call.body (runNested 1) ⟨⟨"A", 1, 1⟩, 0, ofTokens (seedLeft ++ ["eachreg"])⟩ 0
    (top.after 2 ["0", "pop"]).registers
  have hreaches : Call.Reaches top 1 c := .body (.top : Call.Reaches top 2 top)
    (by decide +kernel : top.Executes 2 ["0", "pop"] "eachreg") (by decide +kernel)
    (by decide +kernel) houter (by decide)
  have hexec : c.Executes 1 seedLeft "eachreg" := by decide +kernel
  have hpop : (c.after 1 seedLeft).pop.1 = .text "B 1 2 0 +" := by decide +kernel
  have hop : Opcode.ofToken "eachreg" = .eachRegister := by decide +kernel
  obtain ⟨-, hbody, hpart⟩ := hfolds _ _ _ _ _ _ _ _ hreaches hexec hop hpop hinner
  obtain ⟨-, -, hsource⟩ := hpart.resolve_left (by decide)
  exact ⟨⟨hwords, (hsublist _ hwords).1⟩, c, inner, hreaches, hexec, hop, hpop, hinner, hbody,
    hsource⟩

end Reckoner
