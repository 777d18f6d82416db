import Reckoner.Proofs.Machine.Footprint
import Reckoner.Proofs.Text.Words

/-!
# The footprint of a run

A program whose instructions are all permitted what they find on the stack has a
footprint (`runWith_footprint`), and so has a fold whose body has one
(`foldWith_footprint`).
-/

namespace Reckoner

open Machine (Permitted Tracks split advance start)
open Program (instruction ofTokens)

variable {reads writes : String → Prop}

/-- Every instruction is permitted what a machine that runs can find on the stack
after the words before it. -/
def Program.Tame (fold : Fold) (reads writes : String → Prop) (tokens : List String) : Prop :=
  ∀ before token after, tokens = before ++ token :: after →
    ∀ stack, Tracks before (stack, .running) →
      Permitted fold reads writes stack (Opcode.ofToken token)

open Program (Tame)

namespace Machine

variable {fold : Fold}

theorem advance_footprint (hside : writes Registers.intermediateName) {stack : List Value}
    {mode : Mode} {token : String}
    (h : mode = .running → Permitted fold reads writes stack (Opcode.ofToken token)) :
    Footprint reads writes fun r => split (advance fold ⟨stack, mode, r⟩ (instruction token)) := by
  cases mode with
  | running => exact perform_footprint hside (h rfl)
  | skipping =>
    simp only [Machine.advance_skipping]
    intro r s _
    split
    · exact ⟨(stack, .running), [], nofun, rfl, rfl⟩
    · exact ⟨(stack, .skipping), [], nofun, rfl, rfl⟩
  | gathering tokens =>
    simp only [Machine.advance_gathering]
    intro r s _
    split
    · exact ⟨(.text (Text.unwords tokens) :: stack, .running), [], nofun, rfl, rfl⟩
    · exact ⟨(stack, .gathering (tokens ++ [token])), [], nofun, rfl, rfl⟩

/-- A machine that has run some words has touched what its instructions were
permitted. -/
theorem foldl_footprint (hside : writes Registers.intermediateName) (stack : List Value)
    {tokens : List String} (h : Tame fold reads writes tokens) :
    Footprint reads writes fun r =>
      split ((ofTokens tokens).foldl (advance fold) (start stack r)) := by
  induction tokens using List.reverseRecOn with
  | nil => exact fun r s _ => ⟨(stack, .running), [], nofun, rfl, rfl⟩
  | append_singleton tokens token ih =>
    have hfoot := ih fun before t after heq =>
      h before t (after ++ [token]) (by rw [heq, List.append_assoc]; rfl)
    simp only [foldl_append_singleton]
    refine hfoot.bind (g := fun c r => split (advance fold ⟨c.1, c.2, r⟩ (instruction token)))
      fun r => advance_footprint hside fun hmode => ?_
    exact h tokens token [] rfl _ (hmode ▸ tracks_foldl stack r tokens)

end Machine

/-- The result of a machine does not depend on its registers. -/
theorem Machine.result_congr (m : Machine) :
    m.result = Machine.result ⟨m.stack, m.mode, Registers.new⟩ := by
  obtain ⟨_ | ⟨v, stack⟩, mode, r⟩ := m
  · rfl
  · rfl

theorem runWith_footprint {fold : Fold} (hside : writes Registers.intermediateName)
    (hlast : writes Registers.lastName) {tokens : List String} (h : Tame fold reads writes tokens)
    (stack : List Value) : Footprint reads writes (runWith fold (ofTokens tokens) stack) := by
  let x (c : List Value × Mode) : Float := Machine.result ⟨c.1, c.2, Registers.new⟩
  have heq : runWith fold (ofTokens tokens) stack = fun r =>
      let m := (ofTokens tokens).foldl (advance fold) (start stack r)
      (x (split m).1, (split m).2.setLast (x (split m).1)) := by
    funext r
    simp only [runWith, Machine.result_congr]
    rfl
  rw [heq]
  refine (Machine.foldl_footprint hside stack h).bind (g := fun c r => (x c, r.setLast (x c)))
    fun r s t _ => ?_
  exact ⟨_, [(Registers.lastName, _)], by simpa using hlast, rfl, rfl⟩

/-! ## Folds -/

theorem Template.steps_footprint {run : Runner} {t : Template}
    (hbody : ∀ stack, Footprint reads writes (run t.body stack)) (count : Nat) (index : Int)
    (x : Float) (hreads : ∀ k < count, reads (t.range.register (index + k))) :
    Footprint reads writes (t.steps run count index x) := by
  induction count generalizing index x with
  | zero => exact fun r s _ => ⟨x, [], nofun, rfl, rfl⟩
  | succ count ih =>
    have hfirst : Footprint reads writes fun r =>
        run t.body [Value.ofOption (r.get? (t.range.register index)), .number x] r := by
      intro r s hrs
      have hindex := hrs _ (by simpa using hreads 0 count.succ_pos)
      obtain ⟨a, l, hl, hr, hs⟩ :=
        hbody [Value.ofOption (r.get? (t.range.register index)), .number x] r s hrs
      refine ⟨a, l, hl, hr, ?_⟩
      show run t.body [Value.ofOption (s.get? (t.range.register index)), .number x] s = _
      rw [← hindex, hs]
    refine hfirst.bind fun r => ih (index + 1) _ fun k hk => ?_
    have hnext := hreads (k + 1) (Nat.succ_lt_succ hk)
    rwa [show index + (k + 1 : Nat) = index + 1 + k by omega] at hnext

/-- The template that a text is: its first three words name the registers, and those from the
fifth on are the body. -/
theorem Template.of_parse? {s : String} {t : Template} (h : Template.parse? s = some t) :
    RegisterRange.ofFields? (Text.words s) = some t.range ∧ t.range.size ≤ maxSteps ∧
      t.body = ofTokens ((Text.words s).drop 4) := by
  unfold Template.parse? at h
  split at h
  · next hwords =>
    split at h
    · next hrange =>
      split at h
      · next hsize =>
        obtain rfl := Option.some.inj h
        rw [hwords]
        exact ⟨hrange, hsize, rfl⟩
      · cases h
    · cases h
  · cases h

/-- The template that words on one line are. -/
theorem Template.parse?_unwords {words : List String}
    (hwords : ∀ w ∈ words, Text.IsWord w.toList) {t : Template}
    (h : Template.parse? (Text.unwords words) = some t) :
    RegisterRange.ofFields? words = some t.range ∧ t.body = ofTokens (words.drop 4) := by
  obtain ⟨hrange, -, hbody⟩ := Template.of_parse? h
  rw [Text.words_unwords hwords] at hrange hbody
  exact ⟨hrange, hbody⟩

/-- A fold reads the registers that its template names, besides what its body
reads. -/
theorem foldWith_footprint {run : Runner} {words : List String}
    (hwords : ∀ w ∈ words, Text.IsWord w.toList)
    (hbody : ∀ stack, Footprint reads writes (run (ofTokens (words.drop 4)) stack))
    (hreads : ∀ range, RegisterRange.ofFields? words = some range →
      ∀ name ∈ range.registers, reads name) :
    Footprint reads writes (foldWith run (.text (Text.unwords words))) := by
  cases hparse : Template.parse? (Text.unwords words) with
  | none =>
    intro r s _
    exact ⟨.undefined, [], nofun, by simp only [foldWith, hparse]; rfl,
      by simp only [foldWith, hparse]; rfl⟩
  | some t =>
    obtain ⟨hrange, htokens⟩ := Template.parse?_unwords hwords hparse
    have hfold : Footprint reads writes (t.fold run) :=
      Template.steps_footprint (fun stack => htokens ▸ hbody stack) t.range.size t.range.first _
        fun k hk => hreads t.range hrange _ (List.mem_map.2 ⟨k, List.mem_range.2 hk, rfl⟩)
    have heq : foldWith run (.text (Text.unwords words)) =
        fun r => (.number (t.fold run r).1, (t.fold run r).2) := by
      funext r
      simp only [foldWith, hparse]
    rw [heq]
    exact hfold.bind (g := fun x r => (Value.number x, r)) fun _ _ _ _ => ⟨_, [], nofun, rfl, rfl⟩

end Reckoner
