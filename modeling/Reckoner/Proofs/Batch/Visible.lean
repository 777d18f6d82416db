import Reckoner.Proofs.Batch.Text
import Reckoner.Proofs.Batch.Turn
import Reckoner.Proofs.Machine.Result
import Reckoner.Proofs.Number.Lossless
import Reckoner.Proofs.Reference.Named

/-!
# Committed values are seen

A node that refers to the value of another one as a word of its own runs an expression
with the text of this value in the place of the word
(`Batch.executed_iff_committed`).

A dot in a name divides a reference into the name of a scope and one in it. A value that
is committed under such a name is not what the reference asks for
(`Batch.executed_dotted`).
-/

namespace Reckoner

open Text (Ended Parted)
open Reference (IsReference isReference_dollar)

namespace Batch

variable {scope : Scope} {nodes : List Node} {r : Registers} {o output : BatchOutput}

/-- What takes the place of a reference to a committed value is the text of the value. -/
theorem filled_reference {name : String} (hname : IsReference ("$" ++ name).toList)
    (hdot : '.' ∉ name.toList) {x : Float} (hx : output.get? name = some x)
    (hnumber : x.isNaN = false) : filled scope output ("$" ++ name) = Number.format x := by
  have hnamed : (scope.inner.overlay output.get?).named name = [RawValue.ofFloat x] := by
    simp only [ValueSource.overlay, hx]
  have hinner : substitute ("$" ++ name) (scope.inner.overlay output.get?) = Number.format x := by
    rw [Reference.substitute_named hname hdot (by rw [hnamed]; exact List.cons_ne_nil _ _), hnamed,
      List.map_singleton, RawValue.toFloat_ofFloat, Number.format_readOrZero_format hnumber,
      Text.unwords, String.intercalate_singleton]
  simp only [filled, text]
  cases scope.outer with
  | none => exact hinner
  | some source =>
    simp only
    rw [hinner, substitute_eq_self (Reference.isNumeral_format x).isWord.2]

theorem mem_referenceNames_between {name u v : String} (hname : IsReference ("$" ++ name).toList)
    (hu : Parted u.toList) (hv : Ended v.toList) :
    name ∈ referenceNames (u ++ ("$" ++ name) ++ v) := by
  obtain ⟨htoken, hne, hchars⟩ := isReference_dollar.1 hname
  have hmem : String.ofList name.toList ∈ referenceNames (u ++ ("$" ++ name) ++ v) := by
    rw [Reference.mem_referenceNames, String.toList_append, String.toList_append,
      Referenced.ofChars_between hu _ hv, Referenced.names_append, Referenced.names_append, htoken,
      Referenced.ofChars_reference hne hchars]
    simp [Referenced.names]
  rwa [String.ofList_toList] at hmem

/-- In a batch that succeeds, a node that refers to the value of another one as a word of
its own executes one expression, with the text of the value in the place of the word. -/
theorem executed_iff_committed (h : (evaluate scope nodes r).1 = .ok o) {i j : Nat}
    {node other : Node} (hi : nodes[i]? = some node) (hj : nodes[j]? = some other) (hji : j ≠ i)
    {name : String} (hcommits : other.name = some name)
    (hunique : ∀ k n, nodes[k]? = some n → n.name = some name → k = j)
    (hname : IsReference ("$" ++ name).toList) (hdot : '.' ∉ name.toList)
    {u v : String} (hu : Parted u.toList) (hv : Ended v.toList)
    (hrefers : node.expression = u ++ ("$" ++ name) ++ v) :
    let seen := (stateBefore scope nodes r i).output
    let x := value scope nodes r j other
    o.get? name = some x ∧ ∀ t,
      (i, t) ∈ executed scope nodes (graph nodes).walk.1 ⟨r, .empty⟩ ↔
        t = filled scope seen u ++ Number.format x ++ filled scope seen v := by
  obtain ⟨hilt, -⟩ := List.getElem?_eq_some_iff.1 hi
  obtain ⟨hjlt, -⟩ := List.getElem?_eq_some_iff.1 hj
  have href : name ∈ referenceNames node.expression :=
    hrefers ▸ mem_referenceNames_between hname hu hv
  have hearlier : j ∈ earlier nodes i :=
    mem_earlier_of_edge h (edge_of_reference hi hj hji href hcommits)
  obtain ⟨between, hbetween, hjbetween⟩ := exists_earlier_eq h hilt hearlier
  obtain ⟨later, hwalk, -, hjlater⟩ := exists_walk_eq h hjlt
  have hseen : (stateBefore scope nodes r i).output.get? name =
      some (value scope nodes r j other) := by
    rw [stateBefore, hbetween]
    exact get?_value hj hcommits hunique hjbetween
  refine ⟨?_, fun t => ?_⟩
  · obtain ⟨order, horder, rfl⟩ := evaluate_eq_ok h
    obtain rfl : order = earlier nodes j ++ j :: later :=
      congrArg Prod.fst (horder.symm.trans hwalk)
    exact get?_value hj hcommits hunique hjlater
  · rw [mem_executed_iff h hi, text_eq_filled, hrefers, filled_between _ _ hu _ hv,
      filled_reference hname hdot hseen (isNaN_evaluate _ _)]

/-- A batch whose first node refers to the values of the others. -/
def quote : List Node :=
  [⟨some "total", "$unit-price $count *"⟩, ⟨some "count", "4"⟩, ⟨some "unit-price", "2.5"⟩]

theorem walk_quote : (graph quote).walk = ([1, 2, 0], none) := by
  rw [graph_eq_byAsking]
  decide +kernel

theorem evaluate_quote : (evaluate ⟨.empty, none⟩ quote Registers.new).1 =
    .ok ⟨[("count", Number.ofNat 4), ("unit-price", Number.ofRatio false 5 2),
      ("total", Number.ofNat 10)], 3⟩ := by
  unfold evaluate evaluateInto
  rw [walk_quote]
  exact congrArg Except.ok (by decide +kernel)

theorem executed_quote : (0, "2.5 4 *") ∈
    executed ⟨.empty, none⟩ quote (graph quote).walk.1 ⟨Registers.new, .empty⟩ := by
  have hunique : ∀ k n, quote[k]? = some n → n.name = some "unit-price" → k = 2 := by
    rintro (_ | _ | _ | k) n hn hname
    · obtain rfl := Option.some.inj hn
      exact absurd hname (by decide)
    · obtain rfl := Option.some.inj hn
      exact absurd hname (by decide)
    · rfl
    · cases hn
  have hcommitted := executed_iff_committed evaluate_quote (i := 0) (j := 2) rfl rfl (by decide) rfl
    hunique (by decide +kernel) (by decide +kernel) (u := "") (v := " $count *")
    (by decide +kernel) (by decide +kernel) rfl
  refine (hcommitted.2 _).2 ?_
  simp only [value, stateBefore, earlier, walk_quote]
  decide +kernel

/-- A batch whose second node refers to the value of the first, which has a dot in its name. -/
def dotted : List Node := [⟨some "tax.rate", "5"⟩, ⟨some "total", "$tax.rate 2 *"⟩]

/-- The value of the first node is committed before the second is run, which does not see it. -/
theorem executed_dotted :
    (∃ o, (evaluate ⟨.empty, none⟩ dotted Registers.new).1 = .ok o ∧
      o.get? "tax.rate" = some (Number.ofNat 5)) ∧
    (dotted.map Node.name).Nodup ∧ IsReference ("$" ++ "tax.rate").toList ∧
    dotted[1]? = some ⟨some "total", "$tax.rate 2 *"⟩ ∧
    "$tax.rate 2 *" = "" ++ ("$" ++ "tax.rate") ++ " 2 *" ∧
    (1, "5 2 *") ∉ executed ⟨.empty, none⟩ dotted (graph dotted).walk.1 ⟨Registers.new, .empty⟩ ∧
    (1, "$tax.rate 2 *") ∈
      executed ⟨.empty, none⟩ dotted (graph dotted).walk.1 ⟨Registers.new, .empty⟩ := by
  have hwalk : (graph dotted).walk = ([0, 1], none) := by decide +kernel
  refine ⟨?_, by decide, by decide +kernel, rfl, by decide, ?_, ?_⟩
  · unfold evaluate evaluateInto
    rw [hwalk]
    exact ⟨_, rfl, by decide +kernel⟩
  · rw [hwalk]
    decide +kernel
  · rw [hwalk]
    decide +kernel

end Batch

end Reckoner
