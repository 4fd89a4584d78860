import ScriptMachine.Proofs.Values.Arithmetic
import ScriptMachine.Proofs.Values.Dispatch

/-!
# What an operator sees of its operands

An operand may be coerced before it is given to an operator, and nothing changes, neither the result
nor what a failure reports. Only a sum that joins texts sees more of its right operand than what it
is coerced to.

* `ComparisonOperator.evaluate_coerce`, `ArithmeticOperator.evaluate_coerce_left`: operands that may
  be coerced before.
* `ArithmeticOperator.JoinsNumeral`: the operands of which the right one may not be.
* `Value.operands_coerced`: all of it.
-/

namespace ScriptMachine

theorem ComparisonOperator.evaluate_coerce (op : ComparisonOperator) (a b : Value) :
    op.evaluate a.coerce b.coerce = op.evaluate a b := by
  unfold evaluate holds Value.isLess Value.isGreater
  rw [Value.isEqual_coerce, Value.order?_coerce]

namespace ArithmeticOperator

variable {op : ArithmeticOperator} {left right : Value} {span : Span}

theorem evaluate_coerce_left :
    op.evaluate left.coerce right span = op.evaluate left right span := by
  rw [evaluate, evaluate, Value.coerce_coerce]

/-- A sum with a plain text on the left, and on the right a text that starts with a number and is
joined as it was written. -/
inductive JoinsNumeral : ArithmeticOperator → Value → Value → Prop where
  | intro {s t : String} {n : Number} (hs : Number.leading? s = none)
      (ht : Number.leading? t = some n) : JoinsNumeral add (.text s) (.text t)

theorem evaluate_coerce_right (h : ¬ op.JoinsNumeral left right) :
    op.evaluate left right.coerce span = op.evaluate left right span := by
  -- only a text that starts with a number becomes another value
  rcases right.coerce_cases with hright | ⟨n, hright⟩ | hright
  · obtain ⟨items, rfl⟩ := Value.eq_array_of_kind hright
    rfl
  · have hcoerced : right.coerce.coerce = .number n := by rw [Value.coerce_coerce, hright]
    rcases left.coerce_cases with hleft | ⟨m, hleft⟩ | hleft
    · rw [evaluate_of_array (.inl hleft), evaluate_of_array (.inl hleft)]
    · rw [evaluate_of_numbers hleft hcoerced, evaluate_of_numbers hleft hright]
    · -- both are the failure of a text, or the right operand is no text at all
      rw [evaluate_of_plain hleft.kind_ne_array (Value.kind_ne_array_of_coerce hcoerced)
          (.inl hleft),
        evaluate_of_plain hleft.kind_ne_array (Value.kind_ne_array_of_coerce hright) (.inl hleft)]
      cases right with
      | number m => rfl
      | array items => rfl
      | text t =>
        have hop : op ≠ add := by
          rintro rfl
          obtain ⟨s, rfl, hs⟩ := hleft
          cases ht : Number.leading? t with
          | none =>
            rw [Value.coerce_text_of_none ht] at hright
            cases hright
          | some m => exact h (.intro hs ht)
        rw [onTexts, onTexts, if_neg hop, if_neg hop]
  · rw [hright.coerce_eq]

/-- The exception is one: before and after coercion, different texts are joined. -/
theorem JoinsNumeral.evaluate_eq (h : op.JoinsNumeral left right) :
    op.evaluate left right span = .ok (.text (left.display ++ right.display)) ∧
      op.evaluate left right.coerce span =
        .ok (.text (left.display ++ right.coerce.display)) := by
  cases h with
  | @intro s t n hs ht =>
    have hplain : (Value.text s).IsPlain := ⟨s, rfl, hs⟩
    have htext := Value.coerce_text_of_some ht
    have hnumber : (Value.number n).coerce = .number n := rfl
    rw [htext, evaluate_of_plain hplain.kind_ne_array (Value.kind_ne_array_of_coerce htext)
        (.inl hplain),
      evaluate_of_plain hplain.kind_ne_array (Value.kind_ne_array_of_coerce hnumber) (.inl hplain),
      Value.coerce_text_of_none hs]
    exact ⟨rfl, rfl⟩

end ArithmeticOperator

/-- An operator comes to the same if its operands are coerced before, except that a sum with a plain
text on the left joins what is written on the right. The same holds by the rules of the left
operand, where each rule coerces on its own. -/
theorem Value.operands_coerced (a b : Value) :
    (∀ op : ComparisonOperator, op.evaluate a b = op.evaluate a.coerce b.coerce ∧
      op.evaluateByLeft a b = op.evaluate a b) ∧
      ∀ (op : ArithmeticOperator) (span : Span),
        op.evaluate a b span = op.evaluate a.coerce b span ∧
        (¬ op.JoinsNumeral a b → op.evaluate a b span = op.evaluate a b.coerce span) ∧
        (op.JoinsNumeral a b →
          op.evaluate a b span = .ok (.text (a.display ++ b.display)) ∧
          op.evaluate a b.coerce span = .ok (.text (a.display ++ b.coerce.display))) ∧
        op.evaluateByLeft a b span = op.evaluate a b span :=
  ⟨fun op => ⟨(op.evaluate_coerce a b).symm, op.evaluateByLeft_eq a b⟩, fun op span =>
    ⟨ArithmeticOperator.evaluate_coerce_left.symm,
      fun h => (ArithmeticOperator.evaluate_coerce_right h).symm,
      ArithmeticOperator.JoinsNumeral.evaluate_eq, op.evaluateByLeft_eq a b span⟩⟩

/-- A numeral with a leading zero: a number is added to its number, a plain text is joined with what
is written. -/
theorem Value.operands_coerced_leading_zero :
    ¬ ArithmeticOperator.add.JoinsNumeral (number (.ofInt 1)) (text "05") ∧
      ArithmeticOperator.add.evaluate (number (.ofInt 1)) (text "05") ⟨3, 7⟩ =
        ArithmeticOperator.add.evaluate (number (.ofInt 1)) (number (.ofInt 5)) ⟨3, 7⟩ ∧
      ArithmeticOperator.add.JoinsNumeral (text "x") (text "05") ∧
      ArithmeticOperator.add.evaluate (text "x") (text "05") ⟨3, 7⟩ = .ok (.text "x05") := by
  have hnumeral : Number.leading? "05" = some (.ofInt 5) := by decide +kernel
  have hword : Number.leading? "x" = none := by decide +kernel
  have hnumber : ¬ ArithmeticOperator.add.JoinsNumeral (number (.ofInt 1)) (text "05") := nofun
  have hjoins : ArithmeticOperator.add.JoinsNumeral (text "x") (text "05") := .intro hword hnumeral
  obtain ⟨-, hsum⟩ := operands_coerced (number (.ofInt 1)) (text "05")
  obtain ⟨-, hcoerced, -⟩ := hsum .add ⟨3, 7⟩
  obtain ⟨-, hsum⟩ := operands_coerced (text "x") (text "05")
  obtain ⟨-, -, hjoined, -⟩ := hsum .add ⟨3, 7⟩
  rw [coerce_text_of_some hnumeral] at hcoerced
  exact ⟨hnumber, hcoerced hnumber, hjoins, (hjoined hjoins).1⟩

end ScriptMachine
