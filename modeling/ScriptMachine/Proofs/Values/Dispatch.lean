import ScriptMachine.Proofs.Texts.ByteOrder
import ScriptMachine.Value.Dispatch

/-!
# The rules of the left operand

Looking at the left operand first comes to the same as coercing both operands.

* `Value.byteOrder_eq`: texts by their bytes are texts by the codes of their characters.
* `ComparisonOperator.evaluateByLeft_eq`, `ArithmeticOperator.evaluateByLeft_eq`: the operators by
  the rules of their left operand.
-/

namespace ScriptMachine

namespace Value

theorem byteOrder_eq (s t : String) : byteOrder s t = textOrder s t := by
  have hequal : utf8 s.toList = utf8 t.toList ↔ s = t :=
    ⟨fun h => String.toList_injective (utf8_injective h), fun h => h ▸ rfl⟩
  simp only [byteOrder, compareOfLessAndEq, textOrder, utf8_lt_iff, hequal,
    String.lt_iff_toList_lt]

theorem isEqualByLeft_eq (a b : Value) : a.isEqualByLeft b = a.isEqual b := by
  rw [isEqualByLeft, byLeft_eq, isEqual]
  unfold numberEquals textEquals
  cases a.coerce <;> cases b.coerce <;> rfl

theorem isOrderedByLeft_eq (wanted : Ordering) (a b : Value) :
    isOrderedByLeft wanted a b = (a.order? b == some wanted) := by
  rw [isOrderedByLeft, byLeft_eq, order?]
  unfold numberIsOrdered textIsOrdered
  -- texts are compared by their bytes there
  simp only [byteOrder_eq]
  cases a.coerce <;> cases b.coerce <;> rfl

end Value

theorem ComparisonOperator.evaluateByLeft_eq (op : ComparisonOperator) (a b : Value) :
    op.evaluateByLeft a b = op.evaluate a b := by
  unfold evaluateByLeft
  rw [Value.isEqualByLeft_eq, Value.isOrderedByLeft_eq, Value.isOrderedByLeft_eq]
  cases op <;> rfl

theorem ArithmeticOperator.evaluateByLeft_eq (op : ArithmeticOperator) (left right : Value)
    (span : Span) : op.evaluateByLeft left right span = op.evaluate left right span := by
  rw [evaluateByLeft, Value.byLeft_eq, evaluate]
  unfold numberOnLeft
  -- the rules look at the right operand as it was written
  cases right with
  | number m => cases left.coerce <;> rfl
  | array items => cases left.coerce <;> rfl
  | text t =>
    -- with a number on the left it matters whether the text is one
    cases h : Number.leading? t with
    | none =>
      rw [Value.coerce_text_of_none h]
      cases left.coerce <;> rfl
    | some m =>
      rw [Value.coerce_text_of_some h]
      cases left.coerce <;> rfl

end ScriptMachine
