import ScriptMachine.Operator
import ScriptMachine.Value.Basic

/-!
# Comparisons of values

Both operands are coerced. Two numbers compare as numbers and two texts as texts, by the codes of
their characters. A number and a text that is none are unordered, and equal if the text is what the
number is rendered as. An array is neither equal to anything nor ordered.

* `Value.isEqual`, `Value.order?`: equality and order.
* `ComparisonOperator.holds`, `ComparisonOperator.evaluate`: the six comparisons.
-/

namespace ScriptMachine

namespace Value

/-- Equality of values that are coerced already. -/
def isEqualCoerced : Value → Value → Bool
  | number m, number n => m.equals n
  | text s, text t => s == t
  | number n, text t => n.text == t
  | text s, number n => s == n.text
  | _, _ => false

/-- Equality as programs see it. -/
def isEqual (a b : Value) : Bool :=
  isEqualCoerced a.coerce b.coerce

/-- The order of texts, by the codes of their characters. -/
def textOrder (s t : String) : Ordering :=
  if s < t then .lt else if s = t then .eq else .gt

/-- The order of values that are coerced already, if they have one. -/
def orderCoerced? : Value → Value → Option Ordering
  | number m, number n => m.order? n
  | text s, text t => some (textOrder s t)
  | _, _ => none

/-- The order of values, if they have one. -/
def order? (a b : Value) : Option Ordering :=
  orderCoerced? a.coerce b.coerce

def isLess (a b : Value) : Bool :=
  a.order? b == some .lt

def isGreater (a b : Value) : Bool :=
  a.order? b == some .gt

theorem isEqual_coerce (a b : Value) : a.coerce.isEqual b.coerce = a.isEqual b := by
  rw [isEqual, isEqual, coerce_coerce, coerce_coerce]

theorem order?_coerce (a b : Value) : a.coerce.order? b.coerce = a.order? b := by
  rw [order?, order?, coerce_coerce, coerce_coerce]

end Value

namespace ComparisonOperator

/-- Whether a comparison holds. A weak one holds where the strict one or equality does. -/
def holds (op : ComparisonOperator) (a b : Value) : Bool :=
  match op with
  | eq => a.isEqual b
  | ne => !a.isEqual b
  | lt => a.isLess b
  | le => a.isLess b || a.isEqual b
  | gt => a.isGreater b
  | ge => a.isGreater b || a.isEqual b

/-- The text of truth or falsehood that a comparison yields. -/
def evaluate (op : ComparisonOperator) (a b : Value) : Value :=
  .ofBool (op.holds a b)

end ComparisonOperator

end ScriptMachine
