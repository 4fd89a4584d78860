import ScriptMachine.Diagnostic
import ScriptMachine.Number.Arithmetic
import ScriptMachine.Value.Basic

/-!
# Arithmetic on values

Both operands are coerced. An array has no arithmetic; two numbers are computed with, except that
nothing is divided by zero; of what is left, where an operand is a text that is no number, a sum is
the texts one after the other and the other operators fail.

* `ArithmeticOperator.evaluate`: the result, or the report of the failure.
-/

namespace ScriptMachine

namespace ArithmeticOperator

/-- The operation on numbers. -/
def compute : ArithmeticOperator → Number → Number → Number
  | add, a, b => a + b
  | sub, a, b => a - b
  | mul, a, b => a * b
  | div, a, b => a / b

/-- The operation on numbers, which refuses to divide by either zero. -/
def onNumbers (op : ArithmeticOperator) (a b : Number) (span : Span) : Except Diagnostic Value :=
  if op = div ∧ b.isZero then .error (.divisionByZero span)
  else .ok (.number (op.compute a b))

/-- A sum of texts is one after the other; no other operator takes a text. -/
def onTexts (op : ArithmeticOperator) (left right : Value) (span : Span) :
    Except Diagnostic Value :=
  if op = add then .ok (.text (left.display ++ right.display))
  else .error (.textOperand span op)

/-- The result of an operator, or why it has none. A text keeps of its left operand what it is
coerced to, and of its right operand all that was written. -/
def evaluate (op : ArithmeticOperator) (left right : Value) (span : Span) :
    Except Diagnostic Value :=
  match left.coerce, right.coerce with
  | .array _, _ => .error (.arrayOperand span op)
  | _, .array _ => .error (.arrayOperand span op)
  | .number a, .number b => op.onNumbers a b span
  | coerced, _ => op.onTexts coerced right span

end ArithmeticOperator

end ScriptMachine
