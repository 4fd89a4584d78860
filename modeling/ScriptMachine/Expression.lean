import ScriptMachine.Program

/-!
# Expressions

An expression is made of constants by operators. It has a value, or a report of the first operator
that failed, from left to right and from the inside out; and it has code, in which every operator
follows the code of its operands.

* `Expression.evaluate`: the value or the report.
* `Expression.code`: the instructions that compute it on a stack.
* `Expression.length_code`: one instruction for each constant and each operator.
-/

namespace ScriptMachine

inductive Expression where
  | constant (value : Value) (span : Span)
  | arithmetic (op : ArithmeticOperator) (left right : Expression) (span : Span)
  | comparison (op : ComparisonOperator) (left right : Expression) (span : Span)

namespace Expression

/-- The value of an expression, or the report of the operator that has none. -/
def evaluate : Expression → Except Diagnostic Value
  | constant v _ => .ok v
  | arithmetic op left right span => do
    let a ← left.evaluate
    let b ← right.evaluate
    op.evaluate a b span
  | comparison op left right _ => do
    let a ← left.evaluate
    let b ← right.evaluate
    return op.evaluate a b

/-- The instructions for an expression, each operator after its operands. -/
def code : Expression → List Instruction
  | constant v span => [⟨.push v, span⟩]
  | arithmetic op left right span => left.code ++ right.code ++ [⟨.arithmetic op, span⟩]
  | comparison op left right span => left.code ++ right.code ++ [⟨.compare op, span⟩]

/-- The number of constants and operators. -/
def size : Expression → Nat
  | constant _ _ => 1
  | arithmetic _ left right _ => left.size + right.size + 1
  | comparison _ left right _ => left.size + right.size + 1

theorem length_code (e : Expression) : e.code.length = e.size := by
  induction e with
  | constant => rfl
  | arithmetic op left right span ihl ihr =>
    rw [code, size, List.length_append, List.length_append, ihl, ihr]
    rfl
  | comparison op left right span ihl ihr =>
    rw [code, size, List.length_append, List.length_append, ihl, ihr]
    rfl

end Expression

end ScriptMachine
