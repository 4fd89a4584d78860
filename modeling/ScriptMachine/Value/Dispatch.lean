import ScriptMachine.Number.Literal.Bytes
import ScriptMachine.Value.Arithmetic
import ScriptMachine.Value.Comparison

/-!
# Operators by their left operand

An operator can be carried out without ever having both operands coerced side by side: the left one
is looked at first and chooses a rule, and each rule finds out on its own what it has to know about
the right one. No rule is another one with the operands exchanged. Texts are ordered as they are
stored, by their bytes.

* `Value.byLeft`: the choice of a rule.
* `Value.isEqualByLeft`, `Value.isOrderedByLeft`, `ComparisonOperator.evaluateByLeft`: comparisons.
* `ArithmeticOperator.evaluateByLeft`: arithmetic.
-/

namespace ScriptMachine

namespace Value

/-- The rule for a left operand. A text that starts with a number has the rule of that number. -/
def byLeft {α : Type} (onNumber : Number → α) (onText : String → α) (onArray : α) : Value → α
  | number n => onNumber n
  | text s =>
    match (text s).coerce with
    | number n => onNumber n
    | _ => onText s
  | array _ => onArray

/-- The rule is the one for what the operand is coerced to. -/
theorem byLeft_eq {α : Type} (onNumber : Number → α) (onText : String → α) (onArray : α)
    (v : Value) :
    v.byLeft onNumber onText onArray =
      match v.coerce with
      | number n => onNumber n
      | text s => onText s
      | array _ => onArray := by
  cases v with
  | number n => rfl
  | array items => rfl
  | text s =>
    cases h : Number.leading? s with
    | none => simp only [byLeft, coerce_text_of_none h]
    | some n => simp only [byLeft, coerce_text_of_some h]

/-! ## Comparisons -/

/-- Equality with a number on the left. -/
def numberEquals (n : Number) (right : Value) : Bool :=
  match right.coerce with
  | text t => n.text == t
  | number m => n.equals m
  | array _ => false

/-- Equality with a text on the left that is no number. -/
def textEquals (s : String) (right : Value) : Bool :=
  match right.coerce with
  | text t => s == t
  | number m => s == m.text
  | array _ => false

def isEqualByLeft (left right : Value) : Bool :=
  left.byLeft (fun n => numberEquals n right) (fun s => textEquals s right) false

/-- The wanted order with a number on the left. -/
def numberIsOrdered (wanted : Ordering) (n : Number) (right : Value) : Bool :=
  match right.coerce with
  | number m => n.order? m == some wanted
  | _ => false

/-- The order of texts by their bytes. -/
def byteOrder (s t : String) : Ordering :=
  compareOfLessAndEq (utf8 s.toList) (utf8 t.toList)

/-- The wanted order with a text on the left that is no number. -/
def textIsOrdered (wanted : Ordering) (s : String) (right : Value) : Bool :=
  match right.coerce with
  | text t => byteOrder s t == wanted
  | _ => false

def isOrderedByLeft (wanted : Ordering) (left right : Value) : Bool :=
  left.byLeft (fun n => numberIsOrdered wanted n right)
    (fun s => textIsOrdered wanted s right) false

end Value

namespace ComparisonOperator

/-- A comparison by the rules of its left operand. A weak one asks for the strict one first. -/
def evaluateByLeft (op : ComparisonOperator) (a b : Value) : Value :=
  .ofBool <| match op with
    | eq => a.isEqualByLeft b
    | ne => !a.isEqualByLeft b
    | lt => Value.isOrderedByLeft .lt a b
    | le => Value.isOrderedByLeft .lt a b || a.isEqualByLeft b
    | gt => Value.isOrderedByLeft .gt a b
    | ge => Value.isOrderedByLeft .gt a b || a.isEqualByLeft b

end ComparisonOperator

/-! ## Arithmetic -/

namespace ArithmeticOperator

/-- An operator with a number on the left. -/
def numberOnLeft (op : ArithmeticOperator) (n : Number) (right : Value) (span : Span) :
    Except Diagnostic Value :=
  match right.coerce with
  | .text t => if op = add then .ok (.text (n.text ++ t)) else .error (.textOperand span op)
  | .number m => op.onNumbers n m span
  | .array _ => .error (.arrayOperand span op)

/-- An operator with a text on the left that is no number. The right operand is not coerced. -/
def textOnLeft (op : ArithmeticOperator) (s : String) (right : Value) (span : Span) :
    Except Diagnostic Value :=
  match right with
  | .array _ => .error (.arrayOperand span op)
  | _ => if op = add then .ok (.text (s ++ right.display)) else .error (.textOperand span op)

/-- An operator by the rules of its left operand. -/
def evaluateByLeft (op : ArithmeticOperator) (left right : Value) (span : Span) :
    Except Diagnostic Value :=
  left.byLeft (fun n => op.numberOnLeft n right span) (fun s => op.textOnLeft s right span)
    (.error (.arrayOperand span op))

end ArithmeticOperator

end ScriptMachine
