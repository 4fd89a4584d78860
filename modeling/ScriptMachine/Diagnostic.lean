import ScriptMachine.Operator
import ScriptMachine.Span

/-!
# Diagnostics

A diagnostic says why a run was terminated: the code of the cause, where it happened, the arguments
that a reader's message template asks for, a message in English, and labels on the source.

* `ErrorCode`: the causes.
* `Diagnostic`: the report, built by `Diagnostic.ofCode` and what is added to it.
* `Diagnostic.text`: the report as a reader without templates sees it.
-/

namespace ScriptMachine

/-- Why a program may be terminated: an operator has no result, or a limit is exceeded. -/
inductive ErrorCode where
  | divisionByZero
  | textOperand
  | arrayOperand
  | callDepthExceeded
  | evaluationStackOverflow
  | stepBudgetExceeded
  deriving DecidableEq, Repr

namespace ErrorCode

def all : List ErrorCode :=
  [divisionByZero, textOperand, arrayOperand, callDepthExceeded, evaluationStackOverflow,
    stepBudgetExceeded]

/-- The identifier under which a cause is documented. -/
def code : ErrorCode → String
  | divisionByZero => "E6001"
  | textOperand => "E6010"
  | arrayOperand => "E6011"
  | callDepthExceeded => "E6031"
  | evaluationStackOverflow => "E6032"
  | stepBudgetExceeded => "E6070"

/-- The name of a cause in words. -/
def name : ErrorCode → String
  | divisionByZero => "CannotDivideByZero"
  | textOperand => "CannotUseOperatorWithAString"
  | arrayOperand => "CannotUseOperatorWithAnArray"
  | callDepthExceeded => "CallDepthExceeded"
  | evaluationStackOverflow => "EvaluationStackOverflow"
  | stepBudgetExceeded => "StepBudgetExceeded"

end ErrorCode

/-- A message on a part of the source. -/
structure Label where
  span : Span
  message : String
  deriving DecidableEq, Repr

structure Diagnostic where
  code : ErrorCode
  span : Span
  args : List String
  message : String
  labels : List Label
  deriving DecidableEq, Repr

namespace Diagnostic

/-- The report of a cause and a place, with nothing else. -/
def ofCode (code : ErrorCode) (span : Span) : Diagnostic :=
  ⟨code, span, [], "", []⟩

def addArg (d : Diagnostic) (arg : String) : Diagnostic :=
  { d with args := d.args ++ [arg] }

def setMessage (d : Diagnostic) (message : String) : Diagnostic :=
  { d with message }

def addLabel (d : Diagnostic) (span : Span) (message : String) : Diagnostic :=
  { d with labels := d.labels ++ [⟨span, message⟩] }

/-- The first argument; of an operator's failure it is the operator's symbol. -/
def firstArg? (d : Diagnostic) : Option String :=
  d.args.head?

/-- A line that points at a part of the source. -/
def pointer (span : Span) : String :=
  "\n  --> " ++ span.text

/-- The code and the message, then a line for each label; without labels, a line for the place. -/
def text (d : Diagnostic) : String :=
  let heading := "error [" ++ d.code.code ++ "]: " ++ d.message
  match d.labels with
  | [] => heading ++ pointer d.span
  | labels => heading ++ String.join (labels.map fun l => pointer l.span ++ ": " ++ l.message)

/-! ## The reports of the machine

Each has one label, at the place that it reports. -/

/-- An operator met a text that is not a number. -/
def textOperand (span : Span) (op : ArithmeticOperator) : Diagnostic :=
  { code := .textOperand
    span
    args := [op.symbol]
    message := "cannot use the operator `" ++ op.symbol ++ "` with a non-numeric string value"
    labels := [⟨span, "this operand is a string"⟩] }

/-- An operator met an array. -/
def arrayOperand (span : Span) (op : ArithmeticOperator) : Diagnostic :=
  { code := .arrayOperand
    span
    args := [op.symbol]
    message := "cannot use the operator `" ++ op.symbol ++ "` with an array value"
    labels := [⟨span, "this operand is an array"⟩] }

/-- The divisor is zero. -/
def divisionByZero (span : Span) : Diagnostic :=
  { code := .divisionByZero
    span
    args := []
    message := "cannot divide by zero"
    labels := [⟨span, "the divisor evaluates to zero"⟩] }

/-- A call found as many frames as there may be. -/
def callDepthExceeded (span : Span) (limit : Nat) : Diagnostic :=
  { code := .callDepthExceeded
    span
    args := [toString limit]
    message := "maximum call depth exceeded (limit: " ++ toString limit ++ ")"
    labels := [⟨span, "this call exceeds the limit"⟩] }

/-- A value found as many values on the stack as there may be. -/
def evaluationStackOverflow (span : Span) (limit : Nat) : Diagnostic :=
  { code := .evaluationStackOverflow
    span
    args := [toString limit]
    message := "evaluation stack overflow (limit: " ++ toString limit ++ " values)"
    labels := [⟨span, "this instruction pushes past the limit"⟩] }

/-- An instruction found as many instructions executed as there may be. -/
def stepBudgetExceeded (span : Span) (budget : Nat) : Diagnostic :=
  { code := .stepBudgetExceeded
    span
    args := [toString budget]
    message := "program exceeded its budget of " ++ toString budget ++ " instructions"
    labels := [⟨span, "execution stopped here"⟩] }

end Diagnostic

end ScriptMachine
