/-!
# Operators

Arithmetic operators may fail and are named by their symbols when they do; comparisons never fail.
-/

namespace ScriptMachine

inductive ArithmeticOperator where
  | add
  | sub
  | mul
  | div
  deriving DecidableEq, Repr

namespace ArithmeticOperator

def all : List ArithmeticOperator := [add, sub, mul, div]

def symbol : ArithmeticOperator → String
  | add => "+"
  | sub => "-"
  | mul => "*"
  | div => "/"

/-- The name that a developer sees. -/
def name : ArithmeticOperator → String
  | add => "Add"
  | sub => "Sub"
  | mul => "Mul"
  | div => "Div"

end ArithmeticOperator

inductive ComparisonOperator where
  | eq
  | ne
  | lt
  | le
  | gt
  | ge
  deriving DecidableEq, Repr

namespace ComparisonOperator

def all : List ComparisonOperator := [eq, ne, lt, le, gt, ge]

def symbol : ComparisonOperator → String
  | eq => "="
  | ne => "<>"
  | lt => "<"
  | le => "<="
  | gt => ">"
  | ge => ">="

/-- The name that a developer sees. -/
def name : ComparisonOperator → String
  | eq => "Eq"
  | ne => "NotEq"
  | lt => "Lt"
  | le => "LtEq"
  | gt => "Gt"
  | ge => "GtEq"

/-- The comparison that holds of two operands where this one holds of them exchanged. -/
def converse : ComparisonOperator → ComparisonOperator
  | eq => eq
  | ne => ne
  | lt => gt
  | le => ge
  | gt => lt
  | ge => le

end ComparisonOperator

end ScriptMachine
