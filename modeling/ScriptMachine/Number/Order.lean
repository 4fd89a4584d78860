import ScriptMachine.Number.Basic

/-!
# The order of numbers

Every number but `nan` has a position on a line of integers: a finite one at its count of units, so
that both zeros share a position, and the infinities beyond all finite ones. Equality and order of
numbers are equality and order of positions; `nan`, which has none, equals nothing, itself
included, and is unordered against everything.

* `Number.position?`: the place of a number on the line.
* `Number.equals_eq_true_iff`, `Number.order?_eq_some_lt_iff`: the comparisons through positions.
-/

namespace ScriptMachine.Number

/-- The place of a number in the order. -/
def position? : Number → Option Int
  | nan => none
  | infinity s => some (s.apply overflowUnits)
  | finite s m => some (s.apply m.units)

theorem position?_eq_none_iff {a : Number} : a.position? = none ↔ a = nan := by
  cases a <;> simp [position?]

/-- Both are numbers and in the same place. -/
def equals (a b : Number) : Bool :=
  match a.position?, b.position? with
  | some x, some y => x == y
  | _, _ => false

theorem equals_eq_true_iff {a b : Number} :
    a.equals b = true ↔ ∃ x, a.position? = some x ∧ b.position? = some x := by
  unfold equals
  cases a.position? with
  | none => simp
  | some x =>
    cases b.position? with
    | none => simp
    | some y => simp [eq_comm (a := y)]

/-- How two numbers are ordered, if both are numbers. -/
def order? (a b : Number) : Option Ordering :=
  match a.position?, b.position? with
  | some x, some y => some (compare x y)
  | _, _ => none

theorem order?_eq_some_lt_iff {a b : Number} :
    a.order? b = some .lt ↔ ∃ x y, a.position? = some x ∧ b.position? = some y ∧ x < y := by
  unfold order?
  cases a.position? <;> cases b.position? <;> simp [Int.compare_eq_lt]

end ScriptMachine.Number
