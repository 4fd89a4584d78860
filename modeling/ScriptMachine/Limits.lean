/-!
# Limits

How much a single run may use of the frames of calls, of instructions, and of the values on the
evaluation stack. Each limit may be left out, and is then never reached.

* `Limits.sandboxed`: limits for programs that are not trusted.
* `reached?`: the limit that a count has reached.
-/

namespace ScriptMachine

/-- The limits of one run. -/
structure Limits where
  callDepth : Option Nat
  stepBudget : Option Nat
  evaluationStack : Option Nat
  deriving DecidableEq, Repr

namespace Limits

/-- No limits. -/
def unbounded : Limits := ⟨none, none, none⟩

instance : Inhabited Limits := ⟨unbounded⟩

/-- Limits suited to programs that are not trusted. -/
def sandboxed : Limits := ⟨some 200, some 1000000, some 10000⟩

/-- Whether any limit is set. -/
def isBounded (l : Limits) : Bool :=
  l.callDepth.isSome || l.stepBudget.isSome || l.evaluationStack.isSome

end Limits

/-- The limit that a count has reached; one that is left out is never reached. -/
def reached? (limit : Option Nat) (count : Nat) : Option Nat :=
  match limit with
  | some n => if n ≤ count then some n else none
  | none => none

theorem reached?_eq_some_iff {limit : Option Nat} {count n : Nat} :
    reached? limit count = some n ↔ limit = some n ∧ n ≤ count := by
  cases limit with
  | none => simp [reached?]
  | some m =>
    by_cases h : m ≤ count
    · simp only [reached?, h, if_true, Option.some.injEq]
      constructor
      · rintro rfl
        exact ⟨rfl, h⟩
      · exact fun hm => hm.1
    · simp only [reached?, h, if_false, reduceCtorEq, Option.some.injEq, false_iff]
      rintro ⟨rfl, hn⟩
      exact h hn

theorem reached?_eq_none_iff {limit : Option Nat} {count : Nat} :
    reached? limit count = none ↔ ∀ n, limit = some n → count < n := by
  cases limit with
  | none => simp [reached?]
  | some m =>
    by_cases h : m ≤ count
    · simp [reached?, h]
    · simpa [reached?, h] using Nat.lt_of_not_le h

end ScriptMachine
