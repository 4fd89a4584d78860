import ScriptMachine.Program

/-!
# The flow of a program

Where execution can go from an instruction: on, to a target in the same routine, into another
routine, or out of the routine.

* `Operation.successors`: the places in the same routine that may come next.
* `Program.IsForward`: every jump goes down its routine, and every call to a later routine.
-/

namespace ScriptMachine

namespace Operation

/-- The targets of the jumps in the same routine. -/
def targets : Operation → List Nat
  | jump target => [target]
  | jumpIfFalse target => [target]
  | _ => []

/-- The routine that is entered. -/
def callee? : Operation → Option RoutineId
  | call callee => some callee
  | _ => none

/-- The places in the same routine that may come next after an operation at the given one. A call
comes back to the next place, but only after the routine that it enters. -/
def successors (counter : Nat) : Operation → List Nat
  | jump target => [target]
  | jumpIfFalse target => [counter + 1, target]
  | call _ => []
  | leave => []
  | _ => [counter + 1]

end Operation

namespace Program

/-- The instruction at a place of a program, as a relation. -/
def Has (p : Program) (id : RoutineId) (counter : Nat) (i : Instruction) : Prop :=
  p.instruction? id counter = some i

theorem has_iff {p : Program} {id : RoutineId} {c : Nat} {i : Instruction} :
    p.Has id c i ↔ ∃ r, p.routine? id = some r ∧ r.instruction? c = some i :=
  Option.bind_eq_some_iff

theorem has_of_instruction? {p : Program} {id : RoutineId} {r : Routine} {c : Nat} {i : Instruction}
    (hr : p.routine? id = some r) (hi : r.instruction? c = some i) : p.Has id c i :=
  has_iff.mpr ⟨r, hr, hi⟩

/-- No jump goes back, and no call to the same routine or an earlier one. -/
structure IsForward (p : Program) : Prop where
  jumps : ∀ id c i, p.Has id c i → ∀ target ∈ i.operation.targets, c < target
  calls : ∀ id c i, p.Has id c i →
    ∀ callee, i.operation.callee? = some callee → id.index < callee.index

end Program

end ScriptMachine
