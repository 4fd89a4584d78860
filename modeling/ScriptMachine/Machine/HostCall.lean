import ScriptMachine.Machine.Run

/-!
# Calls of a host

A host drives a machine by steps and runs, by terminating it, and by operators whose operands it
has itself. A history is a sequence of such calls on one machine.

* `Machine.handle`: one call.
* `Machine.history`: the machine and the events after a sequence of calls.
-/

namespace ScriptMachine

inductive HostCall where
  | step
  /-- A run of no more steps than the given fuel. -/
  | run (fuel : Nat)
  | terminate (diagnostic : Diagnostic)
  | arithmetic (left : Value) (op : ArithmeticOperator) (right : Value) (span : Span)
  | comparison (left : Value) (op : ComparisonOperator) (right : Value) (span : Span)

/-- What a host is told. -/
inductive HostAnswer where
  | stepped (result : Except Fault Bool)
  | ran (result : Option (Except Fault Outcome))
  | done

namespace Machine

def handle (m : Machine) : HostCall → Reply HostAnswer
  | .step => m.step.map .stepped
  | .run fuel => (m.run fuel).map .ran
  | .terminate d => (m.terminate d).map fun _ => .done
  | .arithmetic left op right span =>
    (m.applyArithmetic left op right span).map fun _ => .done
  | .comparison left op right span =>
    (m.applyComparison left op right span).map fun _ => .done

/-- All calls of a history in order, with what each one answers. -/
def history : List HostCall → Machine → Reply (List HostAnswer)
  | [], m => .silent [] m
  | c :: cs, m =>
    let r := m.handle c
    ((history cs r.machine).afterAll r.events).map (r.answer :: ·)

end Machine

end ScriptMachine
