import ScriptMachine.Machine.Event

/-!
# Effects on a machine

What a machine does to its stacks and to its status. A value is put on the stack only below the
limit; at the limit the run is terminated instead. A run is terminated once: the first diagnostic is
kept.

* `Machine.terminate`: the end of a run, with a report.
* `Machine.pushAndAdvance`: a value on the stack, and on to the next instruction.
* `Machine.applyArithmetic`, `Machine.applyComparison`: an operator on given operands.
* `Machine.perform`: the effect of an instruction.
-/

namespace ScriptMachine.Machine

/-- Terminate a run that has not stopped. -/
def terminate (m : Machine) (d : Diagnostic) : Reply Unit :=
  match m.status with
  | .running => ⟨(), { m with status := .terminated d }, [.terminated d.code d.span m.steps]⟩
  | .terminated kept => ⟨(), m, [.keptTermination kept.code d.code]⟩
  | .completed => ⟨(), m, [.keptCompletion d.code]⟩

/-- Move the frame on top to its next instruction. -/
def advance (m : Machine) : Machine :=
  { m with frames := m.frames.modifyTop Frame.advance }

/-- Move the frame on top to an instruction. -/
def jump (m : Machine) (target : Nat) : Machine :=
  { m with frames := m.frames.modifyTop (·.jump target) }

/-- Enter a routine. -/
def enter (m : Machine) (id : RoutineId) : Machine :=
  { m with frames := m.frames.push (.start id) }

/-- Leave the routine of the frame on top. -/
def leave (m : Machine) : Machine :=
  { m with frames := m.frames.pop }

/-- Take the value on top of the stack away. -/
def discard (m : Machine) : Machine :=
  { m with stack := m.stack.pop }

/-- Put a value on the stack and move to the next instruction, or terminate the run where the stack
is full. -/
def pushAndAdvance (m : Machine) (v : Value) (span : Span) : Reply Unit :=
  match reached? m.limits.evaluationStack m.stack.size with
  | some limit => m.terminate (.evaluationStackOverflow span limit)
  | none => .silent () { m with stack := m.stack.push v }.advance

/-- Apply an arithmetic operator to operands. A failure terminates the run and leaves the stacks
alone; on a machine that has stopped nothing happens. -/
def applyArithmetic (m : Machine) (left : Value) (op : ArithmeticOperator) (right : Value)
    (span : Span) : Reply Unit :=
  if m.isRunning then
    match op.evaluate left right span with
    | .ok v => m.pushAndAdvance v span
    | .error d => m.terminate d
  else .silent () m

/-- Apply a comparison to operands. -/
def applyComparison (m : Machine) (left : Value) (op : ComparisonOperator) (right : Value)
    (span : Span) : Reply Unit :=
  if m.isRunning then m.pushAndAdvance (op.evaluate left right) span
  else .silent () m

/-- Call a routine that exists, where there may be one more frame. -/
def call (m : Machine) (callee : RoutineId) (span : Span) : Reply Unit :=
  match reached? m.limits.callDepth m.frames.size with
  | some limit => m.terminate (.callDepthExceeded span limit)
  | none =>
    let entered := m.advance.enter callee
    let depth := entered.frames.size
    ⟨(), entered, [.called callee depth]⟩

/-- The effect of the instruction that a frame, of a routine of the given size, is at; or a fault,
which leaves the machine as it is. -/
def perform (m : Machine) (frame : Frame) (routineSize : Nat) (i : Instruction) :
    Reply (Except Fault Unit) :=
  let underflow := Fault.stackUnderflow frame.routine frame.counter
  match i.operation with
  | .push v => (m.pushAndAdvance v i.span).map .ok
  | .pop =>
    match m.stack.top? with
    | none => .silent (.error underflow) m
    | some _ => .silent (.ok ()) m.discard.advance
  | .dup =>
    match m.stack.top? with
    | none => .silent (.error underflow) m
    | some v => (m.pushAndAdvance v i.span).map .ok
  | .arithmetic op =>
    match m.stack.topTwo? with
    | none => .silent (.error underflow) m
    | some (left, right) => (m.discard.discard.applyArithmetic left op right i.span).map .ok
  | .compare op =>
    match m.stack.topTwo? with
    | none => .silent (.error underflow) m
    | some (left, right) => (m.discard.discard.applyComparison left op right i.span).map .ok
  | .jump target =>
    if target ≤ routineSize then .silent (.ok ()) (m.jump target)
    else .silent (.error (.jumpOutOfBounds frame.routine target)) m
  | .jumpIfFalse target =>
    match m.stack.top? with
    | none => .silent (.error underflow) m
    | some condition =>
      if target ≤ routineSize then
        .silent (.ok ()) (if condition.isTruthy then m.discard.advance else m.discard.jump target)
      else .silent (.error (.jumpOutOfBounds frame.routine target)) m
  | .call callee =>
    match m.program.routine? callee with
    | none => .silent (.error (.unknownRoutine callee)) m
    | some _ => (m.call callee i.span).map .ok
  | .leave => .silent (.ok ()) m.leave

end ScriptMachine.Machine
