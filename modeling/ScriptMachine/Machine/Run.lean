import ScriptMachine.Machine.Effect

/-!
# Runs

A step does the next thing that a machine is about to do: it completes the run, leaves a routine at
its end, or charges an instruction to the budget and executes it. A run is steps until the machine
stops or meets a fault; since that may never happen, a run is given fuel, and says when it has used
it up.

* `Machine.charge`: an instruction is counted.
* `Machine.step`: one step, and whether another one may follow.
* `Machine.resume`, `Machine.run`: as many steps as fuel allows.
* `Machine.resume_add`: a run goes on from where its fuel ran out as if there had been more.
-/

namespace ScriptMachine.Machine

/-- End a run that has no frame left. -/
def complete (m : Machine) : Reply (Except Fault Bool) :=
  ⟨.ok false, { m with status := .completed }, [.completed m.stack.size m.steps]⟩

/-- The greatest count of instructions that a machine can hold. -/
def maxSteps : Nat := UInt64.size - 1

/-- Count one more instruction; the greatest count stays as it is. -/
def charge (m : Machine) : Machine :=
  { m with steps := if m.steps < maxSteps then m.steps + 1 else m.steps }

/-- Whether a run can go on after an instruction: it cannot after a fault, and not once the machine
has stopped. -/
def continues (r : Reply (Except Fault Unit)) : Reply (Except Fault Bool) :=
  match r.answer with
  | .ok () => ⟨.ok r.machine.isRunning, r.machine, r.events⟩
  | .error fault => ⟨.error fault, r.machine, r.events⟩

/-- Charge an instruction and execute it, or terminate the run where the budget is used up. -/
def execute (m : Machine) (frame : Frame) (routineSize : Nat) (i : Instruction) :
    Reply (Except Fault Bool) :=
  match reached? m.limits.stepBudget m.steps with
  | some budget => (m.terminate (.stepBudgetExceeded i.span budget)).map fun _ => .ok false
  | none =>
    let executed := Event.executed frame i.operation m.stack.size
    (continues (m.charge.perform frame routineSize i)).after executed

/-- One step. The answer is whether another step may follow. -/
def step (m : Machine) : Reply (Except Fault Bool) :=
  if m.isRunning then
    match m.next with
    | .complete => m.complete
    | .lost routine => .silent (.error (.unknownRoutine routine)) m
    | .leave frame => ⟨.ok true, m.leave, [.returnedImplicitly frame.routine]⟩
    | .execute frame routineSize i => m.execute frame routineSize i
  else .silent (.ok false) m

/-- Steps until one says that no other may follow, but no more than there is fuel for. There is no
answer if the fuel is used up first. -/
def resume : Nat → Machine → Reply (Option (Except Fault Outcome))
  | 0, m => .silent none m
  | fuel + 1, m =>
    let r := m.step
    match r.answer with
    | .ok true => (resume fuel r.machine).afterAll r.events
    | .ok false => ⟨some (.ok r.machine.outcome), r.machine, r.events⟩
    | .error fault => ⟨some (.error fault), r.machine, r.events⟩

/-- A run, from wherever the machine is, of no more steps than there is fuel for. -/
def run (fuel : Nat) (m : Machine) : Reply (Option (Except Fault Outcome)) :=
  let entered := Event.runEntered m.program.size
  (resume fuel m).after entered

theorem resume_succ_of_continue {m : Machine} (fuel : Nat) (h : m.step.answer = .ok true) :
    resume (fuel + 1) m = (resume fuel m.step.machine).afterAll m.step.events := by
  rw [resume]
  rw [h]

theorem resume_succ_of_stop {m : Machine} (fuel : Nat) (h : m.step.answer = .ok false) :
    resume (fuel + 1) m = ⟨some (.ok m.step.machine.outcome), m.step.machine, m.step.events⟩ := by
  rw [resume]
  rw [h]

theorem resume_succ_of_fault {m : Machine} {f : Fault} (fuel : Nat)
    (h : m.step.answer = .error f) :
    resume (fuel + 1) m = ⟨some (.error f), m.step.machine, m.step.events⟩ := by
  rw [resume]
  rw [h]

/-- A run that has used up its fuel goes on with more. -/
theorem resume_add {fuel : Nat} {m : Machine} (h : (resume fuel m).answer = none) (more : Nat) :
    resume (fuel + more) m =
      (resume more (resume fuel m).machine).afterAll (resume fuel m).events := by
  induction fuel generalizing m with
  | zero =>
    rw [Nat.zero_add]
    rfl
  | succ fuel ih =>
    rw [Nat.succ_add]
    -- the first step goes on, or else the run would have had an answer
    cases ha : m.step.answer with
    | error f =>
      rw [resume_succ_of_fault fuel ha] at h
      cases h
    | ok continues =>
      cases continues with
      | false =>
        rw [resume_succ_of_stop fuel ha] at h
        cases h
      | true =>
        rw [resume_succ_of_continue fuel ha] at h ⊢
        rw [resume_succ_of_continue (fuel + more) ha, ih h]
        simp [Reply.afterAll]

end ScriptMachine.Machine
