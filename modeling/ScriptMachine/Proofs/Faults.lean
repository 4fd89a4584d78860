import ScriptMachine.Proofs.Rules

/-!
# Faults

A step of a machine that runs faults for a reason that can be read off the machine before it: the
routine of the frame on top is not there, or the instruction has too few operands, a target beyond
the end of its routine, or a callee that is not there. Nothing is consumed but a step of the budget.

* `Machine.Faults`: the reasons for a fault.
* `step_error_iff`: a step faults for these reasons, and only for them.
* `fault_consumes_nothing`: what a fault says, and that it leaves the machine as it was.
-/

namespace ScriptMachine.Machine

/-- What is wrong with the instruction that comes next, or with the frame on top. An instruction is
looked at only as long as the budget lasts, and its operands before all else. -/
inductive Faults (m : Machine) : Fault → Prop where
  | lost {f : Frame} (hf : m.frames.top? = some f)
      (hroutine : m.program.routine? f.routine = none) : Faults m (.unknownRoutine f.routine)
  | underflow {f : Frame} {r : Routine} {i : Instruction} (hat : m.AtInstruction f r i)
      (hbudget : reached? m.limits.stepBudget m.steps = none)
      (hs : m.stack.size < i.operands) : Faults m (.stackUnderflow f.routine f.counter)
  | outOfBounds {f : Frame} {r : Routine} {i : Instruction} {target : Nat}
      (hat : m.AtInstruction f r i) (hbudget : reached? m.limits.stepBudget m.steps = none)
      (hs : i.operands ≤ m.stack.size) (hop : target ∈ i.operation.targets)
      (htarget : r.size < target) : Faults m (.jumpOutOfBounds f.routine target)
  | unknownCallee {f : Frame} {r : Routine} {i : Instruction} {callee : RoutineId}
      (hat : m.AtInstruction f r i) (hbudget : reached? m.limits.stepBudget m.steps = none)
      (hop : i.operation = .call callee) (hcallee : m.program.routine? callee = none) :
      Faults m (.unknownRoutine callee)

variable {m : Machine} {fault : Fault}

/-! ## Steps that fault -/

theorem Performs.faults {f : Frame} {r : Routine} {i : Instruction}
    {reply : Reply (Except Fault Unit)} (h : m.charge.Performs f r.size i reply)
    (hat : m.AtInstruction f r i) (hbudget : reached? m.limits.stepBudget m.steps = none)
    (hfault : reply.answer = .error fault) : reply.machine = m.charge ∧ m.Faults fault := by
  -- the three rules with a fault leave the machine alone, and the others have none
  cases h with
  | underflow hs =>
    cases hfault
    exact ⟨rfl, .underflow hat hbudget hs⟩
  | outOfBounds hs hop htarget =>
    cases hfault
    exact ⟨rfl, .outOfBounds hat hbudget hs hop htarget⟩
  | unknownCallee hop hcallee =>
    cases hfault
    exact ⟨rfl, .unknownCallee hat hbudget hop hcallee⟩
  | put | overflow | failed | moved | tooDeep | called | left => cases hfault

theorem Steps.faults {reply : Reply (Except Fault Bool)} (h : m.Steps reply)
    (hfault : reply.answer = .error fault) :
    reply.machine = { m with steps := reply.machine.steps } ∧ m.Faults fault := by
  cases h with
  | stopped | completed | leftAtEnd | refused => cases hfault
  | lost hm hnext =>
    cases hfault
    obtain ⟨f, hf, rfl, hroutine⟩ := next_eq_lost_iff.mp hnext
    exact ⟨rfl, .lost hf hroutine⟩
  | @executed f n i reply hm hnext hbudget hperf =>
    obtain ⟨r, rfl, hat⟩ := atInstruction_of_next hnext
    obtain ⟨answer, after, events⟩ := reply
    cases answer with
    | ok => cases hfault
    | error g =>
      cases hfault
      -- an instruction was charged and did nothing else
      obtain ⟨hcharge, hfaults⟩ := hperf.faults hat hbudget rfl
      have hcharge' : after = m.charge := hcharge
      rw [hcharge']
      exact ⟨rfl, hfaults⟩

theorem Faults.step (h : m.Faults fault) (hm : m.status = .running) :
    m.step.answer = .error fault := by
  -- each reason is what a rule asks for
  cases h with
  | lost hf hroutine =>
    have hnext := next_eq_lost_iff.mpr ⟨_, hf, rfl, hroutine⟩
    rw [(Steps.lost hm hnext).eq]
    rfl
  | underflow hat hbudget hs =>
    rw [(Steps.executed hm hat.next hbudget (.underflow hs)).eq]
    rfl
  | outOfBounds hat hbudget hs hop htarget =>
    rw [(Steps.executed hm hat.next hbudget (.outOfBounds hs hop htarget)).eq]
    rfl
  | unknownCallee hat hbudget hop hcallee =>
    rw [(Steps.executed hm hat.next hbudget (.unknownCallee hop hcallee)).eq]
    rfl

theorem step_error_iff (hm : m.status = .running) :
    m.step.answer = .error fault ↔ m.Faults fault :=
  ⟨fun h => (m.steps_step.faults h).2, fun h => h.step hm⟩

/-- Too few operands are what an instruction is blamed for, whatever else is wrong with it. -/
theorem Faults.eq_underflow (h : m.Faults fault) {f : Frame} {r : Routine} {i : Instruction}
    (hat : m.AtInstruction f r i) (hs : m.stack.size < i.operands) :
    fault = .stackUnderflow f.routine f.counter := by
  cases h with
  | lost hf hroutine =>
    rw [hat.frame] at hf
    cases hf
    rw [hat.routine] at hroutine
    cases hroutine
  | underflow hat' =>
    obtain ⟨rfl, rfl⟩ := hat.unique hat'
    rfl
  | outOfBounds hat' _ hs' =>
    -- a target is looked at only where the operands are there
    obtain ⟨rfl, rfl⟩ := hat.unique hat'
    omega
  | unknownCallee hat' _ hop =>
    obtain ⟨rfl, rfl⟩ := hat.unique hat'
    rw [Instruction.operands, hop] at hs
    exact absurd hs (Nat.not_lt_zero _)

theorem Faults.routine?_eq_none {id : RoutineId} (h : m.Faults (.unknownRoutine id)) :
    m.program.routine? id = none := by
  cases h with
  | lost hf hroutine => exact hroutine
  | unknownCallee hat hbudget hop hcallee => exact hcallee

/-- A step of a machine that runs faults exactly for the reasons that there are, with the fault
that names the reason. It leaves the machine as it was but for the count of steps; and too few
operands are blamed before anything else. -/
theorem fault_consumes_nothing (hm : m.status = .running) :
    (∀ fault, m.step.answer = .error fault ↔ m.Faults fault) ∧
    ∀ fault, m.step.answer = .error fault →
      m.step.machine = { m with steps := m.step.machine.steps } ∧
      ∀ f r i, m.AtInstruction f r i → m.stack.size < i.operands →
        fault = .stackUnderflow f.routine f.counter := by
  refine ⟨fun fault => step_error_iff hm, fun fault h => ?_⟩
  obtain ⟨hmachine, hfaults⟩ := m.steps_step.faults h
  exact ⟨hmachine, fun f r i hat hs => hfaults.eq_underflow hat hs⟩

/-- A conditional jump beyond the end: with its condition on the stack it is blamed for the target
and leaves the condition there, without one it is blamed for that. -/
theorem fault_consumes_nothing_branch :
    let branch := start (.single [.synthetic (.jumpIfFalse 9)]) .unbounded
    let ready := { branch with stack := Stack.empty.push (.ofBool false) }
    (branch.status = .running ∧ branch.step.answer = .error (.stackUnderflow .entry 0)) ∧
      ready.status = .running ∧ ready.step.answer = .error (.jumpOutOfBounds .entry 9) ∧
      ready.step.machine.stack = Stack.empty.push (.ofBool false) := by
  intro branch ready
  have hat : branch.AtInstruction ⟨.entry, 0⟩ ⟨"main", #[.synthetic (.jumpIfFalse 9)]⟩
      (.synthetic (.jumpIfFalse 9)) := ⟨rfl, rfl, rfl⟩
  have hat' : ready.AtInstruction ⟨.entry, 0⟩ ⟨"main", #[.synthetic (.jumpIfFalse 9)]⟩
      (.synthetic (.jumpIfFalse 9)) := ⟨rfl, rfl, rfl⟩
  obtain ⟨hready, hkept⟩ := fault_consumes_nothing (m := ready) rfl
  have hbounds : ready.step.answer = .error (.jumpOutOfBounds .entry 9) :=
    (hready _).mpr (.outOfBounds hat' rfl (by decide) (List.mem_singleton_self _) (by decide))
  refine ⟨⟨rfl, ?_⟩, rfl, hbounds, ?_⟩
  · exact ((fault_consumes_nothing rfl).1 _).mpr (.underflow hat rfl (by decide))
  · rw [(hkept _ hbounds).1]

end ScriptMachine.Machine
