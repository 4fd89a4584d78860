import ScriptMachine.Proofs.Histories
import ScriptMachine.Proofs.Values.Arithmetic

/-!
# What the limits bound

In every history the evaluation stack, the frames and the steps stay within the limits they have.
The frame of the entry routine is there from the start, so that one frame is always allowed.

* `Machine.Within`: the counts of a machine are within limits.
* `Performs.within`, `Steps.within`: an instruction and a step keep them there.
* `history_bounded`: the bounds of a history. Steps are only ever added, one for each step of the
  machine at most, and an operator of the program never finds the stack full.
-/

namespace ScriptMachine

/-- A count that has not reached its limit is below it. -/
theorem lt_of_reached?_eq_none {limit : Option Nat} {count n : Nat}
    (h : reached? limit count = none) (hn : limit = some n) : count < n :=
  reached?_eq_none_iff.mp h n hn

namespace Machine

/-- The machine has the limits, and none of its counts is over its limit. -/
structure Within (l : Limits) (m : Machine) : Prop where
  limits : m.limits = l
  stack : ∀ n, l.evaluationStack = some n → m.stack.size ≤ n
  frames : ∀ n, l.callDepth = some n → m.frames.size ≤ max 1 n
  steps : ∀ n, l.stepBudget = some n → m.steps ≤ n

/-- At the start there is the frame of the entry routine, and nothing else to be counted. -/
theorem within_start (p : Program) (l : Limits) : (start p l).Within l where
  limits := rfl
  stack n _ := Nat.zero_le n
  frames n _ := Nat.le_max_left 1 n
  steps n _ := Nat.zero_le n

variable {l : Limits} {m : Machine}

/-- Counts that become no larger stay within their limits. -/
theorem Within.of_le {n : Machine} (h : m.Within l) (hl : n.limits = m.limits)
    (hstack : n.stack.size ≤ m.stack.size) (hframes : n.frames.size ≤ m.frames.size)
    (hsteps : n.steps ≤ m.steps) : n.Within l where
  limits := hl.trans h.limits
  stack k hk := Nat.le_trans hstack (h.stack k hk)
  frames k hk := Nat.le_trans hframes (h.frames k hk)
  steps k hk := Nat.le_trans hsteps (h.steps k hk)

/-! ## Steps are counted one by one -/

/-- A charge never lowers the count, also where it is the greatest. -/
theorem steps_le_charge (m : Machine) : m.steps ≤ m.charge.steps := by
  show m.steps ≤ if m.steps < maxSteps then m.steps + 1 else m.steps
  split <;> omega

/-- A charge raises the count by one at most. -/
theorem charge_steps_le (m : Machine) : m.charge.steps ≤ m.steps + 1 := by
  show (if m.steps < maxSteps then m.steps + 1 else m.steps) ≤ m.steps + 1
  split <;> omega

/-- A step charges one instruction or none. -/
theorem Steps.steps_le {r : Reply (Except Fault Bool)} (h : m.Steps r) :
    m.steps ≤ r.machine.steps ∧ r.machine.steps ≤ m.steps + 1 := by
  cases h with
  | executed hm hnext hbudget hr =>
    show m.steps ≤ (continues _).machine.steps ∧ (continues _).machine.steps ≤ m.steps + 1
    rw [machine_continues, hr.unchanged.2.2]
    exact ⟨steps_le_charge m, charge_steps_le m⟩
  | _ => exact ⟨Nat.le_refl _, Nat.le_succ _⟩

/-- The count of instructions only grows, whatever the host does. -/
theorem steps_le_handle (m : Machine) (c : HostCall) : m.steps ≤ (m.handle c).machine.steps := by
  refine handle_invariant (P := fun n => m.steps ≤ n.steps) ?_ ?_ ?_ m c (Nat.le_refl _)
  · intro n hn
    exact Nat.le_trans hn n.steps_step.steps_le.1
  · intro n d hn
    rwa [(n.terminate_unchanged d).2.2]
  · intro n v hn hroom
    exact hn

/-! ## Instructions, steps and calls stay within the limits -/

/-- An instruction is charged below the budget, so the count is within it afterwards. -/
theorem Within.charge (hm : m.Within l) (h : reached? m.limits.stepBudget m.steps = none) :
    m.charge.Within l where
  limits := hm.limits
  stack := hm.stack
  frames := hm.frames
  steps k hk := by
    rw [hm.limits] at h
    have hlt : m.steps < k := lt_of_reached?_eq_none h hk
    exact Nat.le_trans (charge_steps_le m) hlt

/-- A value is put below the limit of the stack, so the size is within it afterwards. -/
theorem Within.put (hm : m.Within l) {rest : Stack Value} (v : Value)
    (h : reached? m.limits.evaluationStack rest.size = none) (move : Frame → Frame) :
    Within l { m with stack := rest.push v, frames := m.frames.modifyTop move } where
  limits := hm.limits
  stack k hk := by
    rw [hm.limits] at h
    rw [Stack.size_push]
    exact lt_of_reached?_eq_none h hk
  frames k hk := by
    rw [Stack.size_modifyTop]
    exact hm.frames k hk
  steps := hm.steps

/-- An instruction adds a value or a frame only below the limit, and otherwise takes some away. -/
theorem Performs.within {f : Frame} {n : Nat} {i : Instruction} {r : Reply (Except Fault Unit)}
    (h : m.Performs f n i r) (hm : m.Within l) : r.machine.Within l := by
  -- a value and a call are the two rules under which a count grows
  cases h with
  | underflow | outOfBounds | unknownCallee | tooDeep =>
    exact hm.of_le rfl (Nat.le_refl _) (Nat.le_refl _) (Nat.le_refl _)
  | put hop hroom => exact hm.put _ hroom Frame.advance
  | overflow hop => exact hm.of_le rfl hop.size_le (Nat.le_refl _) (Nat.le_refl _)
  | failed hop hs =>
    refine hm.of_le rfl ?_ (Nat.le_refl _) (Nat.le_refl _)
    rw [hs, Stack.size_push, Stack.size_push]
    exact Nat.le_add_right _ 2
  | moved hop =>
    refine hm.of_le rfl hop.size_le ?_ (Nat.le_refl _)
    exact Nat.le_of_eq (Stack.size_modifyTop _ _)
  | called hop hcallee hroom =>
    refine ⟨hm.limits, hm.stack, fun k hk => ?_, hm.steps⟩
    -- the call was let through below the limit, and adds one frame
    rw [hm.limits] at hroom
    have hlt : m.frames.size < k := lt_of_reached?_eq_none hroom hk
    rw [Stack.size_push, Stack.size_modifyTop]
    exact Nat.le_trans hlt (Nat.le_max_right 1 k)
  | left => exact hm.of_le rfl (Nat.le_refl _) m.frames.size_pop_le (Nat.le_refl _)

/-- A step adds to a count only where it is below the limit. -/
theorem Steps.within {r : Reply (Except Fault Bool)} (h : m.Steps r) (hm : m.Within l) :
    r.machine.Within l := by
  cases h with
  | stopped | lost => exact hm
  | completed | refused => exact hm.of_le rfl (Nat.le_refl _) (Nat.le_refl _) (Nat.le_refl _)
  | leftAtEnd => exact hm.of_le rfl (Nat.le_refl _) m.frames.size_pop_le (Nat.le_refl _)
  | executed hrun hnext hbudget hr =>
    show (continues _).machine.Within l
    rw [machine_continues]
    exact hr.within (hm.charge hbudget)

/-- A termination counts nothing. -/
theorem Within.terminate (hm : m.Within l) (d : Diagnostic) : (m.terminate d).machine.Within l := by
  unfold Machine.terminate
  cases m.status with
  | running => exact hm.of_le rfl (Nat.le_refl _) (Nat.le_refl _) (Nat.le_refl _)
  | completed | terminated => exact hm

/-- Whatever a host does, the counts stay within the limits. -/
theorem Within.handle (hm : m.Within l) (c : HostCall) : (m.handle c).machine.Within l := by
  refine handle_invariant ?_ ?_ ?_ m c hm
  · intro n hn
    exact n.steps_step.within hn
  · intro n d hn
    exact hn.terminate d
  · intro n v hn hroom
    exact hn.put v hroom Frame.advance

/-- From the start on the counts stay within the limits. -/
theorem within_history (p : Program) (l : Limits) (cs : List HostCall) :
    ((start p l).history cs).machine.Within l :=
  history_invariant (Q := fun _ => True) (fun _ c _ hn => hn.handle c) (fun _ _ => trivial)
    (within_start p l)

/-! ## Operators of the program -/

/-- An operator takes two values from the stack before it puts one there. -/
theorem Within.code_ne_overflow (hm : m.Within l) {f : Frame} {n : Nat} {i : Instruction}
    (hnext : m.next = .execute f n i)
    (hop : (∃ op, i.operation = .arithmetic op) ∨ ∃ op, i.operation = .compare op)
    {d : Diagnostic} (h : m.TerminatesWith d) : d.code ≠ .evaluationStackOverflow := by
  -- of the four reasons for a termination only a full stack has this code
  cases h with
  | budget _ _ hd | tooDeep _ _ _ _ hd =>
    rw [hd]
    nofun
  | failed _ _ _ hd =>
    rcases ArithmeticOperator.evaluate_error hd with rfl | ⟨-, rfl⟩ | ⟨-, rfl⟩ <;> nofun
  | @overflow f' n' limit i' rest v hnext' hputs hfull =>
    rw [hnext] at hnext'
    cases hnext'
    obtain ⟨hlimit, hle⟩ := reached?_eq_some_iff.mp hfull
    rw [hm.limits] at hlimit
    have hsize : m.stack.size ≤ limit := hm.stack limit hlimit
    -- after the two operands are taken there is room for two values, and one is put
    have htwo : m.stack.size = rest.size + 2 := by
      cases hputs with
      | push hpush => rcases hop with ⟨op, h⟩ | ⟨op, h⟩ <;> rw [hpush] at h <;> cases h
      | dup hdup => rcases hop with ⟨op, h⟩ | ⟨op, h⟩ <;> rw [hdup] at h <;> cases h
      | arithmetic _ hs => rw [hs, Stack.size_push, Stack.size_push]
      | compare _ hs => rw [hs, Stack.size_push, Stack.size_push]
    omega

/-- In every history the counts stay within the limits; steps are never taken back and a step adds
one at most; and an operator that the program is at is not stopped by the limit of the stack. -/
theorem history_bounded (p : Program) (l : Limits) (cs : List HostCall) :
    let m := ((start p l).history cs).machine
    (∀ n, l.evaluationStack = some n → m.stack.size ≤ n) ∧
    (∀ n, l.callDepth = some n → m.frames.size ≤ max 1 n) ∧
    (∀ n, l.stepBudget = some n → m.steps ≤ n) ∧
    (∀ c, m.steps ≤ (m.handle c).machine.steps) ∧
    m.step.machine.steps ≤ m.steps + 1 ∧
    ∀ f n i, m.status = .running → m.next = .execute f n i →
      ((∃ op, i.operation = .arithmetic op) ∨ ∃ op, i.operation = .compare op) →
      ∀ d, m.step.machine.status = .terminated d → d.code ≠ .evaluationStackOverflow := by
  intro m
  have hm : m.Within l := within_history p l cs
  refine ⟨hm.stack, hm.frames, hm.steps, steps_le_handle m, m.steps_step.steps_le.2, ?_⟩
  intro f n i hrun hnext hop d hd
  exact hm.code_ne_overflow hnext hop (m.steps_step.terminatesWith hrun hd)

/-- The sum of two arrays is asked for on a stack that is full, and refused for its operands. -/
theorem history_bounded_full_stack :
    ((start (.single [.synthetic (.push (.array [])), .synthetic (.push (.array [])),
        .synthetic (.arithmetic .add)]) ⟨none, none, some 2⟩).history
          [.step, .step]).machine.step.machine.status =
        .terminated (.arrayOperand .synthetic .add) ∧
      (Diagnostic.arrayOperand .synthetic .add).code ≠ .evaluationStackOverflow := by
  refine ⟨rfl, ?_⟩
  obtain ⟨-, -, -, -, -, hop⟩ := history_bounded
    (.single [.synthetic (.push (.array [])), .synthetic (.push (.array [])),
      .synthetic (.arithmetic .add)]) ⟨none, none, some 2⟩ [.step, .step]
  exact hop ⟨⟨0⟩, 2⟩ 3 (.synthetic (.arithmetic .add)) rfl rfl (.inl ⟨.add, rfl⟩) _ rfl

end Machine

end ScriptMachine
