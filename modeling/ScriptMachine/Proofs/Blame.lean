import ScriptMachine.Proofs.Limits.Bounds

/-!
# Reports are about the right instruction

A machine that terminated itself stays at the instruction that it was terminated for: no frame
moves, and the report carries the instruction's span. The cause that it reports can be read off the
machine and the instruction.

* `Machine.Caused`: what each code says of the machine and of the instruction.
* `Steps.blames`: a step that terminates the machine reports the instruction it was at.
* `history_blames`: so does every history of steps and runs.
-/

namespace ScriptMachine.Machine

/-- What the code of a report says of the machine that was terminated, and of the instruction that
it is at. -/
def Caused (m : Machine) (i : Instruction) (d : Diagnostic) : Prop :=
  match d.code with
  | .stepBudgetExceeded => ∃ budget, m.limits.stepBudget = some budget ∧
      m.steps = budget ∧ d.args = [toString budget]
  | .callDepthExceeded => ∃ limit callee, m.limits.callDepth = some limit ∧
      i.operation = .call callee ∧ (m.program.routine? callee).isSome ∧
      m.frames.size = max 1 limit ∧ d.args = [toString limit]
  | .evaluationStackOverflow => ∃ limit, m.limits.evaluationStack = some limit ∧
      ((∃ v, i.operation = .push v) ∨ i.operation = .dup) ∧
      m.stack.size = limit ∧ d.args = [toString limit]
  | .divisionByZero => i.operation = .arithmetic .div ∧ d.args = []
  | .textOperand => ∃ op, i.operation = .arithmetic op ∧ op ≠ .add ∧ d.args = [op.symbol]
  | .arrayOperand => ∃ op, i.operation = .arithmetic op ∧ d.args = [op.symbol]

/-- The report is about the instruction that the frame on top is at, by its span, by its one label
and by its cause. -/
def Blames (m : Machine) (d : Diagnostic) : Prop :=
  ∃ f r i, m.AtInstruction f r i ∧ d.span = i.span ∧
    (∃ message, d.labels = [⟨i.span, message⟩]) ∧ m.Caused i d

variable {l : Limits} {m : Machine}

/-! ## Causes -/

/-- Within the limits, a budget that is used up is used up exactly. -/
theorem Within.steps_eq (hm : m.Within l) {budget : Nat}
    (h : reached? m.limits.stepBudget m.steps = some budget) :
    m.limits.stepBudget = some budget ∧ m.steps = budget := by
  obtain ⟨hlimit, hle⟩ := reached?_eq_some_iff.mp h
  have hwithin := hlimit
  rw [hm.limits] at hwithin
  exact ⟨hlimit, Nat.le_antisymm (hm.steps budget hwithin) hle⟩

/-- Within the limits, a call that finds too many frames finds as many as there may be, or the entry
frame alone. -/
theorem Within.frames_eq (hm : m.Within l) {limit : Nat}
    (h : reached? m.limits.callDepth m.frames.size = some limit) {f : Frame}
    (hf : m.frames.top? = some f) :
    m.limits.callDepth = some limit ∧ m.frames.size = max 1 limit := by
  obtain ⟨hlimit, hle⟩ := reached?_eq_some_iff.mp h
  have hwithin := hlimit
  rw [hm.limits] at hwithin
  have hmax : m.frames.size ≤ max 1 limit := hm.frames limit hwithin
  -- a limit of zero bounds the frames by one, the entry frame, and that one is there
  have hpos : 0 < m.frames.size := by
    rw [Stack.eq_push_pop_of_top? hf, Stack.size_push]
    exact Nat.succ_pos _
  exact ⟨hlimit, by omega⟩

/-- The stack is found full by an instruction that takes nothing from it. -/
theorem Within.stack_eq (hm : m.Within l) {i : Instruction} {rest : Stack Value} {v : Value}
    {limit : Nat} (hop : i.operation.Puts i.span m.stack rest v)
    (h : reached? m.limits.evaluationStack rest.size = some limit) :
    m.limits.evaluationStack = some limit ∧
      ((∃ v, i.operation = .push v) ∨ i.operation = .dup) ∧ rest.size = limit := by
  obtain ⟨hlimit, hle⟩ := reached?_eq_some_iff.mp h
  have hwithin := hlimit
  rw [hm.limits] at hwithin
  have hsize : m.stack.size ≤ limit := hm.stack limit hwithin
  cases hop with
  | push hop hs =>
    rw [hs] at hsize
    exact ⟨hlimit, .inl ⟨v, hop⟩, Nat.le_antisymm hsize hle⟩
  | dup hop hs =>
    rw [hs] at hsize
    exact ⟨hlimit, .inr hop, Nat.le_antisymm hsize hle⟩
  | arithmetic _ hs | compare _ hs =>
    rw [hs, Stack.size_push, Stack.size_push] at hsize
    omega

theorem caused_of_evaluate_error {i : Instruction} {op : ArithmeticOperator} {a b : Value}
    {d : Diagnostic} (hop : i.operation = .arithmetic op)
    (h : op.evaluate a b i.span = .error d) (n : Machine) :
    d.span = i.span ∧ (∃ message, d.labels = [⟨i.span, message⟩]) ∧ n.Caused i d := by
  -- each of the three failures names the operator that it comes from
  rcases ArithmeticOperator.evaluate_error h with rfl | ⟨hadd, rfl⟩ | ⟨rfl, rfl⟩
  · exact ⟨rfl, ⟨_, rfl⟩, op, hop, rfl⟩
  · exact ⟨rfl, ⟨_, rfl⟩, op, hop, hadd, rfl⟩
  · exact ⟨rfl, ⟨_, rfl⟩, hop, rfl⟩

/-! ## Steps -/

/-- An instruction that terminates the machine is the one reported, and its cause is still there. -/
theorem Performs.blames {f : Frame} {r : Routine} {i : Instruction}
    {reply : Reply (Except Fault Unit)} (h : m.charge.Performs f r.size i reply)
    (hm : m.charge.Within l) (hrun : m.status = .running) (hat : m.AtInstruction f r i)
    {d : Diagnostic} (hd : reply.machine.status = .terminated d) : reply.machine.Blames d := by
  -- the frames of a machine that is terminated stay, and with them the place it is at
  cases h with
  | underflow | outOfBounds | unknownCallee | put | moved | called | left =>
    exact absurd hd (ne_terminated_of_running hrun)
  | @overflow rest v limit hop hfull =>
    cases hd
    obtain ⟨hlimit, hputs, hsize⟩ := hm.stack_eq hop hfull
    exact ⟨f, r, i, hat.congr rfl rfl, rfl, ⟨_, rfl⟩, limit, hlimit, hputs, hsize, rfl⟩
  | failed hop hs hfail =>
    cases hd
    exact ⟨f, r, i, hat.congr rfl rfl, caused_of_evaluate_error hop hfail _⟩
  | @tooDeep callee q limit hop hcallee hfull =>
    cases hd
    obtain ⟨hlimit, hsize⟩ := hm.frames_eq hfull hat.frame
    have hexists : (m.program.routine? callee).isSome := Option.isSome_iff_exists.mpr ⟨q, hcallee⟩
    exact ⟨f, r, i, hat.congr rfl rfl, rfl, ⟨_, rfl⟩, limit, callee, hlimit, hop, hexists, hsize,
      rfl⟩

/-- A machine that a step terminates is at what its report is about. -/
theorem Steps.blames {reply : Reply (Except Fault Bool)} (h : m.Steps reply) (hm : m.Within l)
    (hblames : ∀ d, m.status = .terminated d → m.Blames d) {d : Diagnostic}
    (hd : reply.machine.status = .terminated d) : reply.machine.Blames d := by
  cases h with
  | stopped => exact hblames d hd
  | completed => cases hd
  | lost hrun | leftAtEnd hrun => exact absurd hd (ne_terminated_of_running hrun)
  | @refused f n budget i hrun hnext hbudget =>
    cases hd
    obtain ⟨r, -, hat⟩ := atInstruction_of_next hnext
    -- a refused instruction is not charged, so the count is the budget
    obtain ⟨hlimit, hsteps⟩ := hm.steps_eq hbudget
    exact ⟨f, r, i, hat.congr rfl rfl, rfl, ⟨_, rfl⟩, budget, hlimit, hsteps, rfl⟩
  | executed hrun hnext hbudget hperf =>
    obtain ⟨r, rfl, hat⟩ := atInstruction_of_next hnext
    have hd' : (continues _).machine.status = .terminated d := hd
    show (continues _).machine.Blames d
    rw [machine_continues] at hd' ⊢
    exact hperf.blames (hm.charge hbudget) hrun hat hd'

/-! ## Histories -/

/-- The machine runs the program under the limits, and is at what its report is about. -/
structure Accountable (p : Program) (l : Limits) (m : Machine) : Prop where
  program : m.program = p
  within : m.Within l
  blames : ∀ d, m.status = .terminated d → m.Blames d

theorem accountable_start (p : Program) (l : Limits) : (start p l).Accountable p l where
  program := rfl
  within := within_start p l
  blames _ := nofun

theorem Accountable.step {p : Program} (hm : m.Accountable p l) :
    m.step.machine.Accountable p l where
  program := m.steps_step.unchanged.1.trans hm.program
  within := m.steps_step.within hm.within
  blames _ hd := m.steps_step.blames hm.within hm.blames hd

theorem accountable_history (p : Program) (l : Limits) {cs : List HostCall}
    (hcs : ∀ c ∈ cs, c.advances = true) : ((start p l).history cs).machine.Accountable p l :=
  history_invariant (fun m _ hc hm => handle_invariant_of_advances (fun _ hn => hn.step) m hc hm)
    hcs (accountable_start p l)

/-- Whatever steps and runs a machine is put through from its start, also past faults: once it is
terminated, the frame on top is still at the instruction that the report is about, and the report's
cause is there. -/
theorem history_blames (p : Program) (l : Limits) {cs : List HostCall}
    (hcs : ∀ c ∈ cs, c.advances = true) {d : Diagnostic}
    (hd : ((start p l).history cs).machine.status = .terminated d) :
    let m := ((start p l).history cs).machine
    m.program = p ∧ m.limits = l ∧ ∃ f r i, m.AtInstruction f r i ∧ d.span = i.span ∧
      (∃ message, d.labels = [⟨i.span, message⟩]) ∧ m.Caused i d := by
  have hm := accountable_history p l hcs
  exact ⟨hm.program, hm.within.limits, hm.blames d hd⟩

/-- An instruction that faults is charged, and at the end of the budget it is the one reported. -/
theorem history_blames_after_fault :
    let p := Program.single [⟨.pop, ⟨3, 7⟩⟩]
    let m := ((start p ⟨none, some 1, none⟩).history [.step, .run 5]).machine
    (∀ c ∈ [HostCall.step, .run 5], c.advances = true) ∧
      m.status = .terminated (.stepBudgetExceeded ⟨3, 7⟩ 1) ∧
      ∃ f r i, m.AtInstruction f r i ∧ i.span = ⟨3, 7⟩ ∧ m.steps = 1 := by
  intro p m
  have hcs : ∀ c ∈ [HostCall.step, .run 5], c.advances = true := by decide
  have hd : m.status = .terminated (.stepBudgetExceeded ⟨3, 7⟩ 1) := rfl
  obtain ⟨-, hlimits, f, r, i, hat, hspan, -, budget, hbudget, hsteps, -⟩ :=
    history_blames p ⟨none, some 1, none⟩ hcs hd
  rw [hlimits] at hbudget
  cases hbudget
  exact ⟨hcs, hd, f, r, i, hat, hspan.symm, hsteps⟩

end ScriptMachine.Machine
