import ScriptMachine.Proofs.Limits.Bounds

/-!
# Limits are not seen until one is hit

A machine under limits does what the same machine does under wider limits, or under none, until a
call ends its run at a limit of its own. Limits are only ever compared with a count, so every rule
that applies below a limit applies with the limit raised.

* `Limits.AtMost`: limits that are wider, or left out.
* `Machine.under`: the same machine with other limits.
* `Machine.HitsLimit`, `Machine.StopsAtLimit`: a call that ends the run at a limit, and what the
  machine without limits does in its place.
* `Steps.under`, `handle_under`, `history_under`: a step, a call and a history with wider limits.
* `limits_transparent`: whole histories and runs, with limits and without.
-/

namespace ScriptMachine

/-- The causes of a termination at a limit of the machine, and not at an operator. -/
def ErrorCode.isLimit : ErrorCode → Bool
  | callDepthExceeded => true
  | evaluationStackOverflow => true
  | stepBudgetExceeded => true
  | _ => false

/-! ## Wider limits -/

/-- A limit that is no wider than another one; a limit that is left out is the widest. -/
def IsNoWider (limit other : Option Nat) : Prop :=
  ∀ n, other = some n → ∃ k, limit = some k ∧ k ≤ n

/-- Every limit of `l` is set where that of `l'` is, and is not above it. -/
structure Limits.AtMost (l l' : Limits) : Prop where
  callDepth : IsNoWider l.callDepth l'.callDepth
  stepBudget : IsNoWider l.stepBudget l'.stepBudget
  evaluationStack : IsNoWider l.evaluationStack l'.evaluationStack

/-- Where every limit is left out, limits are as wide as they can be. -/
theorem Limits.atMost_unbounded (l : Limits) : l.AtMost .unbounded where
  callDepth := nofun
  stepBudget := nofun
  evaluationStack := nofun

/-- A count that is below a limit is below every wider one. -/
theorem IsNoWider.reached?_eq_none {limit other : Option Nat} (h : IsNoWider limit other)
    {count : Nat} (hc : reached? limit count = none) : reached? other count = none := by
  rw [reached?_eq_none_iff] at hc ⊢
  intro n hn
  obtain ⟨k, hk, hkn⟩ := h n hn
  exact Nat.lt_of_lt_of_le (hc k hk) hkn

/-- The machine with other limits. -/
def Machine.under (m : Machine) (l : Limits) : Machine :=
  { m with limits := l }

/-- The reply with the machine under other limits. -/
def Reply.under {α : Type} (r : Reply α) (l : Limits) : Reply α :=
  { r with machine := r.machine.under l }

namespace Machine

variable {m : Machine} {l' : Limits}

/-! ## One step -/

/-- An instruction that is not stopped at a limit does the same under wider limits. -/
theorem Performs.under {f : Frame} {n : Nat} {i : Instruction} {r : Reply (Except Fault Unit)}
    (h : m.Performs f n i r) (hl : m.limits.AtMost l')
    (hclear : ∀ d, r.machine.status = .terminated d → d.code.isLimit = false) :
    (m.under l').Performs f n i (r.under l') := by
  cases h with
  | underflow hs => exact .underflow hs
  | outOfBounds hs hop ht => exact .outOfBounds hs hop ht
  | unknownCallee hop hr => exact .unknownCallee hop hr
  | put hop hroom => exact .put hop (hl.evaluationStack.reached?_eq_none hroom)
  -- the rules that stop at a limit are ruled out, and the others have only more room
  | overflow => cases hclear _ rfl
  | failed hop hs hd => exact .failed hop hs hd
  | moved hop => exact .moved hop
  | tooDeep => cases hclear _ rfl
  | called hop hr hroom => exact .called hop hr (hl.callDepth.reached?_eq_none hroom)
  | left hop => exact .left hop

/-- The answer of a step does not depend on limits. -/
theorem continues_under (r : Reply (Except Fault Unit)) :
    continues (r.under l') = (continues r).under l' := by
  obtain ⟨answer, n, es⟩ := r
  cases answer <;> rfl

/-- A step that is not stopped at a limit does the same under wider limits. -/
theorem Steps.under {r : Reply (Except Fault Bool)} (h : m.Steps r) (hl : m.limits.AtMost l')
    (hclear : m.status = .running →
      ∀ d, r.machine.status = .terminated d → d.code.isLimit = false) :
    (m.under l').Steps (r.under l') := by
  cases h with
  | stopped hm => exact .stopped hm
  | completed hm hnext => exact .completed hm hnext
  | lost hm hnext => exact .lost hm hnext
  | leftAtEnd hm hnext => exact .leftAtEnd hm hnext
  | refused hm => cases hclear hm _ rfl
  | @executed f n i r hm hnext hbudget hr =>
    -- the instruction is not stopped either, since its machine is that of the step
    have hr' : (m.charge.under l').Performs f n i (r.under l') := by
      refine hr.under hl fun d hd => hclear hm d ?_
      show (continues r).machine.status = .terminated d
      rwa [machine_continues]
    have h := Steps.executed (m := m.under l') hm hnext (hl.stepBudget.reached?_eq_none hbudget) hr'
    rwa [continues_under] at h

/-- The step that the machine makes is the one that the rules allow it under the wider limits. -/
theorem step_under (hl : m.limits.AtMost l')
    (hclear : m.status = .running →
      ∀ d, m.step.machine.status = .terminated d → d.code.isLimit = false) :
    (m.under l').step = m.step.under l' :=
  (m.steps_step.under hl hclear).eq

/-- A run that is not stopped at a limit does the same under wider limits. By induction on the fuel:
no limit stops a step that another one follows, and the last step is that of the run. -/
theorem resume_under (hl : m.limits.AtMost l') (fuel : Nat)
    (hclear : m.status = .running →
      ∀ d, (resume fuel m).machine.status = .terminated d → d.code.isLimit = false) :
    resume fuel (m.under l') = (resume fuel m).under l' := by
  induction fuel generalizing m with
  | zero => rfl
  | succ fuel ih =>
    cases ha : m.step.answer with
    | error f =>
      rw [resume_succ_of_fault fuel ha] at hclear ⊢
      have hs := step_under hl hclear
      rw [resume_succ_of_fault fuel (by rw [hs]; exact ha), hs]
      rfl
    | ok b => cases b with
      | false =>
        rw [resume_succ_of_stop fuel ha] at hclear ⊢
        have hs := step_under hl hclear
        rw [resume_succ_of_stop fuel (by rw [hs]; exact ha), hs]
        rfl
      | true =>
        -- the step lets the run go on, so that it has not terminated it
        have hrun := isRunning_iff.mp (m.steps_step.answer_eq ha).symm
        have hs : (m.under l').step = m.step.under l' := by
          refine step_under hl fun _ d hd => ?_
          rw [hrun] at hd
          cases hd
        rw [resume_succ_of_continue fuel ha] at hclear ⊢
        -- the induction goes on from a machine with the same limits
        have hl' : m.step.machine.limits.AtMost l' := by rwa [m.steps_step.unchanged.2]
        have hrest := ih hl' fun _ => hclear (m.steps_step.running_of_continue ha)
        rw [resume_succ_of_continue fuel (by rw [hs]; exact ha), hs]
        show (resume fuel (m.step.machine.under l')).afterAll m.step.events = _
        rw [hrest]
        rfl

/-! ## One call -/

/-- The call ends the run, which the host does not, and does so at one of the machine's limits. -/
def HitsLimit (m : Machine) (c : HostCall) : Prop :=
  m.status = .running ∧ (∀ d, c ≠ .terminate d) ∧
    ∃ d, (m.handle c).machine.status = .terminated d ∧ d.code.isLimit = true

/-- The run that a call ends without the host's doing is not ended at a limit, unless the call hits
one. -/
theorem isLimit_of_not_hitsLimit {c : HostCall} (h : ¬ m.HitsLimit c)
    (hc : ∀ d, c ≠ .terminate d) (hm : m.status = .running) {d : Diagnostic}
    (hd : (m.handle c).machine.status = .terminated d) : d.code.isLimit = false := by
  cases hlimit : d.code.isLimit with
  | false => rfl
  | true => exact absurd ⟨hm, hc, d, hd, hlimit⟩ h

/-- A value that finds room finds it under wider limits. -/
theorem pushAndAdvance_under (hl : m.limits.AtMost l') {v : Value} {span : Span}
    (hm : m.status = .running)
    (hclear : ∀ d, (m.pushAndAdvance v span).machine.status = .terminated d →
      d.code.isLimit = false) :
    (m.under l').pushAndAdvance v span = (m.pushAndAdvance v span).under l' := by
  cases hr : reached? m.limits.evaluationStack m.stack.size with
  | none =>
    have hr' : reached? (m.under l').limits.evaluationStack (m.under l').stack.size = none :=
      hl.evaluationStack.reached?_eq_none hr
    rw [pushAndAdvance_of_room hr, pushAndAdvance_of_room hr']
    rfl
  | some limit =>
    -- a full stack ends the run at a limit, which is ruled out
    rw [pushAndAdvance_of_full hr, terminate_of_running hm] at hclear
    cases hclear _ rfl

/-- A termination has nothing to do with limits. -/
theorem terminate_under (d : Diagnostic) :
    (m.under l').terminate d = (m.terminate d).under l' := by
  cases hm : m.status with
  | running => rw [terminate_of_running hm, terminate_of_running (m := m.under l') hm]; rfl
  | completed | terminated =>
    have hm' := hm
    change (m.under l').status = _ at hm'
    rw [terminate, terminate, hm', hm]
    rfl

/-- An operator of the host's own has the same result under all limits, and finds room under wider
ones. -/
theorem applyArithmetic_under (hl : m.limits.AtMost l') {a b : Value} {op : ArithmeticOperator}
    {span : Span}
    (hclear : m.status = .running →
      ∀ d, (m.applyArithmetic a op b span).machine.status = .terminated d →
        d.code.isLimit = false) :
    (m.under l').applyArithmetic a op b span = (m.applyArithmetic a op b span).under l' := by
  by_cases hm : m.status = .running
  · have hm' : (m.under l').status = .running := hm
    have hclear' := hclear hm
    cases hv : op.evaluate a b span with
    | ok v =>
      rw [applyArithmetic_of_ok hm hv] at hclear' ⊢
      rw [applyArithmetic_of_ok hm' hv]
      exact pushAndAdvance_under hl hm hclear'
    | error d =>
      rw [applyArithmetic_of_error hm hv, applyArithmetic_of_error hm' hv]
      exact terminate_under d
  · have hm' : (m.under l').status ≠ .running := hm
    rw [applyArithmetic_of_stopped hm, applyArithmetic_of_stopped hm']
    rfl

/-- A comparison of the host's own has the same result under all limits, and finds room under wider
ones. -/
theorem applyComparison_under (hl : m.limits.AtMost l') {a b : Value} {op : ComparisonOperator}
    {span : Span}
    (hclear : m.status = .running →
      ∀ d, (m.applyComparison a op b span).machine.status = .terminated d →
        d.code.isLimit = false) :
    (m.under l').applyComparison a op b span = (m.applyComparison a op b span).under l' := by
  by_cases hm : m.status = .running
  · have hm' : (m.under l').status = .running := hm
    have hclear' := hclear hm
    rw [applyComparison_of_running hm] at hclear' ⊢
    rw [applyComparison_of_running hm']
    exact pushAndAdvance_under hl hm hclear'
  · have hm' : (m.under l').status ≠ .running := hm
    rw [applyComparison_of_stopped hm, applyComparison_of_stopped hm']
    rfl

/-- A call that hits no limit does the same under wider limits. -/
theorem handle_under (hl : m.limits.AtMost l') {c : HostCall} (h : ¬ m.HitsLimit c) :
    (m.under l').handle c = (m.handle c).under l' := by
  cases c with
  | step =>
    -- of each call: what it is made of does the same, and so does the call
    have hs := step_under hl fun hm d hd => isLimit_of_not_hitsLimit h nofun hm hd
    show (m.under l').step.map HostAnswer.stepped = _
    rw [hs]
    rfl
  | run fuel =>
    have hr := resume_under hl fuel fun hm d hd => isLimit_of_not_hitsLimit h nofun hm hd
    show ((resume fuel (m.under l')).after (.runEntered m.program.size)).map HostAnswer.ran = _
    rw [hr]
    rfl
  | terminate d =>
    show ((m.under l').terminate d).map (fun _ => HostAnswer.done) = _
    rw [terminate_under]
    rfl
  | arithmetic a op b span =>
    have ha := applyArithmetic_under hl fun hm d hd => isLimit_of_not_hitsLimit h nofun hm hd
    show ((m.under l').applyArithmetic a op b span).map (fun _ => HostAnswer.done) = _
    rw [ha]
    rfl
  | comparison a op b span =>
    have ha := applyComparison_under hl fun hm d hd => isLimit_of_not_hitsLimit h nofun hm hd
    show ((m.under l').applyComparison a op b span).map (fun _ => HostAnswer.done) = _
    rw [ha]
    rfl

/-! ## Histories -/

/-- No call of the history hits a limit. -/
def ClearOfLimits : List HostCall → Machine → Prop
  | [], _ => True
  | c :: cs, m => ¬ m.HitsLimit c ∧ ClearOfLimits cs (m.handle c).machine

/-- A history that hits no limit is the same under wider limits, call by call. -/
theorem history_under (hl : m.limits.AtMost l') {cs : List HostCall}
    (h : ClearOfLimits cs m) : (m.under l').history cs = (m.history cs).under l' := by
  induction cs generalizing m with
  | nil => rfl
  | cons c cs ih =>
    -- no call exchanges the limits, so that the rest is still under limits that are no wider
    have hc := handle_under hl h.1
    have hl' : (m.handle c).machine.limits.AtMost l' := by rwa [(m.handle_unchanged c).2]
    have hcs := ih hl' h.2
    show ((history cs ((m.under l').handle c).machine).afterAll _).map _ = _
    rw [hc]
    show (((history cs ((m.handle c).machine.under l')).afterAll _).map _) = _
    rw [hcs]
    rfl

/-! ## The call that hits a limit -/

/-- The call computes the value `v`, reported at `span`, which is to be put on the values `rest`. -/
inductive PutsBy (m : Machine) (rest : Stack Value) (v : Value) (span : Span) :
    HostCall → Prop where
  | step {f : Frame} {n : Nat} {i : Instruction} (hnext : m.next = .execute f n i)
      (hop : i.operation.Puts i.span m.stack rest v) (hspan : i.span = span) :
      PutsBy m rest v span .step
  | arithmetic {a b : Value} {op : ArithmeticOperator} (hrest : rest = m.stack)
      (hv : op.evaluate a b span = .ok v) : PutsBy m rest v span (.arithmetic a op b span)
  | comparison {a b : Value} {op : ComparisonOperator} (hrest : rest = m.stack)
      (hv : op.evaluate a b = v) : PutsBy m rest v span (.comparison a op b span)

/-- A call ends the run of `m` at a limit, while `n`, which has no limits, goes on: it counts one
more instruction, unless its count is the greatest, enters one more routine, or puts one more value
on its stack. -/
inductive StopsAtLimit (m n : Machine) (c : HostCall) : Prop where
  | stepBudget {f : Frame} {k budget : Nat} {i : Instruction} (hc : c = .step)
      (hnext : n.next = .execute f k i) (hlimit : m.limits.stepBudget = some budget)
      (hfull : m.steps = budget)
      (hstop : (m.handle c).machine =
        { m with status := .terminated (.stepBudgetExceeded i.span budget) })
      (hexecuted : .executed f i.operation n.stack.size ∈ (n.handle c).events)
      (hcharged : (n.handle c).machine.steps =
        if n.steps < maxSteps then n.steps + 1 else n.steps)
  | callDepth {f : Frame} {k limit : Nat} {i : Instruction} {callee : RoutineId} {r : Routine}
      (hc : c = .step) (hnext : n.next = .execute f k i) (hop : i.operation = .call callee)
      (hcallee : n.program.routine? callee = some r) (hlimit : m.limits.callDepth = some limit)
      (hfull : limit ≤ n.frames.size)
      (hstop : (m.handle c).machine.status = .terminated (.callDepthExceeded i.span limit))
      (hentered : (n.handle c).machine =
        { n with
          steps := if n.steps < maxSteps then n.steps + 1 else n.steps
          frames := (n.frames.modifyTop Frame.advance).push (.start callee) })
  | evaluationStack {rest : Stack Value} {v : Value} {span : Span} {limit : Nat}
      (hc : n.PutsBy rest v span c) (hlimit : m.limits.evaluationStack = some limit)
      (hfull : limit ≤ rest.size)
      (hstop : (m.handle c).machine.status = .terminated (.evaluationStackOverflow span limit))
      (hput : (n.handle c).machine.stack = rest.push v)
      (hrun : (n.handle c).machine.status = .running)

/-- A machine without limits executes the instruction that it is at, as no budget refuses it. -/
theorem step_unbounded (hm : m.status = .running) {f : Frame} {n : Nat} {i : Instruction}
    (hnext : m.next = .execute f n i) {r : Reply (Except Fault Unit)}
    (hr : (m.under .unbounded).charge.Performs f n i r) :
    (m.under .unbounded).step = (continues r).after (.executed f i.operation m.stack.size) :=
  (Steps.executed (m := m.under .unbounded) hm hnext rfl hr).eq

/-- Where a value ends a run, the stack was full, and the report gives the limit. -/
theorem terminated_pushAndAdvance (hm : m.status = .running) {v : Value} {span : Span}
    {d : Diagnostic} (hd : (m.pushAndAdvance v span).machine.status = .terminated d) :
    ∃ limit, m.limits.evaluationStack = some limit ∧ limit ≤ m.stack.size ∧
      d = .evaluationStackOverflow span limit := by
  cases hr : reached? m.limits.evaluationStack m.stack.size with
  | none =>
    rw [pushAndAdvance_of_room hr] at hd
    have hd' : m.status = .terminated d := hd
    rw [hm] at hd'
    cases hd'
  | some limit =>
    rw [pushAndAdvance_of_full hr, terminate_of_running hm] at hd
    cases hd
    obtain ⟨hlimit, hfull⟩ := reached?_eq_some_iff.mp hr
    exact ⟨limit, hlimit, hfull, rfl⟩

/-- What an operator reports is about its operands. -/
theorem isLimit_of_evaluate_error {op : ArithmeticOperator} {a b : Value} {span : Span}
    {d : Diagnostic} (h : op.evaluate a b span = .error d) : d.code.isLimit = false := by
  rcases ArithmeticOperator.evaluate_error h with rfl | ⟨-, rfl⟩ | ⟨-, rfl⟩ <;> rfl

/-- A step that hits a limit would have been one instruction, one routine or one value too many, and
is made without limits. -/
theorem stopsAtLimit_step {l : Limits} (hm : m.Within l) (h : m.HitsLimit .step) :
    m.StopsAtLimit (m.under .unbounded) .step := by
  obtain ⟨hrun, -, d, hd, hlimit⟩ := h
  have hd' : m.step.machine.status = .terminated d := hd
  -- one case for each reason that a step has to end a run
  cases m.steps_step.terminatesWith hrun hd' with
  | @budget f k budget i hnext hfull hreport =>
    obtain ⟨hbudget, hle⟩ := reached?_eq_some_iff.mp hfull
    -- within its limits the machine has charged no more than the budget
    have hge : m.steps ≤ budget := hm.steps budget (hm.limits ▸ hbudget)
    have hn := step_unbounded hrun hnext
      (performs_perform (m := (m.under .unbounded).charge) hrun f k i)
    have hstop := (Steps.refused hrun hnext hfull).eq
    refine .stepBudget rfl hnext hbudget (Nat.le_antisymm hge hle) ?_ ?_ ?_
    · show m.step.machine = _
      rw [hstop]
    · show _ ∈ (m.under .unbounded).step.events
      rw [hn]
      exact List.mem_cons_self
    · show (m.under .unbounded).step.machine.steps = _
      rw [hn]
      show (continues _).machine.steps = _
      rw [machine_continues]
      exact (performs_perform (m := (m.under .unbounded).charge) hrun f k i).unchanged.2.2
  | @overflow f k limit i rest v hnext hop hfull hreport =>
    obtain ⟨hstack, hle⟩ := reached?_eq_some_iff.mp hfull
    have hn := step_unbounded hrun hnext (.put hop rfl)
    refine .evaluationStack (.step hnext hop rfl) hstack hle (hreport ▸ hd) ?_ ?_
    · show (m.under .unbounded).step.machine.stack = _
      rw [hn]
      rfl
    · show (m.under .unbounded).step.machine.status = _
      rw [hn]
      exact hrun
  | failed hnext hop hs hfail =>
    -- an operator reports its operands, never a limit
    rw [isLimit_of_evaluate_error hfail] at hlimit
    cases hlimit
  | @tooDeep f k limit i callee r hnext hop hcallee hfull hreport =>
    obtain ⟨hdepth, hle⟩ := reached?_eq_some_iff.mp hfull
    have hn := step_unbounded hrun hnext (.called hop hcallee rfl)
    refine .callDepth rfl hnext hop hcallee hdepth hle (hreport ▸ hd) ?_
    show (m.under .unbounded).step.machine = _
    rw [hn]
    rfl

/-- A value of the host's own that hits a limit is put on the stack without limits. -/
theorem stopsAtLimit_of_put (hrun : m.status = .running) {c : HostCall} {v : Value} {span : Span}
    (hputs : (m.under .unbounded).PutsBy m.stack v span c)
    (hm : (m.handle c).machine = (m.pushAndAdvance v span).machine)
    (hn : ((m.under .unbounded).handle c).machine =
      ((m.under .unbounded).pushAndAdvance v span).machine)
    {d : Diagnostic} (hd : (m.handle c).machine.status = .terminated d) :
    m.StopsAtLimit (m.under .unbounded) c := by
  have hd' := hd
  rw [hm] at hd'
  obtain ⟨limit, hstack, hfull, rfl⟩ := terminated_pushAndAdvance hrun hd'
  rw [pushAndAdvance_of_room rfl] at hn
  refine .evaluationStack hputs hstack hfull hd ?_ ?_
  · rw [hn]
    rfl
  · rw [hn]
    exact hrun

/-- A call that hits a limit would have gone beyond it, and does so without limits. -/
theorem stopsAtLimit_of_hitsLimit {l : Limits} (hm : m.Within l) {c : HostCall}
    (h : m.HitsLimit c) (hc : ∀ fuel, c ≠ .run fuel) :
    m.StopsAtLimit (m.under .unbounded) c := by
  cases c with
  | step => exact stopsAtLimit_step hm h
  | run fuel => exact absurd rfl (hc fuel)
  | terminate d => exact absurd rfl (h.2.1 d)
  | arithmetic a op b span =>
    -- an operator of the host's own can only meet a full stack
    obtain ⟨hrun, -, d, hd, hlimit⟩ := h
    have hd' : (m.applyArithmetic a op b span).machine.status = .terminated d := hd
    cases hv : op.evaluate a b span with
    | error e =>
      rw [applyArithmetic_of_error hrun hv, terminate_of_running hrun] at hd'
      cases hd'
      rw [isLimit_of_evaluate_error hv] at hlimit
      cases hlimit
    | ok v =>
      have hm := congrArg Reply.machine (applyArithmetic_of_ok hrun hv)
      have hn := congrArg Reply.machine (applyArithmetic_of_ok (m := m.under .unbounded) hrun hv)
      exact stopsAtLimit_of_put hrun (.arithmetic rfl hv) hm hn hd
  | comparison a op b span =>
    obtain ⟨hrun, -, d, hd, hlimit⟩ := h
    exact stopsAtLimit_of_put hrun (.comparison rfl rfl)
      (congrArg Reply.machine (applyComparison_of_running hrun))
      (congrArg Reply.machine (applyComparison_of_running (m := m.under .unbounded) hrun)) hd

/-- A machine under limits and one without are alike along every history, up to the first call at
which the one under limits stops at a limit that the other goes beyond; and the outcome of a run
that no limit stops is the outcome under all wider limits. -/
theorem limits_transparent (p : Program) (l : Limits) :
    (∀ cs, ClearOfLimits cs (start p l) →
      let limited := (start p l).history cs
      let free := (start p .unbounded).history cs
      limited.answer = free.answer ∧ limited.machine.stack = free.machine.stack ∧
        limited.machine.frames = free.machine.frames ∧
        limited.machine.status = free.machine.status ∧
        limited.machine.steps = free.machine.steps) ∧
    (∀ cs c, ClearOfLimits cs (start p l) → (∀ fuel, c ≠ .run fuel) →
      ((start p l).history cs).machine.HitsLimit c →
      StopsAtLimit ((start p l).history cs).machine ((start p .unbounded).history cs).machine c) ∧
    ∀ l' fuel, l.AtMost l' →
      (∀ d, (run fuel (start p l)).answer = some (.ok (.terminated d)) → d.code.isLimit = false) →
      (run fuel (start p l')).answer = (run fuel (start p l)).answer := by
  -- up to the first limit the two machines differ in nothing but their limits
  have hfree : ∀ cs, ClearOfLimits cs (start p l) →
      (start p .unbounded).history cs = ((start p l).history cs).under .unbounded :=
    fun cs h => history_under (m := start p l) l.atMost_unbounded h
  refine ⟨fun cs h => ?_, fun cs c h hc hhit => ?_, fun l' fuel hl hclear => ?_⟩
  · rw [hfree cs h]
    exact ⟨rfl, rfl, rfl, rfl, rfl⟩
  · rw [hfree cs h]
    exact stopsAtLimit_of_hitsLimit (within_history p l cs) hhit hc
  · have hr : resume fuel (start p l') = (resume fuel (start p l)).under l' :=
      resume_under (m := start p l) hl fuel fun hm d hd =>
        hclear d (resume_answer_of_terminated hm hd)
    show (resume fuel (start p l')).answer = _
    rw [hr]
    rfl

/-- With room for one value the second of two is refused, and put there without limits; with room
for two the run is as it would be without limits. -/
theorem limits_transparent_two_values :
    let value := Instruction.synthetic (.push (.array []))
    let p := Program.single [value, value]
    let free := ((start p .unbounded).history [.step]).machine
    ((start p ⟨none, none, some 1⟩).history [.step]).answer =
        ((start p .unbounded).history [.step]).answer ∧
      StopsAtLimit ((start p ⟨none, none, some 1⟩).history [.step]).machine free .step ∧
      (run 4 (start p .unbounded)).answer = (run 4 (start p ⟨none, none, some 2⟩)).answer := by
  have hrun : ∀ d, (run 4 (start (.single [.synthetic (.push (.array [])),
      .synthetic (.push (.array []))]) ⟨none, none, some 2⟩)).answer ≠
        some (.ok (.terminated d)) := by
    intro d hd
    cases hd
  intro value p free
  have hclear : ClearOfLimits [.step] (start p ⟨none, none, some 1⟩) := by
    refine ⟨?_, trivial⟩
    rintro ⟨-, -, d, hd, -⟩
    cases hd
  refine ⟨((limits_transparent p ⟨none, none, some 1⟩).1 [.step] hclear).1, ?_, ?_⟩
  · exact (limits_transparent p ⟨none, none, some 1⟩).2.1 [.step] .step hclear nofun
      ⟨rfl, nofun, _, rfl, rfl⟩
  · exact (limits_transparent p ⟨none, none, some 2⟩).2.2 .unbounded 4
      (Limits.atMost_unbounded _) fun d hd => absurd hd (hrun d)

end Machine

end ScriptMachine
