import ScriptMachine.Proofs.Limits.Bounds

/-!
# Stopping is final

A machine that has stopped is left as it is by every call, and answers each with the same outcome.
While it runs it completes for one reason only, that no frame is left, and it is terminated by the
first report that comes: from the host, from an operator, or at a limit.

* `Machine.StoppedWith`, `HostCall.answerAfter`: a machine that has stopped, and what it answers.
* `Machine.Reports`, `step_terminated_iff`: the report of a step.
* `Machine.Delivers`, `handle_terminated_iff`: the report of a call.
* `Machine.FirstReport`, `history_terminated_iff`: the first report of a history.
* `history_final`: what holds of a machine that has stopped, and how it came to stop.
-/

namespace ScriptMachine

/-- The machine has stopped, with the outcome. -/
inductive Machine.StoppedWith (m : Machine) : Outcome → Prop where
  | completed (hm : m.status = .completed) : StoppedWith m (.completed m.stack)
  | terminated {d : Diagnostic} (hm : m.status = .terminated d) : StoppedWith m (.terminated d)

/-- What a call answers on a machine that has stopped with the outcome. A run without fuel makes no
step, and does not see that the machine has stopped. -/
def HostCall.answerAfter (o : Outcome) : HostCall → HostAnswer
  | step => .stepped (.ok false)
  | run 0 => .ran none
  | run (_ + 1) => .ran (some (.ok o))
  | terminate _ => .done
  | arithmetic _ _ _ _ => .done
  | comparison _ _ _ _ => .done

namespace Machine

variable {m : Machine} {c : HostCall} {d : Diagnostic}

/-! ## Machines that have stopped -/

/-- A machine that has stopped does not run. -/
theorem StoppedWith.not_running {o : Outcome} (h : m.StoppedWith o) : m.status ≠ .running := by
  cases h with
  | completed hm | terminated hm =>
    rw [hm]
    nofun

/-- The outcome that a machine has stopped with is the one it gives. -/
theorem StoppedWith.outcome_eq {o : Outcome} (h : m.StoppedWith o) : m.outcome = o := by
  cases h with
  | completed hm | terminated hm => rw [outcome, hm]

/-- On a machine that has stopped every call is answered with the outcome, or done without effect.
-/
theorem StoppedWith.answer_handle {o : Outcome} (h : m.StoppedWith o) (c : HostCall) :
    (m.handle c).answer = c.answerAfter o := by
  cases c with
  | step => exact congrArg (fun r => HostAnswer.stepped r.answer) (step_of_stopped h.not_running)
  | run fuel => cases fuel with
    | zero => rfl
    | succ fuel =>
      have hanswer : (resume (fuel + 1) m).answer = some (.ok o) := by
        rw [resume_of_stopped h.not_running, ← h.outcome_eq]
        rfl
      exact congrArg HostAnswer.ran hanswer
  | terminate | arithmetic | comparison => rfl

/-- However often a machine that has stopped is called, it stays as it is. -/
theorem history_of_stopped {o : Outcome} (h : m.StoppedWith o) (cs : List HostCall) :
    (m.history cs).machine = m ∧ (m.history cs).answer = cs.map (HostCall.answerAfter o) := by
  induction cs with
  | nil => exact ⟨rfl, rfl⟩
  | cons c cs ih =>
    rw [machine_history_cons, answer_history_cons, machine_handle_of_stopped h.not_running,
      h.answer_handle, ih.1, ih.2]
    exact ⟨rfl, rfl⟩

/-! ## How a step stops a machine -/

/-- A step of a machine that runs reports `d`. A budget that is used up comes before whatever the
instruction would report. -/
structure Reports (m : Machine) (d : Diagnostic) : Prop where
  cause : m.TerminatesWith d
  budget : ∀ budget, reached? m.limits.stepBudget m.steps = some budget →
    d.code = .stepBudgetExceeded

/-- Only an instruction can be reported. -/
theorem TerminatesWith.next (h : m.TerminatesWith d) : ∃ f n i, m.next = .execute f n i := by
  cases h with
  | budget hnext | overflow hnext | failed hnext | tooDeep hnext => exact ⟨_, _, _, hnext⟩

/-- A step ends a run with a report exactly if it has a reason for it that the budget does not
precede. -/
theorem step_terminated_iff (hm : m.status = .running) :
    m.step.machine.status = .terminated d ↔ m.Reports d := by
  constructor
  · intro h
    have hcause := m.steps_step.terminatesWith hm h
    refine ⟨hcause, fun budget hbudget => ?_⟩
    -- with the budget used up, no instruction is executed that could report something else
    obtain ⟨f, n, i, hnext⟩ := hcause.next
    rw [(Steps.refused hm hnext hbudget).eq] at h
    cases h
    rfl
  · rintro ⟨hcause, hbudget⟩
    cases hr : reached? m.limits.stepBudget m.steps with
    | some budget =>
      -- no other report has the code of the budget
      have hcode := hbudget budget hr
      cases hcause with
      | budget hnext hfull hd =>
        rw [(Steps.refused hm hnext hfull).eq, hd]
      | overflow _ _ _ hd | tooDeep _ _ _ _ hd =>
        rw [hd] at hcode
        cases hcode
      | failed _ _ _ hd =>
        rcases ArithmeticOperator.evaluate_error hd with rfl | ⟨-, rfl⟩ | ⟨-, rfl⟩ <;> cases hcode
    | none =>
      cases hcause with
      | budget _ hfull =>
        rw [hr] at hfull
        cases hfull
      | overflow hnext hop hfull hd =>
        rw [(Steps.executed hm hnext hr (.overflow hop hfull)).eq, hd]
        rfl
      | failed hnext hop hs hd =>
        rw [(Steps.executed hm hnext hr (.failed hop hs hd)).eq]
        rfl
      | tooDeep hnext hop hcallee hfull hd =>
        rw [(Steps.executed hm hnext hr (.tooDeep hop hcallee hfull)).eq, hd]
        rfl

/-- A step completes a machine that has no frame left, and does nothing else. -/
theorem Steps.completes {r : Reply (Except Fault Bool)} (h : m.Steps r) (hm : m.status = .running)
    (hr : r.machine.status = .completed) :
    m.frames.size = 0 ∧ r.machine = { m with status := .completed } := by
  cases h with
  | stopped hm' => exact absurd hm hm'
  | completed _ hnext => exact ⟨Stack.top?_eq_none_iff.mp (next_eq_complete_iff.mp hnext), rfl⟩
  | lost | leftAtEnd =>
    -- these leave the machine running
    have hr' : m.status = .completed := hr
    rw [hm] at hr'
    cases hr'
  | refused => cases hr
  | executed _ _ _ hperf =>
    have hr' : (continues _).machine.status = .completed := hr
    rw [machine_continues] at hr'
    cases hperf with
    | overflow | failed | tooDeep => cases hr'
    | underflow | outOfBounds | unknownCallee | put | moved | called | left =>
      have hr'' : m.status = .completed := hr'
      rw [hm] at hr''
      cases hr''

/-! ## How a call stops a machine -/

/-- The call delivers the report `d` to a machine that runs: it is the host's, or that of an
operator of the host, or that of the first step to report something. -/
inductive Delivers (m : Machine) (d : Diagnostic) (c : HostCall) : Prop where
  | host (hc : c = .terminate d)
  | failed {span : Span} (hc : c.result? = some (.error d, span))
  | overflow {v : Value} {span : Span} {limit : Nat} (hc : c.result? = some (.ok v, span))
      (hfull : reached? m.limits.evaluationStack m.stack.size = some limit)
      (hd : d = .evaluationStackOverflow span limit)
  | step {k : Nat} {n : Machine} (hk : k < c.steps) (hn : Reaches k m n) (hreport : n.Reports d)

/-- A run is ended by the first of its steps that has something to report. -/
theorem resume_terminated_iff (hm : m.status = .running) (fuel : Nat) :
    (resume fuel m).machine.status = .terminated d ↔
      ∃ k n, k < fuel ∧ Reaches k m n ∧ n.Reports d := by
  constructor
  · intro h
    obtain ⟨k, n, hk, hreaches, hn, hstep⟩ := resume_stopped hm (by rw [h]; nofun)
    rw [← hstep] at h
    exact ⟨k, n, hk, hreaches, (step_terminated_iff hn).mp h⟩
  · rintro ⟨k, n, hk, hreaches, hreport⟩
    have hn := hreaches.status hm
    have hstop := (step_terminated_iff hn).mpr hreport
    -- the step that reports is the last one, as its answer says
    have hanswer : n.step.answer = .ok false := by
      cases ha : n.step.answer with
      | error f =>
        exact absurd hstop (ne_terminated_of_running (n.steps_step.status_of_error ha))
      | ok b =>
        rw [n.steps_step.answer_eq ha]
        refine congrArg Except.ok (Bool.eq_false_iff.mpr (mt isRunning_iff.mp ?_))
        rw [hstop]
        nofun
    rw [hreaches.resume_of_stop hk hanswer]
    exact hstop

/-- A value ends a run exactly if the stack is full. -/
theorem pushAndAdvance_terminated_iff (hm : m.status = .running) {v : Value} {span : Span} :
    (m.pushAndAdvance v span).machine.status = .terminated d ↔
      ∃ limit, reached? m.limits.evaluationStack m.stack.size = some limit ∧
        d = .evaluationStackOverflow span limit := by
  cases hr : reached? m.limits.evaluationStack m.stack.size with
  | none =>
    rw [pushAndAdvance_of_room hr]
    constructor
    · intro h
      exact absurd h (ne_terminated_of_running hm)
    · rintro ⟨limit, hfull, -⟩
      cases hfull
  | some limit =>
    rw [pushAndAdvance_of_full hr, terminate_of_running hm]
    constructor
    · intro h
      cases h
      exact ⟨limit, rfl, rfl⟩
    · rintro ⟨limit', hfull, rfl⟩
      cases hfull
      rfl

/-- A call terminates a machine that runs with the report that it delivers. -/
theorem handle_terminated_iff (hm : m.status = .running) :
    (m.handle c).machine.status = .terminated d ↔ m.Delivers d c := by
  constructor
  · intro h
    -- each kind of call ends a run in a way of its own
    rcases c.kinds with hc | ⟨e, rfl⟩ | ⟨result, span, hc⟩
    · rw [machine_handle_of_advances m hc] at h
      obtain ⟨k, n, hk, hreaches, hreport⟩ := (resume_terminated_iff hm c.steps).mp h
      exact .step hk hreaches hreport
    · have h' : (m.terminate e).machine.status = .terminated d := h
      rw [terminate_of_running hm] at h'
      cases h'
      exact .host rfl
    · cases result with
      | ok v =>
        rw [machine_handle_of_ok hm hc] at h
        obtain ⟨limit, hfull, hd⟩ := (pushAndAdvance_terminated_iff hm).mp h
        exact .overflow hc hfull hd
      | error e =>
        rw [machine_handle_of_error hm hc, terminate_of_running hm] at h
        cases h
        exact .failed hc
  · intro h
    cases h with
    | host hc =>
      rw [hc, handle, terminate_of_running hm]
      rfl
    | failed hc => rw [machine_handle_of_error hm hc, terminate_of_running hm]
    | overflow hc hfull hd =>
      rw [machine_handle_of_ok hm hc]
      exact (pushAndAdvance_terminated_iff hm).mpr ⟨_, hfull, hd⟩
    | step hk hreaches hreport =>
      have hc := HostCall.advances_of_steps_pos (Nat.zero_lt_of_lt hk)
      rw [machine_handle_of_advances m hc]
      exact (resume_terminated_iff hm c.steps).mpr ⟨_, _, hk, hreaches, hreport⟩

/-- A value may end a run with a report, and never without one. -/
theorem pushAndAdvance_ne_completed (hm : m.status = .running) (v : Value) (span : Span) :
    (m.pushAndAdvance v span).machine.status ≠ .completed := by
  cases hr : reached? m.limits.evaluationStack m.stack.size with
  | none =>
    rw [pushAndAdvance_of_room hr]
    show m.status ≠ .completed
    rw [hm]
    nofun
  | some limit =>
    rw [pushAndAdvance_of_full hr, terminate_of_running hm]
    nofun

/-- A call completes a machine that runs only in a step that finds no frame. -/
theorem handle_completed (hm : m.status = .running)
    (h : (m.handle c).machine.status = .completed) :
    ∃ k n, k < c.steps ∧ Reaches k m n ∧ n.status = .running ∧ n.frames.size = 0 ∧
      (m.handle c).machine = { n with status := .completed } := by
  -- only steps can complete a run; terminations and operators report
  rcases c.kinds with hc | ⟨e, rfl⟩ | ⟨result, span, hc⟩
  · rw [machine_handle_of_advances m hc] at h ⊢
    obtain ⟨k, n, hk, hreaches, hn, hstep⟩ := resume_stopped hm (by rw [h]; nofun)
    rw [← hstep] at h ⊢
    obtain ⟨hframes, hmachine⟩ := n.steps_step.completes hn h
    exact ⟨k, n, hk, hreaches, hn, hframes, hmachine⟩
  · have h' : (m.terminate e).machine.status = .completed := h
    rw [terminate_of_running hm] at h'
    cases h'
  · cases result with
    | ok v =>
      rw [machine_handle_of_ok hm hc] at h
      exact absurd h (pushAndAdvance_ne_completed hm v span)
    | error e =>
      rw [machine_handle_of_error hm hc, terminate_of_running hm] at h
      cases h

/-! ## Histories -/

/-- Of the reports that the calls of a history deliver to the machine while it runs, `d` is the
first. -/
inductive FirstReport (d : Diagnostic) : List HostCall → Machine → Prop where
  | here {c : HostCall} {cs : List HostCall} {m : Machine} (hm : m.status = .running)
      (hc : m.Delivers d c) : FirstReport d (c :: cs) m
  | later {c : HostCall} {cs : List HostCall} {m : Machine} (hm : m.status = .running)
      (hc : ∀ e, ¬ m.Delivers e c) (hcs : FirstReport d cs (m.handle c).machine) :
      FirstReport d (c :: cs) m

/-- A report is delivered while the machine runs. -/
theorem FirstReport.running {cs : List HostCall} (h : FirstReport d cs m) :
    m.status = .running := by
  cases h with
  | here hm | later hm => exact hm

/-- A history ends with the report that is the first to be delivered. By induction on its calls: the
first call leaves the machine running, or its report is the one that is kept. -/
theorem history_terminated_iff (hm : m.status = .running) (cs : List HostCall) :
    (m.history cs).machine.status = .terminated d ↔ FirstReport d cs m := by
  induction cs generalizing m with
  | nil =>
    constructor
    · intro h
      exact absurd h (ne_terminated_of_running hm)
    · intro h
      cases h
  | cons c cs ih =>
    rw [machine_history_cons]
    cases hs : (m.handle c).machine.status with
    | running =>
      -- a call that leaves the machine running has delivered nothing
      have hsilent : ∀ e, ¬ m.Delivers e c := fun e he =>
        ne_terminated_of_running hs ((handle_terminated_iff hm).mpr he)
      rw [ih hs]
      constructor
      · exact .later hm hsilent
      · intro h
        cases h with
        | here _ hc => exact absurd hc (hsilent d)
        | later _ _ hcs => exact hcs
    | completed =>
      rw [(history_of_stopped (.completed hs) cs).1, hs]
      constructor
      · nofun
      · intro h
        cases h with
        | here _ hc =>
          rw [(handle_terminated_iff hm).mpr hc] at hs
          cases hs
        | later _ _ hcs =>
          rw [hcs.running] at hs
          cases hs
    | terminated e =>
      rw [(history_of_stopped (.terminated hs) cs).1, hs]
      have he := (handle_terminated_iff hm).mp hs
      constructor
      · intro h
        cases h
        exact .here hm he
      · intro h
        cases h with
        | here _ hc =>
          rw [(handle_terminated_iff hm).mpr hc] at hs
          exact hs.symm
        | later _ hc => exact absurd he (hc e)

/-- A machine that has stopped stays as it is in every history, and all steps and runs answer with
how it stopped. From the start a machine is completed only while it runs, in a step that finds no
frame; and the report that it is terminated with is the first that any call delivers while it
runs. -/
theorem history_final (p : Program) (l : Limits) :
    (∀ (m : Machine) (o : Outcome), m.StoppedWith o → ∀ cs,
      (m.history cs).machine = m ∧ (m.history cs).answer = cs.map (HostCall.answerAfter o)) ∧
    (∀ cs c, let m := ((start p l).history cs).machine
      m.status ≠ .completed → (m.handle c).machine.status = .completed →
        m.status = .running ∧ ∃ k n, k < c.steps ∧ Reaches k m n ∧ n.status = .running ∧
          n.frames.size = 0 ∧ (m.handle c).machine = { n with status := .completed }) ∧
    ∀ cs d, ((start p l).history cs).machine.status = .terminated d ↔
      FirstReport d cs (start p l) := by
  refine ⟨fun m o h cs => history_of_stopped h cs, ?_, fun cs d => history_terminated_iff rfl cs⟩
  intro cs c m hm h
  cases hs : m.status with
  | running => exact ⟨rfl, handle_completed hs h⟩
  | completed => exact absurd hs hm
  | terminated d =>
    -- a machine that was terminated is not completed any more
    rw [machine_handle_of_stopped (StoppedWith.terminated hs).not_running] at h
    exact absurd h hm

/-- A program without instructions leaves its routine and completes. A report of the host comes too
late then; and of two that come before, the machine keeps the first. -/
theorem history_final_empty_program :
    let m := ((start (.single []) .unbounded).history [.step]).machine
    let ended := (m.handle (.run 1)).machine
    let late := [HostCall.terminate (.divisionByZero .synthetic), .step, .run 3]
    (m.status ≠ .completed ∧ ended.status = .completed ∧
        ∃ k n, k < 1 ∧ Reaches k m n ∧ n.frames.size = 0 ∧
          ended = { n with status := .completed }) ∧
      (ended.StoppedWith (.completed .empty) ∧ (ended.history late).machine = ended ∧
        (ended.history late).answer =
          [.done, .stepped (.ok false), .ran (some (.ok (.completed .empty)))]) ∧
      FirstReport (.divisionByZero .synthetic)
        [.step, .terminate (.divisionByZero .synthetic),
          .terminate (.arrayOperand .synthetic .add)] (start (.single []) .unbounded) := by
  intro m ended late
  obtain ⟨hstopped, hcompleted, hreport⟩ := history_final (.single []) .unbounded
  have hm : m.status ≠ .completed := nofun
  have hended : ended.StoppedWith (.completed .empty) := .completed rfl
  obtain ⟨-, k, n, hk, hreaches, -, hframes, hmachine⟩ := hcompleted [.step] (.run 1) hm rfl
  exact ⟨⟨hm, rfl, k, n, hk, hreaches, hframes, hmachine⟩,
    ⟨hended, hstopped ended _ hended late⟩, (hreport _ _).mp rfl⟩

end Machine

end ScriptMachine
