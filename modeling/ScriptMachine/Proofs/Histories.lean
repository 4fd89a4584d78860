import ScriptMachine.Proofs.Runs

/-!
# What holds along a history

What every call of a host keeps is kept by a history of calls.

* `HostCall.advances`, `HostCall.drives`: calls that bring nothing of the host's own.
* `HostCall.steps`, `HostCall.result?`: the parts of a call, which are steps or an operator.
* `handle_invariant`: from steps, terminations and operators to all calls of a host;
  `handle_invariant_of_advances` and `handle_invariant_of_drives` for a kind of calls.
* `handle_unchanged`: no call exchanges the program or the limits.
* `history_invariant`, `history_answer`: from calls to histories.
-/

namespace ScriptMachine

/-! ## Kinds of calls -/

/-- The call is a step or a run, in which nothing but the program can terminate the machine. -/
def HostCall.advances : HostCall → Bool
  | step => true
  | run _ => true
  | terminate _ => false
  | arithmetic _ _ _ _ => false
  | comparison _ _ _ _ => false

/-- The call drives the machine, and brings no operands of the host's own. -/
def HostCall.drives : HostCall → Bool
  | step => true
  | run _ => true
  | terminate _ => true
  | arithmetic _ _ _ _ => false
  | comparison _ _ _ _ => false

/-- The number of steps that the call makes at most. -/
def HostCall.steps : HostCall → Nat
  | step => 1
  | run fuel => fuel
  | terminate _ => 0
  | arithmetic _ _ _ _ => 0
  | comparison _ _ _ _ => 0

/-- What an operator comes to that the host applies to operands of its own, and the span that it is
reported at. -/
def HostCall.result? : HostCall → Option (Except Diagnostic Value × Span)
  | step => none
  | run _ => none
  | terminate _ => none
  | arithmetic left op right span => some (op.evaluate left right span, span)
  | comparison left op right span => some (.ok (op.evaluate left right), span)

/-- A call is made of steps, or it is a termination, or an operator of the host. -/
theorem HostCall.kinds (c : HostCall) : c.advances = true ∨ (∃ d, c = .terminate d) ∨
    ∃ result span, c.result? = some (result, span) := by
  cases c with
  | step | run => exact .inl rfl
  | terminate d => exact .inr (.inl ⟨d, rfl⟩)
  | arithmetic | comparison => exact .inr (.inr ⟨_, _, rfl⟩)

/-- Only a step or a run makes steps. -/
theorem HostCall.advances_of_steps_pos {c : HostCall} (h : 0 < c.steps) : c.advances = true := by
  cases c with
  | step | run => rfl
  | terminate | arithmetic | comparison => cases h

namespace Machine

variable {P : Machine → Prop}

/-! ## Calls of a host -/

/-- A step is a run of one step, as far as the machine goes. -/
theorem machine_handle_of_advances (m : Machine) {c : HostCall} (hc : c.advances = true) :
    (m.handle c).machine = (resume c.steps m).machine := by
  cases c with
  | step => exact (resume_one m).1.symm
  | run fuel => rfl
  | terminate | arithmetic | comparison => cases hc

/-- The first report is kept, and so is a completion. -/
theorem terminate_of_stopped {m : Machine} (hm : m.status ≠ .running) (d : Diagnostic) :
    (m.terminate d).machine = m := by
  unfold terminate
  cases hs : m.status with
  | running => exact absurd hs hm
  | completed | terminated => rfl

/-- Nothing a host does changes a machine that has stopped. -/
theorem machine_handle_of_stopped {m : Machine} (hm : m.status ≠ .running) (c : HostCall) :
    (m.handle c).machine = m := by
  cases c with
  | step => exact congrArg Reply.machine (step_of_stopped hm)
  | run fuel => cases fuel with
    | zero => rfl
    | succ fuel => exact congrArg Reply.machine (resume_of_stopped hm fuel)
  | terminate d => exact terminate_of_stopped hm d
  | arithmetic => exact congrArg Reply.machine (applyArithmetic_of_stopped hm)
  | comparison => exact congrArg Reply.machine (applyComparison_of_stopped hm)

/-- A result of the host's operator is put on the stack as one of the program's would be. -/
theorem machine_handle_of_ok {m : Machine} (hm : m.status = .running) {c : HostCall} {v : Value}
    {span : Span} (hc : c.result? = some (.ok v, span)) :
    (m.handle c).machine = (m.pushAndAdvance v span).machine := by
  cases c with
  | step | run | terminate => cases hc
  | arithmetic a op b s =>
    obtain ⟨hv, rfl⟩ := Prod.mk.inj (Option.some.inj hc)
    exact congrArg Reply.machine (applyArithmetic_of_ok hm hv)
  | comparison a op b s =>
    obtain ⟨hv, rfl⟩ := Prod.mk.inj (Option.some.inj hc)
    cases hv
    exact congrArg Reply.machine (applyComparison_of_running hm)

/-- A failure of the host's operator terminates the machine as one of the program's would. -/
theorem machine_handle_of_error {m : Machine} (hm : m.status = .running) {c : HostCall}
    {d : Diagnostic} {span : Span} (hc : c.result? = some (.error d, span)) :
    (m.handle c).machine = (m.terminate d).machine := by
  cases c with
  | step | run | terminate => cases hc
  | arithmetic a op b s =>
    obtain ⟨hv, rfl⟩ := Prod.mk.inj (Option.some.inj hc)
    exact congrArg Reply.machine (applyArithmetic_of_error hm hv)
  | comparison a op b s =>
    obtain ⟨hv, -⟩ := Prod.mk.inj (Option.some.inj hc)
    cases hv

/-- A property that room on the stack and terminations keep is kept where a value is put. -/
theorem pushAndAdvance_invariant (hterminate : ∀ m d, P m → P (m.terminate d).machine)
    (hput : ∀ m v, P m → reached? m.limits.evaluationStack m.stack.size = none →
      P { m with stack := m.stack.push v }.advance)
    (m : Machine) (v : Value) (span : Span) (h : P m) : P (m.pushAndAdvance v span).machine := by
  cases hr : reached? m.limits.evaluationStack m.stack.size with
  | none =>
    rw [pushAndAdvance_of_room hr]
    exact hput m v h hr
  | some limit =>
    rw [pushAndAdvance_of_full hr]
    exact hterminate m _ h

/-- What every step keeps is kept by steps and runs. -/
theorem handle_invariant_of_advances (hstep : ∀ m, P m → P m.step.machine) (m : Machine)
    {c : HostCall} (hc : c.advances = true) (h : P m) : P (m.handle c).machine := by
  rw [machine_handle_of_advances m hc]
  exact resume_invariant hstep c.steps h

/-- A property is kept by every call of a host if it is kept by a step, by a termination, and by
the result of an operator that the host applies, as long as there is room for it. -/
theorem handle_invariant (hstep : ∀ m, P m → P m.step.machine)
    (hterminate : ∀ m d, P m → P (m.terminate d).machine)
    (hput : ∀ m v, P m → reached? m.limits.evaluationStack m.stack.size = none →
      P { m with stack := m.stack.push v }.advance)
    (m : Machine) (c : HostCall) (h : P m) : P (m.handle c).machine := by
  -- steps and terminations are given; of an operator there is a value, a failure, or a machine that
  -- has stopped
  rcases c.kinds with hc | ⟨d, rfl⟩ | ⟨result, span, hc⟩
  · exact handle_invariant_of_advances hstep m hc h
  · exact hterminate m d h
  · by_cases hm : m.status = .running
    · cases result with
      | ok v =>
        rw [machine_handle_of_ok hm hc]
        exact pushAndAdvance_invariant hterminate hput m v span h
      | error d =>
        rw [machine_handle_of_error hm hc]
        exact hterminate m d h
    · rwa [machine_handle_of_stopped hm]

/-- Without operators of the host's own, steps and terminations are all there is. -/
theorem handle_invariant_of_drives (hstep : ∀ m, P m → P m.step.machine)
    (hterminate : ∀ m d, P m → P (m.terminate d).machine) (m : Machine)
    {c : HostCall} (hc : c.drives = true) (h : P m) : P (m.handle c).machine := by
  cases c with
  | step => exact hstep m h
  | run fuel => exact resume_invariant hstep fuel h
  | terminate d => exact hterminate m d h
  | arithmetic | comparison => cases hc

/-- A termination exchanges neither program nor limits, and charges nothing. -/
theorem terminate_unchanged (m : Machine) (d : Diagnostic) :
    (m.terminate d).machine.program = m.program ∧ (m.terminate d).machine.limits = m.limits ∧
      (m.terminate d).machine.steps = m.steps := by
  unfold terminate
  cases m.status <;> exact ⟨rfl, rfl, rfl⟩

/-- A machine that is terminated keeps its frames, and so the place where it was. -/
theorem terminate_frames (m : Machine) (d : Diagnostic) :
    (m.terminate d).machine.frames = m.frames := by
  unfold terminate
  cases m.status <;> rfl

/-- The host has no call that exchanges the program or the limits. -/
theorem handle_unchanged (m : Machine) (c : HostCall) :
    (m.handle c).machine.program = m.program ∧ (m.handle c).machine.limits = m.limits := by
  refine handle_invariant
    (P := fun n => n.program = m.program ∧ n.limits = m.limits) ?_ ?_ ?_ m c ⟨rfl, rfl⟩
  · intro n hn
    rwa [n.steps_step.unchanged.1, n.steps_step.unchanged.2]
  · intro n d hn
    rwa [(n.terminate_unchanged d).1, (n.terminate_unchanged d).2.1]
  · intro n v hn hroom
    exact hn

/-! ## Histories -/

/-- A history is its first call and the history that follows on the machine after it. -/
theorem history_cons (c : HostCall) (cs : List HostCall) (m : Machine) :
    m.history (c :: cs) =
      ((history cs (m.handle c).machine).afterAll (m.handle c).events).map
        ((m.handle c).answer :: ·) := rfl

/-- The machine after the first call is where the rest of a history starts. -/
theorem machine_history_cons (c : HostCall) (cs : List HostCall) (m : Machine) :
    (m.history (c :: cs)).machine = (history cs (m.handle c).machine).machine := rfl

/-- The answers of a history are in the order of its calls. -/
theorem answer_history_cons (c : HostCall) (cs : List HostCall) (m : Machine) :
    (m.history (c :: cs)).answer =
      (m.handle c).answer :: (history cs (m.handle c).machine).answer := rfl

/-- The events of a history are in the order of its calls. -/
theorem events_history_cons (c : HostCall) (cs : List HostCall) (m : Machine) :
    (m.history (c :: cs)).events =
      (m.handle c).events ++ (history cs (m.handle c).machine).events := rfl

/-- A history may be interrupted, and goes on from the machine that was left. -/
theorem machine_history_append (cs ds : List HostCall) (m : Machine) :
    (m.history (cs ++ ds)).machine = (history ds (m.history cs).machine).machine := by
  induction cs generalizing m with
  | nil => rfl
  | cons c cs ih =>
    rw [List.cons_append, machine_history_cons, machine_history_cons]
    exact ih (m.handle c).machine

/-- A history that goes on keeps the answers it has had. -/
theorem answer_history_append (cs ds : List HostCall) (m : Machine) :
    (m.history (cs ++ ds)).answer =
      (m.history cs).answer ++ (history ds (m.history cs).machine).answer := by
  induction cs generalizing m with
  | nil => rfl
  | cons c cs ih =>
    rw [List.cons_append, answer_history_cons, answer_history_cons, machine_history_cons, ih,
      List.cons_append]

/-- A property that every call of a kind keeps is kept by a history of such calls. -/
theorem history_invariant {Q : HostCall → Prop}
    (hcall : ∀ m c, Q c → P m → P (m.handle c).machine) {cs : List HostCall}
    (hcs : ∀ c ∈ cs, Q c) {m : Machine} (h : P m) : P (m.history cs).machine := by
  induction cs generalizing m with
  | nil => exact h
  | cons c cs ih =>
    rw [machine_history_cons]
    -- by induction on the calls, for all machines that have the property
    exact ih (fun d hd => hcs d (List.mem_cons_of_mem c hd))
      (hcall m c (hcs c List.mem_cons_self) h)

/-- An answer of a history was given by a machine on the way. -/
theorem history_answer {Q : HostCall → Prop}
    (hcall : ∀ m c, Q c → P m → P (m.handle c).machine) {cs : List HostCall}
    (hcs : ∀ c ∈ cs, Q c) {m : Machine} (h : P m) {a : HostAnswer}
    (ha : a ∈ (m.history cs).answer) : ∃ n c, P n ∧ Q c ∧ (n.handle c).answer = a := by
  induction cs generalizing m with
  | nil => cases ha
  | cons c cs ih =>
    have hc : Q c := hcs c List.mem_cons_self
    rw [history_cons] at ha
    -- the answer is that of the first call, or one on the way of the others
    rcases List.mem_cons.mp ha with rfl | ha
    · exact ⟨m, c, h, hc, rfl⟩
    · exact ih (fun d hd => hcs d (List.mem_cons_of_mem c hd)) (hcall m c hc h) ha

end Machine

end ScriptMachine
