import ScriptMachine.Proofs.Histories

/-!
# The log accounts for the machine

Who reads the log alone knows the count of instructions, the number of frames, and how the machine
stopped. What a call on a machine adds to the log stands for what it changes; calls one after the
other add up.

* `Event.isExecuted` and the others: what an event stands for.
* `Machine.stopEvents`: what is in the log of how a machine stopped.
* `Machine.Accounts`: events account for what made one machine of another; `Steps.accounts` and
  `accounts_handle` for a step and a call.
* `HostCall.BreaksOff`: histories that end on the way of another one.
* `history_log`: what the log of a history says of the machine.
-/

namespace ScriptMachine

/-! ## Kinds of events -/

namespace Event

/-- An instruction was charged. -/
def isExecuted : Event → Bool
  | executed _ _ _ => true
  | _ => false

/-- An instruction was charged that leaves its routine. -/
def isReturn : Event → Bool
  | executed _ .leave _ => true
  | _ => false

/-- A routine was left at its end. -/
def isImplicitReturn : Event → Bool
  | returnedImplicitly _ => true
  | _ => false

/-- A routine was entered. -/
def isCall : Event → Bool
  | called _ _ => true
  | _ => false

/-- The machine stopped. -/
def isStop : Event → Bool
  | completed _ _ => true
  | terminated _ _ _ => true
  | _ => false

/-- Only a machine that runs does such a thing. -/
def isWork (e : Event) : Bool :=
  e.isExecuted || e.isImplicitReturn || e.isCall

end Event

/-- No other operation has the text of the one that leaves a routine. -/
theorem Operation.inspect_eq_return_iff {op : Operation} : op.inspect = "Return" ↔ op = .leave := by
  constructor
  · intro h
    -- the first letter tells
    have hhead := congrArg (fun s : String => s.toList.head?) h
    cases op <;> first | rfl | simp [inspect] at hhead
  · rintro rfl
    rfl

/-- Of all instructions that are charged, one is a return: the one that leaves its routine. -/
theorem Event.isReturn_executed_iff {f : Frame} {op : Operation} {depth : Nat} :
    (executed f op depth).isReturn = true ↔ op = .leave := by
  cases op <;> simp [isReturn]

/-- What an event stands for can be read off its fields. -/
theorem Event.reads_off (e : Event) :
    (e.isExecuted = true ↔ ("message", "execute") ∈ e.fields) ∧
    (e.isReturn = true ↔ ("message", "execute") ∈ e.fields ∧ ("kind", "Return") ∈ e.fields) ∧
    (e.isImplicitReturn = true ↔ ("message", "implicit return") ∈ e.fields) ∧
    (e.isCall = true ↔ ("message", "call") ∈ e.fields) ∧
    (e.isStop = true ↔
      ("message", "run completed") ∈ e.fields ∨ ("message", "run terminated") ∈ e.fields) := by
  refine ⟨?_, ?_, ?_, ?_, ?_⟩
  · cases e <;> simp [isExecuted, fields]
  · cases e with
    | executed f op depth =>
      -- the text of the operation stands in the fields, and only one operation has this text
      rw [isReturn_executed_iff, ← Operation.inspect_eq_return_iff]
      simp [fields, eq_comm]
    | _ => simp [isReturn, fields]
  · cases e <;> simp [isImplicitReturn, fields]
  · cases e <;> simp [isCall, fields]
  · cases e <;> simp [isStop, fields]

/-- The history `cs'` ends on the way of `cs`: after some of its calls, maybe in the middle of a
run. -/
inductive HostCall.BreaksOff : List HostCall → List HostCall → Prop where
  | here (cs : List HostCall) : BreaksOff [] cs
  | within {k fuel : Nat} (hk : k ≤ fuel) (cs : List HostCall) :
      BreaksOff [.run k] (.run fuel :: cs)
  | after (c : HostCall) {cs' cs : List HostCall} (h : BreaksOff cs' cs) :
      BreaksOff (c :: cs') (c :: cs)

namespace Machine

/-- What stands in the log of how the machine stopped. -/
def stopEvents (m : Machine) : List Event :=
  match m.status with
  | .running => []
  | .completed => [.completed m.stack.size m.steps]
  | .terminated d => [.terminated d.code d.span m.steps]

/-- A machine leaves no such mark exactly as long as it runs. -/
theorem stopEvents_eq_nil_iff {m : Machine} : m.stopEvents = [] ↔ m.status = .running := by
  unfold stopEvents
  cases m.status <;> simp

/-- The events `es` account for what made the machine `n` of `m`. -/
structure Accounts (m : Machine) (es : List Event) (n : Machine) : Prop where
  steps : m.steps ≤ maxSteps → n.steps = min (m.steps + es.countP Event.isExecuted) maxSteps
  frames : n.frames.size + es.countP Event.isImplicitReturn + es.countP Event.isReturn =
    m.frames.size + es.countP Event.isCall
  stop : m.stopEvents ++ es.filter Event.isStop = n.stopEvents
  idle : m.status ≠ .running → ∀ e ∈ es, e.isWork = false
  order : es.Pairwise fun e e' => e.isStop = true → e'.isWork = false

variable {m n q : Machine} {es fs : List Event}

/-- Where nothing happened there is nothing to account for. -/
theorem Accounts.refl (m : Machine) : m.Accounts [] m where
  steps h := (Nat.min_eq_left h).symm
  frames := rfl
  stop := List.append_nil _
  idle _ _ he := nomatch he
  order := .nil

/-- Events one after the other account for all that happened. -/
theorem Accounts.trans (h : m.Accounts es n) (h' : n.Accounts fs q) : m.Accounts (es ++ fs) q where
  steps hm := by
    -- the count may have been cut off in the first part, and then stays cut off
    have hn := h.steps hm
    have hq := h'.steps (by omega)
    rw [List.countP_append]
    omega
  frames := by
    have hn := h.frames
    have hq := h'.frames
    simp only [List.countP_append]
    omega
  stop := by rw [List.filter_append, ← List.append_assoc, h.stop, h'.stop]
  idle hm e he := by
    -- a machine that has stopped has left its mark, which the later one still has
    have hn : n.status ≠ .running := by
      intro hn
      have hstop := h.stop
      rw [stopEvents_eq_nil_iff.mpr hn] at hstop
      exact hm (stopEvents_eq_nil_iff.mp (List.append_eq_nil_iff.mp hstop).1)
    rcases List.mem_append.mp he with he | he
    · exact h.idle hm e he
    · exact h'.idle hn e he
  order := by
    refine List.pairwise_append.mpr ⟨h.order, h'.order, fun e he e' he' hstop => ?_⟩
    -- a stop in the first part is the mark that the machine in between has, so that one does not
    -- run
    have hmem : e ∈ n.stopEvents :=
      h.stop ▸ List.mem_append_right _ (List.mem_filter.mpr ⟨he, hstop⟩)
    refine h'.idle (fun hn => ?_) e' he'
    rw [stopEvents_eq_nil_iff.mpr hn] at hmem
    cases hmem

/-! ## What single events account for -/

/-- The mark of a terminated machine is made of its report and its count of instructions. -/
theorem stopEvents_of_terminated {d : Diagnostic} (hn : n.status = .terminated d) :
    n.stopEvents = [.terminated d.code d.span n.steps] := by
  rw [stopEvents, hn]

/-- A machine that runs on may change as the log does not tell: all but its steps and the number of
its frames. -/
theorem Accounts.of_silent (hm : m.status = .running) (hn : n.status = .running)
    (hsteps : n.steps = m.steps) (hframes : n.frames.size = m.frames.size) :
    m.Accounts [] n where
  steps h := hsteps.trans (Nat.min_eq_left h).symm
  frames := hframes
  stop := by rw [stopEvents_eq_nil_iff.mpr hm, stopEvents_eq_nil_iff.mpr hn]; rfl
  idle _ _ he := nomatch he
  order := .nil

/-- What only repeats what is known changes nothing. -/
theorem Accounts.of_neutral {e : Event} (hstop : e.isStop = false) (hwork : e.isWork = false)
    (m : Machine) : m.Accounts [e] m where
  steps h := by
    cases e <;> first | exact (Nat.min_eq_left h).symm | cases hwork
  frames := by
    cases e <;> first | rfl | cases hwork
  stop := by
    rw [List.filter_cons_of_neg (by simp [hstop]), List.filter_nil, List.append_nil]
  idle _ e he := by rwa [List.mem_singleton.mp he]
  order := List.pairwise_singleton _ _

/-- The end of a run with a report is one event, which charges nothing and touches no frame. -/
theorem Accounts.of_terminated {d : Diagnostic} (hm : m.status = .running)
    (hn : n.status = .terminated d) (hsteps : n.steps = m.steps)
    (hframes : n.frames.size = m.frames.size) :
    m.Accounts [.terminated d.code d.span m.steps] n where
  steps h := hsteps.trans (Nat.min_eq_left h).symm
  frames := hframes
  stop := by
    rw [stopEvents_eq_nil_iff.mpr hm, stopEvents_of_terminated hn, hsteps]
    rfl
  idle h := absurd hm h
  order := List.pairwise_singleton _ _

/-- The end of a run without a report is one event, which gives what is on the stack. -/
theorem accounts_completed (hm : m.status = .running) :
    m.Accounts [.completed m.stack.size m.steps] { m with status := .completed } where
  steps h := (Nat.min_eq_left h).symm
  frames := rfl
  stop := by
    rw [stopEvents_eq_nil_iff.mpr hm]
    rfl
  idle h := absurd hm h
  order := List.pairwise_singleton _ _

/-- An event of a machine that runs on tells of an instruction or of a frame. -/
theorem Accounts.of_running {e : Event} (hm : m.status = .running) (hn : n.status = .running)
    (hstop : e.isStop = false)
    (hsteps : m.steps ≤ maxSteps →
      n.steps = min (m.steps + [e].countP Event.isExecuted) maxSteps)
    (hframes : n.frames.size + [e].countP Event.isImplicitReturn + [e].countP Event.isReturn =
      m.frames.size + [e].countP Event.isCall) : m.Accounts [e] n where
  steps := hsteps
  frames := hframes
  stop := by
    rw [stopEvents_eq_nil_iff.mpr hm, stopEvents_eq_nil_iff.mpr hn,
      List.filter_cons_of_neg (by simp [hstop])]
    rfl
  idle h := absurd hm h
  order := List.pairwise_singleton _ _

/-- Where a machine does something there is a frame, which can be left. -/
theorem size_frames_of_top? {f : Frame} (h : m.frames.top? = some f) :
    m.frames.pop.size + 1 = m.frames.size := by
  rw [← Stack.size_push m.frames.pop f, ← Stack.eq_push_pop_of_top? h]

/-- A routine left at its end is one frame less, and nothing is charged for it. -/
theorem accounts_leftAtEnd (hm : m.status = .running) {f : Frame} (hf : m.frames.top? = some f) :
    m.Accounts [.returnedImplicitly f.routine] { m with frames := m.frames.pop } :=
  .of_running hm hm rfl (fun h => (Nat.min_eq_left h).symm) (size_frames_of_top? hf)

/-- A call is one frame more, wherever its caller goes on. -/
theorem accounts_called (hm : m.status = .running) (callee : RoutineId) (move : Frame → Frame) :
    m.Accounts [.called callee (m.frames.size + 1)]
      { m with frames := (m.frames.modifyTop move).push (.start callee) } := by
  refine .of_running hm hm rfl (fun h => (Nat.min_eq_left h).symm) ?_
  show ((m.frames.modifyTop move).push (.start callee)).size = m.frames.size + 1
  rw [Stack.size_push, Stack.size_modifyTop]

/-- A charge is one instruction more, cut off at the greatest count. -/
theorem steps_charge_eq_min (h : m.steps ≤ maxSteps) :
    m.charge.steps = min (m.steps + 1) maxSteps := by
  unfold charge
  grind

/-- Apart from a return, an instruction is charged in an event of its own, before it takes effect.
-/
theorem accounts_charge (hm : m.status = .running) (f : Frame) {op : Operation}
    (hop : op ≠ .leave) (depth : Nat) : m.Accounts [.executed f op depth] m.charge := by
  refine .of_running hm hm rfl steps_charge_eq_min ?_
  -- the frames are those of before; for a return this event would stand for one that is left
  cases op with
  | leave => exact absurd rfl hop
  | _ => rfl

/-- The instruction that leaves a routine is charged and takes effect in one event. -/
theorem accounts_left (hm : m.status = .running) {f : Frame} (hf : m.frames.top? = some f)
    (depth : Nat) :
    m.Accounts [.executed f .leave depth] { m.charge with frames := m.frames.pop } :=
  .of_running hm hm rfl steps_charge_eq_min (size_frames_of_top? hf)

/-! ## Steps -/

/-- The answer of a step is read off the reply and adds no event to it. -/
theorem events_continues (r : Reply (Except Fault Unit)) : (continues r).events = r.events := by
  unfold continues
  cases r.answer <;> rfl

/-- What an instruction does once it is charged is told by its events. A return tells nothing here,
since it was told when it was charged. -/
theorem Performs.accounts {f : Frame} {size : Nat} {i : Instruction}
    {r : Reply (Except Fault Unit)} (h : m.Performs f size i r) (hm : m.status = .running)
    (hop : i.operation ≠ .leave) : m.Accounts r.events r.machine := by
  -- faults change nothing; a value or a move keeps the number of frames; the rest has one event
  cases h with
  | underflow | outOfBounds | unknownCallee => exact .refl m
  | put | moved => exact .of_silent hm hm rfl (Stack.size_modifyTop _ _)
  | @overflow rest v limit =>
    exact .of_terminated (d := .evaluationStackOverflow i.span limit) hm rfl rfl rfl
  | @failed op rest a b d => exact .of_terminated (d := d) hm rfl rfl rfl
  | @tooDeep callee r limit =>
    exact .of_terminated (d := .callDepthExceeded i.span limit) hm rfl rfl rfl
  | @called callee => exact accounts_called hm callee Frame.advance
  | left hleave => exact absurd hleave hop

/-- Each rule of a step accounts for what it changes. -/
theorem Steps.accounts {r : Reply (Except Fault Bool)} (h : m.Steps r) :
    m.Accounts r.events r.machine := by
  cases h with
  | stopped | lost => exact .refl m
  | completed hm => exact accounts_completed hm
  | leftAtEnd hm hnext => exact accounts_leftAtEnd hm (next_eq_leave_iff.mp hnext).1
  | @refused f size budget i hm =>
    exact .of_terminated (d := .stepBudgetExceeded i.span budget) hm rfl rfl rfl
  | @executed f size i r hm hnext hbudget hperf =>
    show m.Accounts (.executed f i.operation m.stack.size :: (continues r).events)
      (continues r).machine
    rw [events_continues, machine_continues]
    -- a return is charged and takes effect in one event; any other instruction is charged first
    by_cases hop : i.operation = .leave
    · have hleft := (Performs.left hop).eq (m := m.charge) hm (f := f) (n := size)
      rw [← hperf.eq (m := m.charge) hm, hleft, hop]
      exact accounts_left hm (next_eq_execute_iff.mp hnext).1 m.stack.size
    · exact (accounts_charge hm f hop m.stack.size).trans (hperf.accounts hm hop)

/-- The events of the steps of a run add up. -/
theorem accounts_resume (fuel : Nat) (m : Machine) :
    m.Accounts (resume fuel m).events (resume fuel m).machine := by
  induction fuel generalizing m with
  | zero => exact .refl m
  | succ fuel ih =>
    -- by induction on the fuel: the first step accounts for itself, and the rest of the run for the
    -- rest
    have hstep := m.steps_step.accounts
    cases ha : m.step.answer with
    | error f => rwa [resume_succ_of_fault fuel ha]
    | ok b => cases b with
      | false => rwa [resume_succ_of_stop fuel ha]
      | true =>
        rw [resume_succ_of_continue fuel ha]
        exact hstep.trans (ih m.step.machine)

/-! ## Calls of a host -/

/-- A machine is terminated with one event; a termination that comes too late tells so, and changes
nothing. -/
theorem accounts_terminate (m : Machine) (d : Diagnostic) :
    m.Accounts (m.terminate d).events (m.terminate d).machine := by
  cases hm : m.status with
  | running =>
    rw [terminate_of_running hm]
    exact .of_terminated hm rfl rfl rfl
  | completed | terminated =>
    rw [terminate, hm]
    exact .of_neutral rfl rfl m

/-- A value of the host's own makes no event, unless the stack is full and the run ends. -/
theorem accounts_pushAndAdvance (hm : m.status = .running) (v : Value) (span : Span) :
    m.Accounts (m.pushAndAdvance v span).events (m.pushAndAdvance v span).machine := by
  cases hr : reached? m.limits.evaluationStack m.stack.size with
  | none =>
    rw [pushAndAdvance_of_room hr]
    exact .of_silent hm hm rfl (Stack.size_modifyTop _ _)
  | some limit =>
    rw [pushAndAdvance_of_full hr]
    exact accounts_terminate m _

/-- Every call of a host accounts for what it does to the machine. -/
theorem accounts_handle (m : Machine) (c : HostCall) :
    m.Accounts (m.handle c).events (m.handle c).machine := by
  cases c with
  | step => exact m.steps_step.accounts
  | run fuel =>
    -- the event that a run was entered stands for no change
    exact (Accounts.of_neutral rfl rfl m).trans (accounts_resume fuel m)
  | terminate d => exact accounts_terminate m d
  | arithmetic a op b span =>
    show m.Accounts (m.applyArithmetic a op b span).events (m.applyArithmetic a op b span).machine
    by_cases hm : m.status = .running
    · cases hv : op.evaluate a b span with
      | ok v =>
        rw [applyArithmetic_of_ok hm hv]
        exact accounts_pushAndAdvance hm v span
      | error d =>
        rw [applyArithmetic_of_error hm hv]
        exact accounts_terminate m d
    · rw [applyArithmetic_of_stopped hm]
      exact .refl m
  | comparison a op b span =>
    show m.Accounts (m.applyComparison a op b span).events (m.applyComparison a op b span).machine
    by_cases hm : m.status = .running
    · rw [applyComparison_of_running hm]
      exact accounts_pushAndAdvance hm _ span
    · rw [applyComparison_of_stopped hm]
      exact .refl m

/-- The calls of a history add up. -/
theorem accounts_history (cs : List HostCall) (m : Machine) :
    m.Accounts (m.history cs).events (m.history cs).machine := by
  induction cs generalizing m with
  | nil => exact .refl m
  | cons c cs ih =>
    rw [history_cons]
    exact (accounts_handle m c).trans (ih (m.handle c).machine)

/-! ## The depth of a call

An event of a call is the last one of its step, and tells how many frames there are after it. -/

variable {callee : RoutineId} {depth : Nat} {pre post : List Event}

/-- An event of a log made of two parts stands in the one or in the other. -/
theorem append_eq_append_cons {e : Event} (h : es ++ fs = pre ++ e :: post) :
    (∃ post', es = pre ++ e :: post') ∨ ∃ pre', pre = es ++ pre' ∧ fs = pre' ++ e :: post := by
  rcases List.append_eq_append_iff.mp h with ⟨pre', hpre, hfs⟩ | ⟨es', hes, hpost⟩
  · exact .inr ⟨pre', hpre, hfs⟩
  · cases es' with
    | nil => exact .inr ⟨[], by rw [hes, List.append_nil, List.append_nil], hpost.symm⟩
    | cons e' post' =>
      obtain ⟨rfl, -⟩ := List.cons.inj hpost
      exact .inl ⟨post', hes⟩

/-- An instruction that enters a routine has one event, and there are as many frames after it as the
event tells. -/
theorem Performs.events_of_called {f : Frame} {size : Nat} {i : Instruction}
    {r : Reply (Except Fault Unit)} (h : m.Performs f size i r)
    (hmem : .called callee depth ∈ r.events) :
    r.events = [.called callee depth] ∧ r.machine.frames.size = depth := by
  cases h with
  | called =>
    cases List.mem_singleton.mp hmem
    refine ⟨rfl, ?_⟩
    show ((m.frames.modifyTop _).push _).size = _
    rw [Stack.size_push, Stack.size_modifyTop]
  | underflow | outOfBounds | unknownCallee | put | moved | left => cases hmem
  | overflow | failed | tooDeep => cases List.mem_singleton.mp hmem

/-- In a step that enters a routine, the event of it is the last one. -/
theorem Steps.events_of_called {r : Reply (Except Fault Bool)} (h : m.Steps r)
    (hr : r.events = pre ++ .called callee depth :: post) :
    r.events = pre ++ [.called callee depth] ∧ r.machine.frames.size = depth := by
  have hmem : .called callee depth ∈ r.events :=
    hr ▸ List.mem_append_right pre List.mem_cons_self
  cases h with
  | stopped | lost => cases hmem
  | completed | leftAtEnd | refused => cases List.mem_singleton.mp hmem
  | @executed f size i r hm hnext hbudget hperf =>
    change Event.executed f i.operation m.stack.size :: (continues r).events = _ at hr
    show Event.executed f i.operation m.stack.size :: (continues r).events = _ ∧
      (continues r).machine.frames.size = depth
    rw [events_continues] at hr ⊢
    rw [machine_continues]
    -- the first event of an executed instruction is its charge; the call is behind it
    cases pre with
    | nil => cases (List.cons.inj hr).1
    | cons e pre =>
      obtain ⟨rfl, hevents⟩ := List.cons.inj hr
      have hmem' : .called callee depth ∈ r.events :=
        hevents ▸ List.mem_append_right pre List.mem_cons_self
      obtain ⟨hcalled, hsize⟩ := hperf.events_of_called hmem'
      rw [hcalled] at hevents ⊢
      rcases List.singleton_eq_append_iff.mp hevents with ⟨rfl, -⟩ | ⟨-, hnil⟩
      · exact ⟨rfl, hsize⟩
      · cases hnil

/-- A run in which a routine is entered can be cut off after the step that enters it. -/
theorem resume_of_called {fuel : Nat}
    (h : (resume fuel m).events = pre ++ .called callee depth :: post) :
    ∃ k, k ≤ fuel ∧ (resume k m).events = pre ++ [.called callee depth] ∧
      (resume k m).machine.frames.size = depth := by
  induction fuel generalizing m pre with
  | zero => cases (List.append_eq_nil_iff.mp h.symm).2
  | succ fuel ih =>
    -- where the call is in the first step, a run of one step ends with it
    have hfirst : ∀ post', m.step.events = pre ++ .called callee depth :: post' →
        ∃ k, k ≤ fuel + 1 ∧ (resume k m).events = pre ++ [.called callee depth] ∧
          (resume k m).machine.frames.size = depth := by
      intro post' hstep
      refine ⟨1, Nat.succ_le_succ (Nat.zero_le fuel), ?_⟩
      rw [(resume_one m).1, (resume_one m).2]
      exact m.steps_step.events_of_called hstep
    cases ha : m.step.answer with
    | error f =>
      rw [resume_succ_of_fault fuel ha] at h
      exact hfirst post h
    | ok b => cases b with
      | false =>
        rw [resume_succ_of_stop fuel ha] at h
        exact hfirst post h
      | true =>
        rw [resume_succ_of_continue fuel ha] at h
        -- the call is in the first step, or in the rest of the run, which the induction cuts off
        rcases append_eq_append_cons h with ⟨post', hstep⟩ | ⟨pre', rfl, hrest⟩
        · exact hfirst post' hstep
        · obtain ⟨k, hk, hevents, hsize⟩ := ih hrest
          refine ⟨k + 1, Nat.succ_le_succ hk, ?_⟩
          rw [resume_succ_of_continue k ha, List.append_assoc]
          exact ⟨congrArg (m.step.events ++ ·) hevents, hsize⟩

/-- To terminate a run is to enter no routine. -/
theorem call_notMem_terminate (m : Machine) (d : Diagnostic) :
    .called callee depth ∉ (m.terminate d).events := by
  unfold terminate
  cases m.status <;> simp

/-- To put a value on the stack is to enter no routine. -/
theorem call_notMem_pushAndAdvance (m : Machine) (v : Value) (span : Span) :
    .called callee depth ∉ (m.pushAndAdvance v span).events := by
  unfold pushAndAdvance
  cases reached? m.limits.evaluationStack m.stack.size with
  | none => exact List.not_mem_nil
  | some limit => exact call_notMem_terminate m _

/-- A host enters no routine by a call that makes no steps. -/
theorem call_notMem_handle (m : Machine) {c : HostCall} (hc : c.advances = false) :
    .called callee depth ∉ (m.handle c).events := by
  cases c with
  | step | run => cases hc
  | terminate d => exact call_notMem_terminate m d
  | arithmetic a op b span =>
    show .called callee depth ∉ (m.applyArithmetic a op b span).events
    unfold applyArithmetic
    split
    · cases op.evaluate a b span with
      | ok v => exact call_notMem_pushAndAdvance m v span
      | error d => exact call_notMem_terminate m d
    · exact List.not_mem_nil
  | comparison a op b span =>
    show .called callee depth ∉ (m.applyComparison a op b span).events
    unfold applyComparison
    split
    · exact call_notMem_pushAndAdvance m _ span
    · exact List.not_mem_nil

/-- A call of a host in which a routine is entered goes on from there, or ends there; it can be cut
off at that point. -/
theorem handle_of_called {c : HostCall}
    (h : (m.handle c).events = pre ++ .called callee depth :: post) :
    ∃ c', (∀ cs, HostCall.BreaksOff [c'] (c :: cs)) ∧
      (m.handle c').events = pre ++ [.called callee depth] ∧
      (m.handle c').machine.frames.size = depth := by
  cases c with
  | step => exact ⟨.step, fun cs => .after .step (.here cs), m.steps_step.events_of_called h⟩
  | run fuel =>
    change Event.runEntered m.program.size :: (resume fuel m).events = _ at h
    -- a run starts with an event of its own, which is in front of the call
    cases pre with
    | nil => cases (List.cons.inj h).1
    | cons e pre =>
      obtain ⟨rfl, hrest⟩ := List.cons.inj h
      obtain ⟨k, hk, hevents, hsize⟩ := resume_of_called hrest
      exact ⟨.run k, HostCall.BreaksOff.within hk, congrArg (_ :: ·) hevents, hsize⟩
  | terminate | arithmetic | comparison =>
    exact absurd (h ▸ List.mem_append_right pre List.mem_cons_self) (call_notMem_handle m rfl)

/-- A history in which a routine is entered can be broken off at that point, with the log up to
there and as many frames as it tells. -/
theorem history_of_called {cs : List HostCall}
    (h : (m.history cs).events = pre ++ .called callee depth :: post) :
    ∃ cs', HostCall.BreaksOff cs' cs ∧
      (m.history cs').events = pre ++ [.called callee depth] ∧
      (m.history cs').machine.frames.size = depth := by
  induction cs generalizing m pre with
  | nil => cases (List.append_eq_nil_iff.mp h.symm).2
  | cons c cs ih =>
    rw [events_history_cons] at h
    -- the routine is entered in the first call, which is cut off there, or in a later one
    rcases append_eq_append_cons h with ⟨post', hcall⟩ | ⟨pre', rfl, hrest⟩
    · obtain ⟨c', hbreaks, hevents, hsize⟩ := handle_of_called hcall
      refine ⟨[c'], hbreaks cs, ?_, hsize⟩
      rw [events_history_cons]
      exact (List.append_nil _).trans hevents
    · obtain ⟨cs', hbreaks, hevents, hsize⟩ := ih hrest
      refine ⟨c :: cs', .after c hbreaks, ?_, hsize⟩
      rw [events_history_cons, hevents, List.append_assoc]

/-! ## The log of a history -/

/-- At every point of every history the log accounts for the machine. As many instructions were
charged as it tells (the machine counts no further than `maxSteps`); frames and returns balance the
entry routine and the calls, and each call tells the number of frames that there are then. How the
machine stopped is there once, as it then was and still is, and nothing at all while the machine
runs; and after it no more work. -/
theorem history_log (p : Program) (l : Limits) (cs : List HostCall) :
    let log := ((start p l).history cs).events
    let m := ((start p l).history cs).machine
    m.steps = min (log.countP Event.isExecuted) maxSteps ∧
    m.frames.size + log.countP Event.isImplicitReturn + log.countP Event.isReturn =
      1 + log.countP Event.isCall ∧
    (∀ pre callee depth post, log = pre ++ .called callee depth :: post →
      ∃ cs', HostCall.BreaksOff cs' cs ∧
        ((start p l).history cs').events = pre ++ [.called callee depth] ∧
        ((start p l).history cs').machine.frames.size = depth) ∧
    (m.status = .running → log.filter Event.isStop = []) ∧
    (m.status = .completed → log.filter Event.isStop = [.completed m.stack.size m.steps]) ∧
    (∀ d, m.status = .terminated d →
      log.filter Event.isStop = [.terminated d.code d.span m.steps]) ∧
    log.Pairwise fun e e' => e.isStop = true → e'.isWork = false := by
  intro log m
  -- the machine is new and leaves no mark, so the log accounts for all of it
  have haccounts : (start p l).Accounts log m := accounts_history cs (start p l)
  have hsteps := haccounts.steps (Nat.zero_le _)
  have hstop : log.filter Event.isStop = m.stopEvents := haccounts.stop
  rw [show (start p l).steps = 0 from rfl, Nat.zero_add] at hsteps
  refine ⟨hsteps, haccounts.frames, fun _ _ _ _ => history_of_called, ?_, ?_, ?_,
    haccounts.order⟩
  · intro hm
    rw [hstop, stopEvents_eq_nil_iff.mpr hm]
  · intro hm
    rw [hstop, stopEvents, hm]
  · intro d hm
    rw [hstop, stopEvents_of_terminated hm]

/-- A routine that calls two others, of which the first one ends with an instruction and the second
one has none. -/
def twoCalls : Program :=
  .ofList [⟨"main", #[.synthetic (.call ⟨1⟩), .synthetic (.call ⟨2⟩)]⟩,
    ⟨"leaves", #[.synthetic .leave]⟩, ⟨"ends", #[]⟩]

/-- Three instructions, two calls and three returns, of which one is an instruction; the report that
comes after the end leaves no mark. -/
theorem history_log_two_calls :
    let cs := [HostCall.run 9, .terminate (.divisionByZero .synthetic)]
    let log := ((start twoCalls .unbounded).history cs).events
    log.countP Event.isExecuted = 3 ∧
    log.countP Event.isImplicitReturn + log.countP Event.isReturn =
      1 + log.countP Event.isCall ∧
    log.filter Event.isStop = [.completed 0 3] ∧
    ∃ cs', HostCall.BreaksOff cs' cs ∧
      ((start twoCalls .unbounded).history cs').machine.frames.size = 2 := by
  have hstatus : ((start twoCalls .unbounded).history
      [.run 9, .terminate (.divisionByZero .synthetic)]).machine.status = .completed := rfl
  have hsteps : ((start twoCalls .unbounded).history
      [.run 9, .terminate (.divisionByZero .synthetic)]).machine.steps = 3 := rfl
  have hframes : ((start twoCalls .unbounded).history
      [.run 9, .terminate (.divisionByZero .synthetic)]).machine.frames.size = 0 := rfl
  have hsize : ((start twoCalls .unbounded).history
      [.run 9, .terminate (.divisionByZero .synthetic)]).machine.stack.size = 0 := rfl
  intro cs log
  obtain ⟨hcharged, hbalance, hcalls, -, hcompleted, -, -⟩ := history_log twoCalls .unbounded cs
  have hthree : 3 = min (log.countP Event.isExecuted) maxSteps := hsteps ▸ hcharged
  have hnone : 0 + log.countP Event.isImplicitReturn + log.countP Event.isReturn =
      1 + log.countP Event.isCall := hframes ▸ hbalance
  have hmax : 3 < maxSteps := by decide
  refine ⟨by omega, by omega, ?_, ?_⟩
  · rw [hcompleted hstatus, hsize, hsteps]
  · obtain ⟨cs', hbreaks, -, hdepth⟩ := hcalls [_, _] ⟨1⟩ 2 _ rfl
    exact ⟨cs', hbreaks, hdepth⟩

end Machine

end ScriptMachine
