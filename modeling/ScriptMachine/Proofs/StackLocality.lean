import ScriptMachine.Proofs.Histories

/-!
# Code does not see below its operands

An instruction takes its operands from the top of the stack, and nothing it does depends on what
lies beneath them, or on how much. A machine with other values beneath its stack thus does what it
does without them, up to the first operand that is missing; what a log is told differs in the size
of the stack only.

* `Machine.onTopOf`, `Reply.onTopOf`: a machine with other values beneath its stack, and its reply.
* `Performs.onTopOf`, `step_onTopOf`: an instruction and a step.
* `steps_onTopOf`: any number of steps.
-/

namespace ScriptMachine

/-- The event as a log is told it where there are so many more values on the stack. -/
def Event.raised (n : Nat) : Event → Event
  | executed frame operation depth => executed frame operation (n + depth)
  | completed results steps => completed (n + results) steps
  | e => e

/-- The machine with other values beneath its stack. -/
def Machine.onTopOf (m : Machine) (base : Stack Value) : Machine :=
  { m with stack := m.stack.onTopOf base }

/-- The reply of a machine with other values beneath its stack. -/
def Reply.onTopOf {α : Type} (r : Reply α) (base : Stack Value) : Reply α :=
  ⟨r.answer, r.machine.onTopOf base, r.events.map (·.raised base.size)⟩

variable {base : Stack Value}

/-! ## Operations -/

theorem Stack.size_le_onTopOf {α : Type} (s base : Stack α) : s.size ≤ (s.onTopOf base).size := by
  rw [size_onTopOf]
  exact Nat.le_add_left _ _

/-- Operands that are on a stack are also on top of a base. -/
theorem Operation.Puts.onTopOf {span : Span} {op : Operation} {s rest : Stack Value} {v : Value}
    (h : op.Puts span s rest v) : op.Puts span (s.onTopOf base) (rest.onTopOf base) v := by
  cases h with
  | push hop hs => exact .push hop (congrArg (·.onTopOf base) hs)
  | dup hop hs hv =>
    obtain ⟨t, rfl⟩ := Stack.top?_eq_some_iff.mp hv
    refine .dup hop (congrArg (·.onTopOf base) hs) ?_
    rw [Stack.push_onTopOf, Stack.top?_push]
  | arithmetic hop hs hv =>
    refine .arithmetic hop ?_ hv
    rw [hs, Stack.push_onTopOf, Stack.push_onTopOf]
  | compare hop hs hv =>
    refine .compare hop ?_ hv
    rw [hs, Stack.push_onTopOf, Stack.push_onTopOf]

/-- An operand that is on a stack is also on top of a base. -/
theorem Operation.Moves.onTopOf {n : Nat} {op : Operation} {s rest : Stack Value}
    {move : Frame → Frame} (h : op.Moves n s rest move) :
    op.Moves n (s.onTopOf base) (rest.onTopOf base) move := by
  -- the rules differ in what moves, but take the same value off
  have hpush : ∀ v, s = rest.push v → s.onTopOf base = (rest.onTopOf base).push v := by
    rintro v rfl
    exact Stack.push_onTopOf rest base v
  cases h with
  | pop hop hs hmove => exact .pop hop (hpush _ hs) hmove
  | jump hop ht hs hmove => exact .jump hop ht (congrArg (·.onTopOf base) hs) hmove
  | fallThrough hop ht hs hv hmove => exact .fallThrough hop ht (hpush _ hs) hv hmove
  | branch hop ht hs hv hmove => exact .branch hop ht (hpush _ hs) hv hmove

namespace Machine

variable {m : Machine}

/-! ## Instructions and steps -/

/-- An instruction that misses no operand does the same on a base. -/
theorem Performs.onTopOf {f : Frame} {n : Nat} {i : Instruction} {r : Reply (Except Fault Unit)}
    (h : m.Performs f n i r) (hlimit : m.limits.evaluationStack = none)
    (hclear : ∀ id c, r.answer ≠ .error (.stackUnderflow id c)) :
    (m.onTopOf base).Performs f n i (r.onTopOf base) := by
  cases h with
  -- a missing operand would be found in the base
  | underflow => exact absurd rfl (hclear _ _)
  | outOfBounds hs hop ht =>
    exact .outOfBounds (Nat.le_trans hs (m.stack.size_le_onTopOf base)) hop ht
  | unknownCallee hop hcallee => exact .unknownCallee hop hcallee
  | @put rest v hop hroom =>
    -- without a limit there is room on any base
    have hroom' : reached? m.limits.evaluationStack (rest.onTopOf base).size = none := by
      rw [hlimit]
      rfl
    have h : (m.onTopOf base).Performs f n i (.silent (.ok ()) _) := .put hop.onTopOf hroom'
    rwa [← Stack.push_onTopOf] at h
  | overflow hop hfull =>
    rw [hlimit] at hfull
    cases hfull
  | failed hop hs hd =>
    refine .failed hop ?_ hd
    show m.stack.onTopOf base = _
    rw [hs, Stack.push_onTopOf, Stack.push_onTopOf]
  | moved hop => exact .moved hop.onTopOf
  | tooDeep hop hcallee hfull => exact .tooDeep hop hcallee hfull
  | called hop hcallee hroom => exact .called hop hcallee hroom
  | left hop => exact .left hop

theorem continues_onTopOf (r : Reply (Except Fault Unit)) :
    continues (r.onTopOf base) = (continues r).onTopOf base := by
  obtain ⟨answer, n, es⟩ := r
  cases answer <;> rfl

/-- A step that misses no operand does the same on a base. -/
theorem Steps.onTopOf {r : Reply (Except Fault Bool)} (h : m.Steps r)
    (hlimit : m.limits.evaluationStack = none)
    (hclear : ∀ id c, r.answer ≠ .error (.stackUnderflow id c)) :
    (m.onTopOf base).Steps (r.onTopOf base) := by
  have hsize : (m.onTopOf base).stack.size = base.size + m.stack.size :=
    Stack.size_onTopOf m.stack base
  cases h with
  | stopped hm => exact .stopped hm
  | completed hm hnext =>
    have h := Steps.completed (m := m.onTopOf base) hm hnext
    rwa [hsize] at h
  | lost hm hnext => exact .lost hm hnext
  | leftAtEnd hm hnext => exact .leftAtEnd hm hnext
  | refused hm hnext hbudget => exact .refused hm hnext hbudget
  | @executed f n i r hm hnext hbudget hr =>
    have hr' : (m.charge.onTopOf base).Performs f n i (r.onTopOf base) := by
      refine hr.onTopOf hlimit fun id c hfault => hclear id c ?_
      show (continues r).answer = _
      rw [continues, hfault]
    have h := Steps.executed (m := m.onTopOf base) hm hnext hbudget hr'
    rwa [continues_onTopOf, hsize] at h

theorem step_onTopOf (hlimit : m.limits.evaluationStack = none)
    (hclear : ∀ id c, m.step.answer ≠ .error (.stackUnderflow id c)) :
    (m.onTopOf base).step = m.step.onTopOf base :=
  (m.steps_step.onTopOf hlimit hclear).eq

/-! ## Many steps -/

theorem afterAll_onTopOf {α : Type} (base : Stack Value) (r : Reply α) (es : List Event) :
    (r.onTopOf base).afterAll (es.map (·.raised base.size)) = (r.afterAll es).onTopOf base := by
  simp only [Reply.afterAll, Reply.onTopOf, List.map_append]

/-- Steps that miss no operand do the same on a base, one after the other. -/
theorem history_onTopOf {k : Nat} (hlimit : m.limits.evaluationStack = none)
    (hclear : ∀ id c, .stepped (.error (.stackUnderflow id c)) ∉
      (m.history (List.replicate k .step)).answer) :
    (m.onTopOf base).history (List.replicate k .step) =
      (m.history (List.replicate k .step)).onTopOf base := by
  induction k generalizing m with
  | zero => rfl
  | succ k ih =>
    rw [List.replicate_succ, answer_history_cons] at hclear
    have hstep : (m.onTopOf base).step = m.step.onTopOf base := by
      refine step_onTopOf hlimit fun id c hfault => hclear id c ?_
      exact List.mem_cons.mpr (.inl (congrArg HostAnswer.stepped hfault).symm)
    -- the first step is the same on the base, and the induction goes on from its machine
    have hhandle : (m.onTopOf base).handle .step = (m.handle .step).onTopOf base :=
      congrArg (Reply.map HostAnswer.stepped) hstep
    have hlimit' : (m.handle .step).machine.limits.evaluationStack = none := by
      rwa [(m.handle_unchanged .step).2]
    have hrest := ih hlimit' fun id c h => hclear id c (List.mem_cons_of_mem _ h)
    have hjoin := afterAll_onTopOf base
      ((m.handle .step).machine.history (List.replicate k .step)) (m.handle .step).events
    rw [List.replicate_succ, history_cons, history_cons, hhandle]
    -- the first step leaves a machine on the same base, and the events of both parts are raised
    show ((history _ ((m.handle .step).machine.onTopOf base)).afterAll
      ((m.handle .step).events.map _)).map _ = _
    rw [hrest, hjoin]
    rfl

/-- Code does not see below its own operands. As long as no step asks for an operand that is not
there, and the stack has no limit, any number of steps do the same where other values lie beneath
the stack: every step has the same answer, and the machine is the same in the end, but for those
values, which are still beneath what the steps left on the stack. Nothing else is reported either,
except that the stack is so many values deeper. -/
theorem steps_onTopOf {k : Nat} (base : Stack Value) (hlimit : m.limits.evaluationStack = none)
    (hclear : ∀ id c, .stepped (.error (.stackUnderflow id c)) ∉
      (m.history (List.replicate k .step)).answer) :
    let original := m.history (List.replicate k .step)
    let raised := { m with stack := m.stack.onTopOf base }.history (List.replicate k .step)
    raised.answer = original.answer ∧
      raised.machine = { original.machine with stack := original.machine.stack.onTopOf base } ∧
      raised.machine.stack.toList = base.toList ++ original.machine.stack.toList ∧
      raised.events = original.events.map (·.raised base.size) := by
  intro original raised
  have hraised : raised = original.onTopOf base := history_onTopOf hlimit hclear
  rw [hraised]
  exact ⟨rfl, rfl, Stack.toList_onTopOf original.machine.stack base, rfl⟩

/-- Compare an array with itself in a routine, and jump to the end if the result is false. -/
def comparesWithItself : Program :=
  .ofList
    [⟨"main", #[.synthetic (.push (.array [])), .synthetic (.call ⟨1⟩), .synthetic .dup,
        .synthetic (.jumpIfFalse 4)]⟩,
      ⟨"compare", #[.synthetic .dup, .synthetic (.compare .eq), .synthetic .leave]⟩]

/-- The routine is called, compares and is left, the jump is taken, and the run completes; a text
that lay on the stack before lies beneath the result. -/
theorem steps_onTopOf_call :
    let m := start comparesWithItself .unbounded
    let base := Stack.empty.push (Value.text "below")
    let original := m.history (List.replicate 9 .step)
    let raised := { m with stack := m.stack.onTopOf base }.history (List.replicate 9 .step)
    (m.limits.evaluationStack = none ∧
        ∀ id c, .stepped (.error (.stackUnderflow id c)) ∉ original.answer) ∧
      raised.answer = List.replicate 8 (.stepped (.ok true)) ++ [.stepped (.ok false)] ∧
      raised.machine.status = .completed ∧
      raised.machine.stack.toList = [.text "below", .ofBool false] := by
  have hanswer : ((start comparesWithItself .unbounded).history (List.replicate 9 .step)).answer =
      List.replicate 8 (.stepped (.ok true)) ++ [.stepped (.ok false)] := rfl
  have hclear : ∀ id c, .stepped (.error (.stackUnderflow id c)) ∉
      ((start comparesWithItself .unbounded).history (List.replicate 9 .step)).answer := by
    rw [hanswer]
    simp
  have hstatus : ((start comparesWithItself .unbounded).history
      (List.replicate 9 .step)).machine.status = .completed := rfl
  have hstack : ((start comparesWithItself .unbounded).history
      (List.replicate 9 .step)).machine.stack.toList = [.ofBool false] := rfl
  obtain ⟨hsame, hmachine, hbelow, -⟩ :=
    steps_onTopOf (Stack.empty.push (.text "below")) rfl hclear
  refine ⟨⟨rfl, hclear⟩, hsame.trans hanswer, ?_, ?_⟩
  · rw [hmachine]
    exact hstatus
  · rw [hbelow, hstack]
    rfl

end Machine

end ScriptMachine
