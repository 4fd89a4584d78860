import ScriptMachine.Machine.HostCall
import ScriptMachine.Program.Flow

/-!
# The rules of the machine

The machine's functions, told as rules: a rule says under which conditions on the machine a step or
an instruction comes to what, with the reply in full. A property of all steps is then proved by one
case for each rule, and what a machine does is found by choosing the rule that applies.

* `Operation.Puts`, `Operation.Moves`: what an operation does to the stack and to the frame on top.
* `Machine.Performs`: the rules of an instruction, which are those of `Machine.perform`
  (`performs_perform`, `Performs.eq`).
* `Machine.Steps`: the rules of a step, which are those of `Machine.step` (`steps_step`,
  `Steps.eq`).
* `Machine.TerminatesWith`: why a step terminates a run (`Steps.terminatesWith`).
-/

namespace ScriptMachine

/-! ## Operations -/

/-- The operation takes its operands from the stack `s`, which leaves `rest`, and computes the value
`v` that is to be put there. -/
inductive Operation.Puts (span : Span) (op : Operation) (s rest : Stack Value) (v : Value) :
    Prop where
  | push (hop : op = .push v) (hs : s = rest)
  | dup (hop : op = .dup) (hs : s = rest) (hv : s.top? = some v)
  | arithmetic {o : ArithmeticOperator} {a b : Value} (hop : op = .arithmetic o)
      (hs : s = (rest.push a).push b) (hv : o.evaluate a b span = .ok v)
  | compare {o : ComparisonOperator} {a b : Value} (hop : op = .compare o)
      (hs : s = (rest.push a).push b) (hv : o.evaluate a b = v)

/-- In a routine of the given size, the operation takes its operands from the stack `s`, which
leaves `rest`, and moves the frame on top; nothing is put on the stack. -/
inductive Operation.Moves (routineSize : Nat) (op : Operation) (s rest : Stack Value)
    (move : Frame → Frame) : Prop where
  | pop {v : Value} (hop : op = .pop) (hs : s = rest.push v) (hmove : move = Frame.advance)
  | jump {target : Nat} (hop : op = .jump target) (htarget : target ≤ routineSize)
      (hs : s = rest) (hmove : move = (·.jump target))
  | fallThrough {target : Nat} {v : Value} (hop : op = .jumpIfFalse target)
      (htarget : target ≤ routineSize) (hs : s = rest.push v) (hv : v.isTruthy = true)
      (hmove : move = Frame.advance)
  | branch {target : Nat} {v : Value} (hop : op = .jumpIfFalse target)
      (htarget : target ≤ routineSize) (hs : s = rest.push v) (hv : v.isTruthy = false)
      (hmove : move = (·.jump target))

/-- Operands are only taken off: below the value that is put there is no more than before. -/
theorem Operation.Puts.size_le {span : Span} {op : Operation} {s rest : Stack Value} {v : Value}
    (h : op.Puts span s rest v) : rest.size ≤ s.size := by
  cases h with
  | push _ hs | dup _ hs => exact Nat.le_of_eq (congrArg Stack.size hs.symm)
  | arithmetic _ hs | compare _ hs =>
    rw [hs, Stack.size_push, Stack.size_push]
    omega

/-- An operation that puts nothing on the stack cannot make it larger. -/
theorem Operation.Moves.size_le {n : Nat} {op : Operation} {s rest : Stack Value}
    {move : Frame → Frame} (h : op.Moves n s rest move) : rest.size ≤ s.size := by
  cases h with
  | jump _ _ hs => exact Nat.le_of_eq (congrArg Stack.size hs.symm)
  | pop _ hs | fallThrough _ _ hs | branch _ _ hs =>
    rw [hs, Stack.size_push]
    omega

/-- Control goes to the next instruction or to a written target, and nowhere else within a routine.
-/
theorem Operation.mem_successors {op : Operation} {c c' : Nat} (h : c' ∈ op.successors c) :
    c' = c + 1 ∨ c' ∈ op.targets := by
  cases op with
  | jump target => exact .inr h
  | jumpIfFalse target =>
    rcases List.mem_cons.mp h with h | h
    · exact .inl h
    · exact .inr h
  | call | leave => cases h
  | push | pop | dup | arithmetic | compare => exact .inl (List.mem_singleton.mp h)

/-- An operation that yields a value has one successor, the instruction behind it. -/
theorem Operation.Puts.advance_mem {span : Span} {op : Operation} {s rest : Stack Value} {v : Value}
    (h : op.Puts span s rest v) (f : Frame) :
    ∃ c' ∈ op.successors f.counter, f.advance = ⟨f.routine, c'⟩ := by
  refine ⟨f.counter + 1, ?_, rfl⟩
  cases h with
  | push hop | dup hop | arithmetic hop | compare hop =>
    rw [hop]
    exact List.mem_singleton_self _

/-- Each move of the frame on top leads to one of the successors of the operation, in the same
routine. -/
theorem Operation.Moves.move_mem {n : Nat} {op : Operation} {s rest : Stack Value}
    {move : Frame → Frame} (h : op.Moves n s rest move) (f : Frame) :
    ∃ c' ∈ op.successors f.counter, move f = ⟨f.routine, c'⟩ := by
  cases h with
  | pop hop _ hmove =>
    rw [hop, hmove]
    exact ⟨f.counter + 1, List.mem_singleton_self _, rfl⟩
  | @jump target hop _ _ hmove =>
    rw [hop, hmove]
    exact ⟨target, List.mem_singleton_self _, rfl⟩
  | fallThrough hop _ _ _ hmove =>
    rw [hop, hmove]
    exact ⟨f.counter + 1, List.mem_cons_self, rfl⟩
  | @branch target _ hop _ _ _ hmove =>
    rw [hop, hmove]
    exact ⟨target, List.mem_cons_of_mem _ (List.mem_singleton_self _), rfl⟩

/-- An operation that yields a value is no jump. -/
theorem Operation.Puts.targets_eq_nil {span : Span} {op : Operation} {s rest : Stack Value}
    {v : Value} (h : op.Puts span s rest v) : op.targets = [] := by
  cases h with
  | push hop | dup hop | arithmetic hop | compare hop =>
    rw [hop]
    rfl

/-- A jump is only made to a place in the routine, or right behind its last instruction. -/
theorem Operation.Moves.target_le {n : Nat} {op : Operation} {s rest : Stack Value}
    {move : Frame → Frame} (h : op.Moves n s rest move) {target : Nat}
    (ht : target ∈ op.targets) : target ≤ n := by
  cases h with
  | pop hop =>
    rw [hop] at ht
    cases ht
  | jump hop hle | fallThrough hop hle | branch hop hle =>
    rw [hop] at ht
    rwa [List.mem_singleton.mp ht]

/-! ## Instructions -/

namespace Machine

/-- The rules of an instruction that the frame `f`, of a routine of the given size, is at, on a
machine that runs. -/
inductive Performs (m : Machine) (f : Frame) (routineSize : Nat) (i : Instruction) :
    Reply (Except Fault Unit) → Prop where
  | underflow (hs : m.stack.size < i.operands) :
      Performs m f routineSize i (.silent (.error (.stackUnderflow f.routine f.counter)) m)
  | outOfBounds {target : Nat} (hs : i.operands ≤ m.stack.size)
      (hop : target ∈ i.operation.targets) (htarget : routineSize < target) :
      Performs m f routineSize i (.silent (.error (.jumpOutOfBounds f.routine target)) m)
  | unknownCallee {callee : RoutineId} (hop : i.operation = .call callee)
      (hcallee : m.program.routine? callee = none) :
      Performs m f routineSize i (.silent (.error (.unknownRoutine callee)) m)
  | put {rest : Stack Value} {v : Value} (hop : i.operation.Puts i.span m.stack rest v)
      (hroom : reached? m.limits.evaluationStack rest.size = none) :
      Performs m f routineSize i
        (.silent (.ok ())
          { m with stack := rest.push v, frames := m.frames.modifyTop Frame.advance })
  | overflow {rest : Stack Value} {v : Value} {limit : Nat}
      (hop : i.operation.Puts i.span m.stack rest v)
      (hfull : reached? m.limits.evaluationStack rest.size = some limit) :
      Performs m f routineSize i
        ⟨.ok (),
          { m with stack := rest, status := .terminated (.evaluationStackOverflow i.span limit) },
          [.terminated .evaluationStackOverflow i.span m.steps]⟩
  | failed {op : ArithmeticOperator} {rest : Stack Value} {a b : Value} {d : Diagnostic}
      (hop : i.operation = .arithmetic op) (hs : m.stack = (rest.push a).push b)
      (hd : op.evaluate a b i.span = .error d) :
      Performs m f routineSize i
        ⟨.ok (), { m with stack := rest, status := .terminated d },
          [.terminated d.code d.span m.steps]⟩
  | moved {rest : Stack Value} {move : Frame → Frame}
      (hop : i.operation.Moves routineSize m.stack rest move) :
      Performs m f routineSize i
        (.silent (.ok ()) { m with stack := rest, frames := m.frames.modifyTop move })
  | tooDeep {callee : RoutineId} {r : Routine} {limit : Nat} (hop : i.operation = .call callee)
      (hcallee : m.program.routine? callee = some r)
      (hfull : reached? m.limits.callDepth m.frames.size = some limit) :
      Performs m f routineSize i
        ⟨.ok (), { m with status := .terminated (.callDepthExceeded i.span limit) },
          [.terminated .callDepthExceeded i.span m.steps]⟩
  | called {callee : RoutineId} {r : Routine} (hop : i.operation = .call callee)
      (hcallee : m.program.routine? callee = some r)
      (hroom : reached? m.limits.callDepth m.frames.size = none) :
      Performs m f routineSize i
        ⟨.ok (),
          { m with frames := (m.frames.modifyTop Frame.advance).push (.start callee) },
          [.called callee (m.frames.size + 1)]⟩
  | left (hop : i.operation = .leave) :
      Performs m f routineSize i (.silent (.ok ()) { m with frames := m.frames.pop })

/-- On a machine that runs the report is taken, with one event for it. -/
theorem terminate_of_running {m : Machine} (hm : m.status = .running) (d : Diagnostic) :
    m.terminate d =
      ⟨(), { m with status := .terminated d }, [.terminated d.code d.span m.steps]⟩ := by
  rw [terminate, hm]

/-- Below the limit the value lands on the stack and control moves on. -/
theorem pushAndAdvance_of_room {m : Machine} {v : Value} {span : Span}
    (h : reached? m.limits.evaluationStack m.stack.size = none) :
    m.pushAndAdvance v span = .silent () { m with stack := m.stack.push v }.advance := by
  rw [pushAndAdvance, h]

/-- At the limit the value is lost and the run ends; the frame stays at the instruction. -/
theorem pushAndAdvance_of_full {m : Machine} {v : Value} {span : Span} {limit : Nat}
    (h : reached? m.limits.evaluationStack m.stack.size = some limit) :
    m.pushAndAdvance v span = m.terminate (.evaluationStackOverflow span limit) := by
  rw [pushAndAdvance, h]

/-- A result is treated as any value that is to be put on the stack. -/
theorem applyArithmetic_of_ok {m : Machine} (hm : m.status = .running) {a b v : Value}
    {op : ArithmeticOperator} {span : Span} (h : op.evaluate a b span = .ok v) :
    m.applyArithmetic a op b span = m.pushAndAdvance v span := by
  rw [applyArithmetic, if_pos (isRunning_iff.mpr hm), h]

/-- A failure of the operator becomes the report of the run. -/
theorem applyArithmetic_of_error {m : Machine} (hm : m.status = .running) {a b : Value}
    {op : ArithmeticOperator} {span : Span} {d : Diagnostic} (h : op.evaluate a b span = .error d) :
    m.applyArithmetic a op b span = m.terminate d := by
  rw [applyArithmetic, if_pos (isRunning_iff.mpr hm), h]

/-- Once the machine has stopped, an operator is not even computed. -/
theorem applyArithmetic_of_stopped {m : Machine} (hm : m.status ≠ .running) {a b : Value}
    {op : ArithmeticOperator} {span : Span} :
    m.applyArithmetic a op b span = .silent () m := by
  rw [applyArithmetic, if_neg (mt isRunning_iff.mp hm)]

/-- Once the machine has stopped, a comparison is not even computed. -/
theorem applyComparison_of_stopped {m : Machine} (hm : m.status ≠ .running) {a b : Value}
    {op : ComparisonOperator} {span : Span} :
    m.applyComparison a op b span = .silent () m := by
  rw [applyComparison, if_neg (mt isRunning_iff.mp hm)]

/-- A comparison never fails, so only the room on the stack decides. -/
theorem applyComparison_of_running {m : Machine} (hm : m.status = .running) {a b : Value}
    {op : ComparisonOperator} {span : Span} :
    m.applyComparison a op b span = m.pushAndAdvance (op.evaluate a b) span := by
  rw [applyComparison, if_pos (isRunning_iff.mpr hm)]

/-- The caller is moved past the call before the callee is entered, so a return goes on behind the
call. -/
theorem call_of_room {m : Machine} {callee : RoutineId} {span : Span}
    (h : reached? m.limits.callDepth m.frames.size = none) :
    m.call callee span = ⟨(), m.advance.enter callee, [.called callee (m.frames.size + 1)]⟩ := by
  rw [call, h]
  simp [enter, advance]

/-- At the limit no frame is entered, and the caller stays at the call. -/
theorem call_of_full {m : Machine} {callee : RoutineId} {span : Span} {limit : Nat}
    (h : reached? m.limits.callDepth m.frames.size = some limit) :
    m.call callee span = m.terminate (.callDepthExceeded span limit) := by
  rw [call, h]

/-- Both operands of an operator leave the stack before it is computed. -/
theorem discard_discard {m : Machine} {rest : Stack Value} {a b : Value}
    (hs : m.stack = (rest.push a).push b) : m.discard.discard = { m with stack := rest } := by
  rw [discard, discard, hs, Stack.pop_push, Stack.pop_push]

/-- An operation with one operand finds none: the rule is underflow. -/
theorem performs_of_top?_eq_none {m : Machine} {f : Frame} {n : Nat} {i : Instruction}
    (hop : i.operands = 1) (htop : m.stack.top? = none) :
    m.Performs f n i (.silent (.error (.stackUnderflow f.routine f.counter)) m) := by
  -- an empty stack is one that is smaller than the single operand
  refine .underflow ?_
  rw [Stack.top?_eq_none_iff.mp htop, hop]
  exact Nat.one_pos

/-- An operation with two operands does not find them: the rule is underflow, though one of them may
be there. -/
theorem performs_of_topTwo?_eq_none {m : Machine} {f : Frame} {n : Nat} {i : Instruction}
    (hop : i.operands = 2) (htop : m.stack.topTwo? = none) :
    m.Performs f n i (.silent (.error (.stackUnderflow f.routine f.counter)) m) := by
  refine .underflow ?_
  rw [hop]
  exact Stack.topTwo?_eq_none_iff.mp htop

/-- Where operands are at hand, room on the stack chooses between the two rules of a value. -/
theorem performs_pushAndAdvance {m : Machine} (hm : m.status = .running) (f : Frame) (n : Nat)
    {i : Instruction} {rest : Stack Value} {v : Value}
    (hop : i.operation.Puts i.span m.stack rest v) :
    m.Performs f n i (({ m with stack := rest }.pushAndAdvance v i.span).map .ok) := by
  -- the limit is compared with the stack below the value, after the operands are gone
  cases hr : reached? m.limits.evaluationStack rest.size with
  | none =>
    rw [pushAndAdvance_of_room (m := { m with stack := rest }) hr]
    exact .put hop hr
  | some limit =>
    have hm' : ({ m with stack := rest } : Machine).status = .running := hm
    rw [pushAndAdvance_of_full (m := { m with stack := rest }) hr, terminate_of_running hm']
    exact .overflow hop hr

/-- The rules for `arithmetic`: underflow, a failure, or a value that is put. -/
theorem performs_arithmetic {m : Machine} (hm : m.status = .running) (f : Frame) (n : Nat)
    {i : Instruction} {op : ArithmeticOperator} (hop : i.operation = .arithmetic op) :
    m.Performs f n i (m.perform f n i) := by
  cases htop : m.stack.topTwo? with
  | none =>
    simp only [perform, hop, htop]
    exact performs_of_topTwo?_eq_none (congrArg Operation.operands hop) htop
  | some ab =>
    obtain ⟨a, b⟩ := ab
    have hs := Stack.eq_push_push_pop_pop_of_topTwo? htop
    simp only [perform, hop, htop]
    -- the operands are off the stack whether or not the operator has a result
    cases hv : op.evaluate a b i.span with
    | ok v =>
      rw [applyArithmetic_of_ok (m := m.discard.discard) hm hv]
      exact performs_pushAndAdvance hm f n (.arithmetic hop hs hv)
    | error d =>
      rw [applyArithmetic_of_error (m := m.discard.discard) hm hv,
        terminate_of_running (m := m.discard.discard) hm]
      exact .failed hop hs hv

/-- The rules for `compare`: underflow, or a value that is put. -/
theorem performs_compare {m : Machine} (hm : m.status = .running) (f : Frame) (n : Nat)
    {i : Instruction} {op : ComparisonOperator} (hop : i.operation = .compare op) :
    m.Performs f n i (m.perform f n i) := by
  cases htop : m.stack.topTwo? with
  | none =>
    simp only [perform, hop, htop]
    exact performs_of_topTwo?_eq_none (congrArg Operation.operands hop) htop
  | some ab =>
    obtain ⟨a, b⟩ := ab
    have hs := Stack.eq_push_push_pop_pop_of_topTwo? htop
    simp only [perform, hop, htop]
    rw [applyComparison_of_running (m := m.discard.discard) hm]
    exact performs_pushAndAdvance hm f n (.compare hop hs rfl)

/-- The rules for `jump`: a move, or a target out of bounds. -/
theorem performs_jump {m : Machine} (f : Frame) (n : Nat) {i : Instruction} {target : Nat}
    (hop : i.operation = .jump target) : m.Performs f n i (m.perform f n i) := by
  by_cases ht : target ≤ n
  · simp only [perform, hop, ht, if_true]
    exact .moved (.jump hop ht rfl rfl)
  · simp only [perform, hop, ht, if_false]
    -- a jump takes no operand, so it cannot underflow first
    refine .outOfBounds ?_ ?_ (Nat.lt_of_not_le ht)
    · rw [Instruction.operands, hop]
      exact Nat.zero_le _
    · rw [hop]
      exact List.mem_singleton_self _

/-- The rules for `jumpIfFalse`: underflow comes before the target is looked at, and the target
before the condition. -/
theorem performs_jumpIfFalse {m : Machine} (f : Frame) (n : Nat) {i : Instruction} {target : Nat}
    (hop : i.operation = .jumpIfFalse target) : m.Performs f n i (m.perform f n i) := by
  cases htop : m.stack.top? with
  | none =>
    simp only [perform, hop, htop]
    exact performs_of_top?_eq_none (congrArg Operation.operands hop) htop
  | some v =>
    have hs := Stack.eq_push_pop_of_top? htop
    -- the target is checked in either case, also where the jump would not be taken
    by_cases ht : target ≤ n
    · cases hv : v.isTruthy with
      | true =>
        simp only [perform, hop, htop, ht, hv, if_true]
        exact .moved (.fallThrough hop ht hs hv rfl)
      | false =>
        simp only [perform, hop, htop, ht, hv, if_true]
        exact .moved (.branch hop ht hs hv rfl)
    · simp only [perform, hop, htop, ht, if_false]
      -- the operand is there, but it is not taken for a jump that goes nowhere
      refine .outOfBounds ?_ ?_ (Nat.lt_of_not_le ht)
      · rw [Instruction.operands, hop, hs, Stack.size_push]
        exact Nat.le_add_left _ _
      · rw [hop]
        exact List.mem_singleton_self _

/-- The rules for `call`: the callee is looked up before there needs to be room for its frame. -/
theorem performs_call {m : Machine} (hm : m.status = .running) (f : Frame) (n : Nat)
    {i : Instruction} {callee : RoutineId} (hop : i.operation = .call callee) :
    m.Performs f n i (m.perform f n i) := by
  cases hr : m.program.routine? callee with
  | none =>
    simp only [perform, hop, hr]
    exact .unknownCallee hop hr
  | some r =>
    simp only [perform, hop, hr]
    cases hd : reached? m.limits.callDepth m.frames.size with
    | none =>
      rw [call_of_room hd]
      exact .called hop hr hd
    | some limit =>
      rw [call_of_full hd, terminate_of_running hm]
      exact .tooDeep hop hr hd

/-- What `perform` replies is what a rule says. -/
theorem performs_perform {m : Machine} (hm : m.status = .running) (f : Frame) (n : Nat)
    (i : Instruction) : m.Performs f n i (m.perform f n i) := by
  cases hop : i.operation with
  | push v =>
    simp only [perform, hop]
    exact performs_pushAndAdvance hm f n (.push hop rfl)
  | pop =>
    cases htop : m.stack.top? with
    | none =>
      simp only [perform, hop, htop]
      exact performs_of_top?_eq_none (congrArg Operation.operands hop) htop
    | some v =>
      simp only [perform, hop, htop]
      exact .moved (.pop hop (Stack.eq_push_pop_of_top? htop) rfl)
  | dup =>
    cases htop : m.stack.top? with
    | none =>
      simp only [perform, hop, htop]
      exact performs_of_top?_eq_none (congrArg Operation.operands hop) htop
    | some v =>
      simp only [perform, hop, htop]
      exact performs_pushAndAdvance hm f n (.dup hop rfl htop)
  | arithmetic op => exact performs_arithmetic hm f n hop
  | compare op => exact performs_compare hm f n hop
  | jump target => exact performs_jump f n hop
  | jumpIfFalse target => exact performs_jumpIfFalse f n hop
  | call callee => exact performs_call hm f n hop
  | leave =>
    simp only [perform, hop]
    exact .left hop

/-- The four operations that yield a value come to the same end once the value is known. -/
theorem perform_of_puts {m : Machine} (hm : m.status = .running) (f : Frame) (n : Nat)
    {i : Instruction} {rest : Stack Value} {v : Value}
    (hop : i.operation.Puts i.span m.stack rest v) :
    m.perform f n i = ({ m with stack := rest }.pushAndAdvance v i.span).map .ok := by
  -- each operation finds its operands in its own way; from there on they agree
  cases hop with
  | push hop hs =>
    subst hs
    simp only [perform, hop]
  | dup hop hs hv =>
    subst hs
    simp only [perform, hop, hv]
  | arithmetic hop hs hv =>
    have htop := Stack.topTwo?_eq_some_iff.mpr ⟨_, hs⟩
    simp only [perform, hop, htop]
    rw [applyArithmetic_of_ok (m := m.discard.discard) hm hv, discard_discard hs]
  | compare hop hs hv =>
    have htop := Stack.topTwo?_eq_some_iff.mpr ⟨_, hs⟩
    simp only [perform, hop, htop]
    rw [applyComparison_of_running (m := m.discard.discard) hm, discard_discard hs, hv]

/-- Where a rule applies, `perform` replies what it says. -/
theorem Performs.eq {m : Machine} (hm : m.status = .running) {f : Frame} {n : Nat}
    {i : Instruction} {r : Reply (Except Fault Unit)} (h : m.Performs f n i r) :
    m.perform f n i = r := by
  cases h with
  | underflow hs =>
    -- too few values for the operands: the operation takes some, and does not see them
    cases hop : i.operation with
    | pop | dup | jumpIfFalse =>
      have htop : m.stack.top? = none := by
        rw [Instruction.operands, hop] at hs
        exact Stack.top?_eq_none_iff.mpr (Nat.lt_one_iff.mp hs)
      simp only [perform, hop, htop]
    | arithmetic | compare =>
      have htop : m.stack.topTwo? = none := by
        rw [Instruction.operands, hop] at hs
        exact Stack.topTwo?_eq_none_iff.mpr hs
      simp only [perform, hop, htop]
    | push | jump | call | leave =>
      rw [Instruction.operands, hop] at hs
      exact absurd hs (Nat.not_lt_zero _)
  | @outOfBounds target hs hop htarget =>
    -- only jumps have targets, and a conditional one looks at its operand first
    have ht : ¬ target ≤ n := Nat.not_le_of_lt htarget
    cases hi : i.operation with
    | jump t =>
      rw [hi] at hop
      cases List.mem_singleton.mp hop
      simp only [perform, hi, ht, if_false]
    | jumpIfFalse t =>
      rw [hi] at hop
      cases List.mem_singleton.mp hop
      rw [Instruction.operands, hi] at hs
      cases htop : m.stack.top? with
      | none =>
        rw [Stack.top?_eq_none_iff.mp htop] at hs
        exact absurd hs (Nat.not_succ_le_zero 0)
      | some v => simp only [perform, hi, htop, ht, if_false]
    | _ =>
      rw [hi] at hop
      cases hop
  | unknownCallee hop hcallee => simp only [perform, hop, hcallee]
  | put hop hroom =>
    rw [perform_of_puts hm f n hop, pushAndAdvance_of_room (by exact hroom)]
    rfl
  | @overflow rest v limit hop hfull =>
    have hm' : ({ m with stack := rest } : Machine).status = .running := hm
    rw [perform_of_puts hm f n hop, pushAndAdvance_of_full (by exact hfull),
      terminate_of_running hm']
    rfl
  | @failed op rest a b d hop hs hd =>
    have htop := Stack.topTwo?_eq_some_iff.mpr ⟨_, hs⟩
    simp only [perform, hop, htop]
    rw [applyArithmetic_of_error (m := m.discard.discard) hm hd,
      terminate_of_running (m := m.discard.discard) hm, discard_discard hs]
    rfl
  | moved hop =>
    cases hop with
    | pop hop hs hmove =>
      simp [perform, hop, hs, hmove, discard, advance]
    | jump hop ht hs hmove =>
      simp [perform, hop, hs, hmove, ht, jump]
    | fallThrough hop ht hs hv hmove =>
      simp [perform, hop, hs, hmove, ht, hv, discard, advance]
    | branch hop ht hs hv hmove =>
      simp [perform, hop, hs, hmove, ht, hv, discard, jump]
  | tooDeep hop hcallee hfull =>
    simp only [perform, hop, hcallee]
    rw [call_of_full hfull, terminate_of_running hm]
    rfl
  | called hop hcallee hroom =>
    simp only [perform, hop, hcallee]
    rw [call_of_room hroom]
    rfl
  | left hop =>
    simp only [perform, hop]
    rfl

/-! ## What comes next -/

/-- A run is complete exactly when all frames are left, whatever the program is. -/
theorem next_eq_complete_iff {m : Machine} : m.next = .complete ↔ m.frames.top? = none := by
  grind [next]

/-- Only a frame whose routine does not exist is lost, and it is named by that routine. -/
theorem next_eq_lost_iff {m : Machine} {id : RoutineId} :
    m.next = .lost id ↔
      ∃ f, m.frames.top? = some f ∧ f.routine = id ∧ m.program.routine? f.routine = none := by
  grind [next]

/-- A routine is left at its end when its counter has no instruction. -/
theorem next_eq_leave_iff {m : Machine} {f : Frame} :
    m.next = .leave f ↔ m.frames.top? = some f ∧
      ∃ r, m.program.routine? f.routine = some r ∧ r.instruction? f.counter = none := by
  grind [next]

/-- An instruction is executed at the counter of the frame on top, and jumps are held against the
size of its routine. -/
theorem next_eq_execute_iff {m : Machine} {f : Frame} {n : Nat} {i : Instruction} :
    m.next = .execute f n i ↔ m.frames.top? = some f ∧
      ∃ r, m.program.routine? f.routine = some r ∧ r.size = n ∧
        r.instruction? f.counter = some i := by
  grind [next]

/-- The frame `f` on top is at the instruction `i` of the routine `r`. -/
structure AtInstruction (m : Machine) (f : Frame) (r : Routine) (i : Instruction) : Prop where
  frame : m.frames.top? = some f
  routine : m.program.routine? f.routine = some r
  instruction : r.instruction? f.counter = some i

/-- A frame at an instruction has it executed next. -/
theorem AtInstruction.next {m : Machine} {f : Frame} {r : Routine} {i : Instruction}
    (h : m.AtInstruction f r i) : m.next = .execute f r.size i :=
  next_eq_execute_iff.mpr ⟨h.frame, r, h.routine, rfl, h.instruction⟩

/-- What is executed next is the instruction that the frame on top is at. -/
theorem atInstruction_of_next {m : Machine} {f : Frame} {n : Nat} {i : Instruction}
    (h : m.next = .execute f n i) : ∃ r, r.size = n ∧ m.AtInstruction f r i := by
  obtain ⟨hf, r, hr, hsize, hi⟩ := next_eq_execute_iff.mp h
  exact ⟨r, hsize, hf, hr, hi⟩

/-- The place of a machine is in its frames and its program. -/
theorem AtInstruction.congr {m n : Machine} {f : Frame} {r : Routine} {i : Instruction}
    (h : m.AtInstruction f r i) (hframes : n.frames = m.frames) (hprogram : n.program = m.program) :
    n.AtInstruction f r i where
  frame := hframes ▸ h.frame
  routine := hprogram ▸ h.routine
  instruction := h.instruction

/-- The instruction is one that the program has at that place. -/
theorem AtInstruction.has {m : Machine} {f : Frame} {r : Routine} {i : Instruction}
    (h : m.AtInstruction f r i) : m.program.Has f.routine f.counter i :=
  Program.has_of_instruction? h.routine h.instruction

/-- The counter of a frame at an instruction is inside its routine. -/
theorem AtInstruction.counter_lt {m : Machine} {f : Frame} {r : Routine} {i : Instruction}
    (h : m.AtInstruction f r i) : f.counter < r.size :=
  (Array.getElem?_eq_some_iff.mp h.instruction).1

/-- A machine is at one instruction only, since it does one thing next. -/
theorem AtInstruction.unique {m : Machine} {f g : Frame} {r q : Routine} {i j : Instruction}
    (h : m.AtInstruction f r i) (h' : m.AtInstruction g q j) : f = g ∧ i = j := by
  have hnext := h.next.symm.trans h'.next
  obtain ⟨hframe, -, hinstruction⟩ := Next.execute.inj hnext
  exact ⟨hframe, hinstruction⟩

/-! ## Steps -/

/-- The rules of a step. -/
inductive Steps (m : Machine) : Reply (Except Fault Bool) → Prop where
  | stopped (hm : m.status ≠ .running) : Steps m (.silent (.ok false) m)
  | completed (hm : m.status = .running) (hnext : m.next = .complete) :
      Steps m ⟨.ok false, { m with status := .completed }, [.completed m.stack.size m.steps]⟩
  | lost {id : RoutineId} (hm : m.status = .running) (hnext : m.next = .lost id) :
      Steps m (.silent (.error (.unknownRoutine id)) m)
  | leftAtEnd {f : Frame} (hm : m.status = .running) (hnext : m.next = .leave f) :
      Steps m ⟨.ok true, { m with frames := m.frames.pop }, [.returnedImplicitly f.routine]⟩
  | refused {f : Frame} {n budget : Nat} {i : Instruction} (hm : m.status = .running)
      (hnext : m.next = .execute f n i)
      (hbudget : reached? m.limits.stepBudget m.steps = some budget) :
      Steps m ⟨.ok false, { m with status := .terminated (.stepBudgetExceeded i.span budget) },
        [.terminated .stepBudgetExceeded i.span m.steps]⟩
  | executed {f : Frame} {n : Nat} {i : Instruction} {r : Reply (Except Fault Unit)}
      (hm : m.status = .running) (hnext : m.next = .execute f n i)
      (hbudget : reached? m.limits.stepBudget m.steps = none) (hr : m.charge.Performs f n i r) :
      Steps m ((continues r).after (.executed f i.operation m.stack.size))

/-- What `step` replies is what a rule says. -/
theorem steps_step (m : Machine) : m.Steps m.step := by
  by_cases hm : m.status = .running
  · rw [step, if_pos (isRunning_iff.mpr hm)]
    cases hnext : m.next with
    | complete => exact .completed hm hnext
    | lost id => exact .lost hm hnext
    | leave f => exact .leftAtEnd hm hnext
    | execute f n i =>
      -- the budget is looked at before the instruction is charged
      cases hb : reached? m.limits.stepBudget m.steps with
      | some budget =>
        simp only [execute, hb]
        rw [terminate_of_running hm]
        exact .refused hm hnext hb
      | none =>
        simp only [execute, hb]
        exact .executed hm hnext hb (performs_perform (m := m.charge) hm f n i)
  · rw [step, if_neg (mt isRunning_iff.mp hm)]
    exact .stopped hm

/-- Where a rule applies, `step` replies what it says. -/
theorem Steps.eq {m : Machine} {r : Reply (Except Fault Bool)} (h : m.Steps r) : m.step = r := by
  cases h with
  | stopped hm => rw [step, if_neg (mt isRunning_iff.mp hm)]
  | completed hm hnext =>
    rw [step, if_pos (isRunning_iff.mpr hm), hnext]
    rfl
  | lost hm hnext => rw [step, if_pos (isRunning_iff.mpr hm), hnext]
  | leftAtEnd hm hnext =>
    rw [step, if_pos (isRunning_iff.mpr hm), hnext]
    rfl
  | refused hm hnext hbudget =>
    rw [step, if_pos (isRunning_iff.mpr hm), hnext]
    simp only [execute, hbudget]
    rw [terminate_of_running hm]
    rfl
  | executed hm hnext hbudget hr =>
    rw [step, if_pos (isRunning_iff.mpr hm), hnext]
    simp only [execute, hbudget]
    -- an instruction is performed by the machine that has already been charged
    have hm' : m.charge.status = .running := hm
    rw [hr.eq hm']

/-! ## What a step leaves alone, and what it answers -/

/-- The answer of a step is read off the machine and does not change it. -/
theorem machine_continues (r : Reply (Except Fault Unit)) :
    (continues r).machine = r.machine := by
  unfold continues
  cases r.answer <;> rfl

/-- No instruction changes the program, the limits or the count of instructions. -/
theorem Performs.unchanged {m : Machine} {f : Frame} {n : Nat} {i : Instruction}
    {r : Reply (Except Fault Unit)} (h : m.Performs f n i r) :
    r.machine.program = m.program ∧ r.machine.limits = m.limits ∧ r.machine.steps = m.steps := by
  cases h <;> exact ⟨rfl, rfl, rfl⟩

/-- No step changes the program or the limits; the count may change, since a step charges. -/
theorem Steps.unchanged {m : Machine} {r : Reply (Except Fault Bool)} (h : m.Steps r) :
    r.machine.program = m.program ∧ r.machine.limits = m.limits := by
  cases h with
  | @executed f n i r hm hnext hbudget hr =>
    -- the event in front of the reply does not matter to the machine
    show (continues r).machine.program = m.program ∧ (continues r).machine.limits = m.limits
    rw [machine_continues]
    exact ⟨hr.unchanged.1, hr.unchanged.2.1⟩
  | _ => exact ⟨rfl, rfl⟩

/-- A fault does not stop the machine. -/
theorem Steps.status_of_error {m : Machine} {r : Reply (Except Fault Bool)} (h : m.Steps r)
    {f : Fault} (hf : r.answer = .error f) : r.machine.status = .running := by
  cases h with
  | lost hm => exact hm
  | executed hm hnext hbudget hr =>
    cases hr with
    | underflow | outOfBounds | unknownCallee => exact hm
    | _ => cases hf
  | _ => cases hf

/-- The answer of a step is whether the machine runs after it, so it need not be stored. -/
theorem Steps.answer_eq {m : Machine} {r : Reply (Except Fault Bool)} (h : m.Steps r) {b : Bool}
    (hb : r.answer = .ok b) : b = r.machine.isRunning := by
  cases h with
  | stopped hm =>
    cases hb
    exact (Bool.eq_false_iff.mpr (mt isRunning_iff.mp hm)).symm
  | completed | refused =>
    cases hb
    rfl
  | lost => cases hb
  | leftAtEnd hm =>
    cases hb
    exact (isRunning_iff.mpr hm).symm
  | executed hm hnext hbudget hr =>
    -- of an instruction the answer is computed from the machine, by `continues`
    cases hr with
    | underflow | outOfBounds | unknownCallee => cases hb
    | _ =>
      cases hb
      rfl

/-- Another step may follow only on a machine that was running. -/
theorem Steps.running_of_continue {m : Machine} {r : Reply (Except Fault Bool)} (h : m.Steps r)
    (ha : r.answer = .ok true) : m.status = .running := by
  cases h with
  | stopped => cases ha
  | completed hm | lost hm | leftAtEnd hm | refused hm | executed hm => exact hm

/-- Only a machine that runs can meet a fault. -/
theorem Steps.running_of_error {m : Machine} {r : Reply (Except Fault Bool)} (h : m.Steps r)
    {f : Fault} (hf : r.answer = .error f) : m.status = .running := by
  cases h with
  | stopped => cases hf
  | completed hm | lost hm | leftAtEnd hm | refused hm | executed hm => exact hm

/-! ## Terminations -/

/-- The reasons for which a step of a machine that runs terminates it with the report `d`. -/
inductive TerminatesWith (m : Machine) (d : Diagnostic) : Prop where
  | budget {f : Frame} {n budget : Nat} {i : Instruction} (hnext : m.next = .execute f n i)
      (hfull : reached? m.limits.stepBudget m.steps = some budget)
      (hd : d = .stepBudgetExceeded i.span budget)
  | overflow {f : Frame} {n limit : Nat} {i : Instruction} {rest : Stack Value} {v : Value}
      (hnext : m.next = .execute f n i) (hop : i.operation.Puts i.span m.stack rest v)
      (hfull : reached? m.limits.evaluationStack rest.size = some limit)
      (hd : d = .evaluationStackOverflow i.span limit)
  | failed {f : Frame} {n : Nat} {i : Instruction} {op : ArithmeticOperator} {rest : Stack Value}
      {a b : Value} (hnext : m.next = .execute f n i) (hop : i.operation = .arithmetic op)
      (hs : m.stack = (rest.push a).push b) (hd : op.evaluate a b i.span = .error d)
  | tooDeep {f : Frame} {n limit : Nat} {i : Instruction} {callee : RoutineId} {r : Routine}
      (hnext : m.next = .execute f n i) (hop : i.operation = .call callee)
      (hcallee : m.program.routine? callee = some r)
      (hfull : reached? m.limits.callDepth m.frames.size = some limit)
      (hd : d = .callDepthExceeded i.span limit)

/-- A machine that runs has no report. -/
theorem ne_terminated_of_running {m : Machine} (h : m.status = .running) {d : Diagnostic} :
    m.status ≠ .terminated d := by
  rw [h]
  nofun

/-- A step that stops a run with a report has one of the four reasons, and the report is the one
made for it. -/
theorem Steps.terminatesWith {m : Machine} {r : Reply (Except Fault Bool)} (h : m.Steps r)
    (hm : m.status = .running) {d : Diagnostic} (hd : r.machine.status = .terminated d) :
    m.TerminatesWith d := by
  -- a rule that leaves the status alone cannot have terminated the machine
  cases h with
  | stopped hm' => exact absurd hm hm'
  | completed => cases hd
  | lost => exact absurd hd (ne_terminated_of_running hm)
  | leftAtEnd => exact absurd hd (ne_terminated_of_running hm)
  | refused _ hnext hbudget =>
    cases hd
    exact .budget hnext hbudget rfl
  | executed _ hnext hbudget hr =>
    have hd' : (continues _).machine.status = .terminated d := hd
    rw [machine_continues] at hd'
    cases hr with
    | underflow | outOfBounds | unknownCallee | put | moved | called | left =>
      exact absurd hd' (ne_terminated_of_running hm)
    | overflow hop hfull =>
      cases hd'
      exact .overflow hnext hop hfull rfl
    | failed hop hs hfail =>
      cases hd'
      exact .failed hnext hop hs hfail
    | tooDeep hop hcallee hfull =>
      cases hd'
      exact .tooDeep hnext hop hcallee hfull rfl

end Machine

end ScriptMachine
