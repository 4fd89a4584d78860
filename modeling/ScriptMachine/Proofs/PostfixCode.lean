import ScriptMachine.Expression
import ScriptMachine.Program.Flow
import ScriptMachine.Proofs.Runs

/-!
# The code of an expression computes it

A machine without limits that comes to the code of an expression, wherever in a routine it stands
and whatever is on the stack, has the value of the expression on top after it, or is terminated by
the operator that failed first. There is one step for each constant and each operator.

* `Program.HasCode`: instructions one after the other, from a place on.
* `Machine.movedOn`: the machine after instructions without jumps, with another stack.
* `Machine.Yields`: instructions that leave a result on the stack, or end the run with a report.
* `yields_operands`, `yields_code`: by induction on the expression, from operands to operators.
* `run_code`: the code of an expression as a program of its own, and within any other.
-/

namespace ScriptMachine

/-! ## Code at a place -/

/-- The instructions of the code stand one after the other from the place on. -/
def Program.HasCode (p : Program) (id : RoutineId) (c : Nat) (code : List Instruction) : Prop :=
  ∀ j i, code[j]? = some i → p.Has id (c + j) i

namespace Program.HasCode

variable {p : Program} {id : RoutineId} {c : Nat} {first second : List Instruction}

/-- Code starts with its first instruction. -/
theorem head {i : Instruction} {code : List Instruction} (h : p.HasCode id c (i :: code)) :
    p.Has id c i :=
  h 0 i rfl

/-- Of code in two parts the first starts where the whole does. -/
theorem left (h : p.HasCode id c (first ++ second)) : p.HasCode id c first := by
  intro j i hi
  have hj : j < first.length := (List.getElem?_eq_some_iff.mp hi).1
  exact h j i (by rwa [List.getElem?_append_left hj])

/-- Of code in two parts the second starts where the first ends. -/
theorem right (h : p.HasCode id c (first ++ second)) :
    p.HasCode id (c + first.length) second := by
  intro j i hi
  have hj := h (first.length + j) i (by rwa [List.getElem?_append_right (Nat.le_add_right _ _),
    Nat.add_sub_cancel_left])
  rwa [← Nat.add_assoc] at hj

/-- A program of one routine has that routine's instructions from its start on. -/
theorem single (code : List Instruction) : (Program.single code).HasCode .entry 0 code := by
  intro j i hi
  rw [Nat.zero_add]
  refine has_iff.mpr ⟨⟨"main", code.toArray⟩, rfl, ?_⟩
  show code.toArray[j]? = some i
  rwa [List.getElem?_toArray]

end Program.HasCode

def Frame.skip (k : Nat) (f : Frame) : Frame :=
  { f with counter := f.counter + k }

namespace Machine

/-! ## Instructions without jumps -/

/-- The machine with the stack `s`, `k` instructions further on in the routine on top. -/
def movedOn (m : Machine) (k : Nat) (s : Stack Value) : Machine :=
  { m with
    stack := s
    frames := m.frames.modifyTop (Frame.skip k)
    steps := max m.steps (min (m.steps + k) maxSteps) }

/-- Two stretches of instructions are one, as long as both together. -/
theorem movedOn_movedOn (m : Machine) (j k : Nat) (s t : Stack Value) :
    (m.movedOn j s).movedOn k t = m.movedOn (j + k) t := by
  have hframes : (m.frames.modifyTop (Frame.skip j)).modifyTop (Frame.skip k) =
      m.frames.modifyTop (Frame.skip (j + k)) := by
    rw [Stack.modifyTop_modifyTop]
    simp only [Frame.skip, Nat.add_assoc]
    rfl
  have hsteps : max (max m.steps (min (m.steps + j) maxSteps))
      (min (max m.steps (min (m.steps + j) maxSteps) + k) maxSteps) =
        max m.steps (min (m.steps + (j + k)) maxSteps) := by
    -- a count that has become the greatest one stays it
    omega
  rw [movedOn, movedOn, movedOn]
  simp only [hframes, hsteps]

/-- A single instruction is charged, leaves its stack, and moves the frame by one. -/
theorem charge_movedOn (m : Machine) (s : Stack Value) :
    { m.charge with stack := s, frames := m.frames.modifyTop Frame.advance } = m.movedOn 1 s := by
  have hsteps : (if m.steps < maxSteps then m.steps + 1 else m.steps) =
      max m.steps (min (m.steps + 1) maxSteps) := by
    split <;> omega
  rw [charge, movedOn, hsteps]
  rfl

/-- The machine runs, without limits to what its instructions do, and comes to the code next. -/
structure IsAt (m : Machine) (code : List Instruction) : Prop where
  status : m.status = .running
  stepBudget : m.limits.stepBudget = none
  evaluationStack : m.limits.evaluationStack = none
  code : ∃ f, m.frames.top? = some f ∧ m.program.HasCode f.routine f.counter code

variable {m : Machine} {first second : List Instruction}

/-- A machine at code in two parts is at the first part. -/
theorem IsAt.left (h : m.IsAt (first ++ second)) : m.IsAt first := by
  obtain ⟨f, hf, hcode⟩ := h.code
  exact { h with code := ⟨f, hf, hcode.left⟩ }

/-- Past the first of two parts, the machine is at the second one, whatever is on the stack. -/
theorem IsAt.right (h : m.IsAt (first ++ second)) (s : Stack Value) :
    (m.movedOn first.length s).IsAt second := by
  obtain ⟨f, hf, hcode⟩ := h.code
  refine ⟨h.status, h.stepBudget, h.evaluationStack, f.skip first.length, ?_, hcode.right⟩
  show (m.frames.modifyTop (Frame.skip first.length)).top? = _
  rw [Stack.top?_modifyTop, hf]
  rfl

/-- A machine at some code executes its first instruction next. -/
theorem IsAt.next {i : Instruction} {code : List Instruction} (h : m.IsAt (i :: code)) :
    ∃ f n, m.next = .execute f n i := by
  obtain ⟨f, hf, hcode⟩ := h.code
  obtain ⟨r, hr, hi⟩ := Program.has_iff.mp hcode.head
  exact ⟨f, r.size, next_eq_execute_iff.mpr ⟨hf, r, hr, rfl, hi⟩⟩

/-- Without a budget no instruction is refused. -/
theorem IsAt.reached_stepBudget {code : List Instruction} (h : m.IsAt code) :
    reached? m.limits.stepBudget m.steps = none := by
  rw [h.stepBudget]
  rfl

/-- An instruction that yields a value takes one step, and leaves the value on top. -/
theorem IsAt.reaches_of_puts {i : Instruction} {code : List Instruction} (h : m.IsAt (i :: code))
    {rest : Stack Value} {v : Value} (hop : i.operation.Puts i.span m.stack rest v) :
    Reaches 1 m (m.movedOn 1 (rest.push v)) := by
  obtain ⟨f, n, hnext⟩ := h.next
  -- there is no limit to the stack, so there is room for the value
  have hroom : reached? m.charge.limits.evaluationStack rest.size = none := by
    show reached? m.limits.evaluationStack rest.size = none
    rw [h.evaluationStack]
    rfl
  have hperf : m.charge.Performs f n i _ := .put hop hroom
  have hstep := (Steps.executed h.status hnext h.reached_stepBudget hperf).eq
  refine .one ?_ ?_
  · rw [hstep]
    show Except.ok m.isRunning = .ok true
    rw [isRunning_iff.mpr h.status]
  · rw [hstep, ← charge_movedOn]
    rfl

/-- An operator that fails ends the run with its report. -/
theorem IsAt.endsWith_of_failed {op : ArithmeticOperator} {span : Span} {code : List Instruction}
    (h : m.IsAt (⟨.arithmetic op, span⟩ :: code)) {rest : Stack Value} {a b : Value}
    (hs : m.stack = (rest.push a).push b) {d : Diagnostic}
    (hd : op.evaluate a b span = .error d) : EndsWith 1 m (.terminated d) := by
  obtain ⟨f, n, hnext⟩ := h.next
  have hperf : m.charge.Performs f n ⟨.arithmetic op, span⟩ _ := .failed rfl hs hd
  have hstep := (Steps.executed h.status hnext h.reached_stepBudget hperf).eq
  have ha : m.step.answer = .ok false := by
    rw [hstep]
    rfl
  rw [EndsWith, resume_succ_of_stop 0 ha, hstep]
  rfl

/-! ## Results -/

/-- After `k` instructions the result is on top of the stack `s`; or it is a report, and the run has
ended with it by then. -/
def Yields (k : Nat) (m : Machine) (s : Stack Value) : Except Diagnostic Value → Prop
  | .ok v => Reaches k m (m.movedOn k (s.push v))
  | .error d => EndsWith k m (.terminated d)

/-- A result that others wait for: they go on from it, and are not come to if it is a report. -/
theorem Yields.bind {j k : Nat} {s t : Stack Value} {x : Except Diagnostic Value}
    {g : Value → Except Diagnostic Value} (hx : Yields j m s x)
    (hg : ∀ v, Yields k (m.movedOn j (s.push v)) t (g v)) : Yields (j + k) m t (x >>= g) := by
  cases x with
  | error d =>
    have hends : EndsWith j m (.terminated d) := hx
    exact hends.of_le (Nat.le_add_right j k)
  | ok v =>
    have hreaches : Reaches j m (m.movedOn j (s.push v)) := hx
    have hv := hg v
    show Yields (j + k) m t (g v)
    cases hgv : g v with
    | error d =>
      rw [hgv] at hv
      exact hreaches.endsWith hv
    | ok w =>
      rw [hgv] at hv
      have hthen : Reaches k (m.movedOn j (s.push v)) _ := hv
      rw [movedOn_movedOn] at hthen
      exact hreaches.trans hthen

/-- The code of two operands and then an operator, which finds both on the stack. -/
theorem yields_operands {left right : Expression} {i : Instruction}
    {g : Value → Value → Except Diagnostic Value}
    (hleft : ∀ n : Machine, n.IsAt left.code → Yields left.size n n.stack left.evaluate)
    (hright : ∀ n : Machine, n.IsAt right.code → Yields right.size n n.stack right.evaluate)
    (h : m.IsAt (left.code ++ right.code ++ [i]))
    (hop : ∀ n : Machine, n.IsAt [i] → ∀ a b, n.stack = (m.stack.push a).push b →
      Yields 1 n m.stack (g a b)) :
    Yields (left.size + right.size + 1) m m.stack
      (left.evaluate >>= fun a => right.evaluate >>= fun b => g a b) := by
  rw [List.append_assoc] at h
  rw [Nat.add_assoc]
  -- left operand, right operand, operator: each is come to only if those before have values
  refine (hleft m h.left).bind fun a => ?_
  have h₁ := h.right (m.stack.push a)
  rw [Expression.length_code] at h₁
  refine (hright _ h₁.left).bind fun b => ?_
  have h₂ := h₁.right ((m.stack.push a).push b)
  rw [Expression.length_code] at h₂
  exact hop _ h₂ a b rfl

/-- By induction on an expression: where its code stands, it yields what the expression is evaluated
to. -/
theorem yields_code (e : Expression) : ∀ {m : Machine}, m.IsAt e.code →
    Yields e.size m m.stack e.evaluate := by
  -- the machine is general, so that an operand may stand anywhere and on top of other values
  induction e with
  | constant v span =>
    intro m h
    exact h.reaches_of_puts (.push rfl rfl)
  | arithmetic op left right span ihl ihr =>
    intro m h
    refine yields_operands (fun _ => ihl) (fun _ => ihr) h fun n hn a b hs => ?_
    cases hv : op.evaluate a b span with
    | error d => exact hn.endsWith_of_failed hs hv
    | ok v => exact hn.reaches_of_puts (.arithmetic rfl hs hv)
  | comparison op left right span ihl ihr =>
    intro m h
    refine yields_operands (fun _ => ihl) (fun _ => ihr) h fun n hn a b hs => ?_
    exact hn.reaches_of_puts (.compare rfl hs rfl)

/-! ## Programs of an expression -/

/-- A program of a single routine starts at that routine's code. -/
theorem isAt_start (code : List Instruction) : (start (.single code) .unbounded).IsAt code where
  status := rfl
  stepBudget := rfl
  evaluationStack := rfl
  code := ⟨.start .entry, rfl, Program.HasCode.single code⟩

/-- Past the end of its only routine, a run ends with what is on the stack, and nothing more is
charged. -/
theorem endsWith_of_end {f : Frame} {r : Routine} (hm : m.status = .running)
    (hframes : m.frames = Stack.empty.push f) (hr : m.program.routine? f.routine = some r)
    (hend : r.instruction? f.counter = none) :
    EndsWith 2 m (.completed m.stack) ∧ (resume 2 m).machine.steps = m.steps := by
  have hnext : m.next = .leave f :=
    next_eq_leave_iff.mpr ⟨by rw [hframes, Stack.top?_push], r, hr, hend⟩
  have hleave := (Steps.leftAtEnd hm hnext).eq
  -- two more steps, neither of which is charged: the routine is left, and the run is complete
  have hcomplete : m.leave.next = .complete := by
    refine next_eq_complete_iff.mpr ?_
    show m.frames.pop.top? = none
    rw [hframes, Stack.pop_push]
    rfl
  have hstop := (Steps.completed (m := m.leave) hm hcomplete).eq
  have hthen : Reaches 1 m m.leave := by
    refine .one ?_ ?_
    · rw [hleave]
    · rw [hleave]
      rfl
  have hlast := resume_succ_of_stop 0 (m := m.leave) (by rw [hstop])
  rw [hstop] at hlast
  obtain ⟨hanswer, hmachine⟩ := hthen.resume_add 1
  rw [hlast] at hanswer hmachine
  refine ⟨hanswer, ?_⟩
  rw [hmachine]
  rfl

/-- Code with a value ends with it alone on the stack, after the steps of the code and two that are
not charged. -/
theorem endsWith_of_value {e : Expression} {v : Value} (hv : e.evaluate = .ok v) :
    EndsWith (e.size + 2) (start (.single e.code) .unbounded) (.completed (Stack.empty.push v)) ∧
      (resume (e.size + 2) (start (.single e.code) .unbounded)).machine.steps =
        min e.size maxSteps := by
  have hreaches := yields_code e (isAt_start e.code)
  rw [hv] at hreaches
  change Reaches e.size _ _ at hreaches
  -- the code is the whole routine, so behind it is the end
  have hend : (⟨"main", e.code.toArray⟩ : Routine).instruction? (0 + e.size) = none := by
    rw [Nat.zero_add, ← e.length_code]
    exact Array.getElem?_eq_none (Nat.le_refl _)
  obtain ⟨hends, hsteps⟩ := endsWith_of_end (f := ⟨.entry, 0 + e.size⟩)
    (m := (start (.single e.code) .unbounded).movedOn e.size (Stack.empty.push v)) rfl rfl rfl hend
  refine ⟨hreaches.endsWith hends, ?_⟩
  rw [(hreaches.resume_add 2).2]
  refine hsteps.trans ?_
  show max 0 (min (0 + e.size) maxSteps) = min e.size maxSteps
  omega

/-- Code with a report ends with it, and needs no steps after it. -/
theorem endsWith_of_report {e : Expression} {d : Diagnostic} (hd : e.evaluate = .error d) :
    EndsWith e.size (start (.single e.code) .unbounded) (.terminated d) := by
  have hyields := yields_code e (isAt_start e.code)
  rwa [hd] at hyields

/-- The code of an expression, on its own, runs to its value, with one step for each constant and
each operator, or is terminated with the report of the operator that failed first; it never faults.
Anywhere else it leaves the value on top of the stack and all else as it was. -/
theorem run_code (e : Expression) :
    (∀ v, e.evaluate = .ok v → e.size < UInt64.size → ∀ fuel, e.size + 2 ≤ fuel →
      let r := run fuel (start (.single e.code) .unbounded)
      r.answer = some (.ok (.completed (Stack.empty.push v))) ∧ r.machine.steps = e.size) ∧
    (∀ d, e.evaluate = .error d → ∀ fuel, e.size + 2 ≤ fuel →
      (run fuel (start (.single e.code) .unbounded)).answer = some (.ok (.terminated d))) ∧
    (∀ fuel fault, (run fuel (start (.single e.code) .unbounded)).answer ≠ some (.error fault)) ∧
    ∀ (m : Machine) (v : Value), m.IsAt e.code → e.evaluate = .ok v →
      (resume e.size m).answer = none ∧
      (resume e.size m).machine =
        { m with
          stack := m.stack.push v
          frames := m.frames.modifyTop (Frame.skip e.code.length)
          steps := max m.steps (min (m.steps + e.size) maxSteps) } := by
  refine ⟨fun v hv hsize fuel hfuel => ?_, fun d hd fuel hfuel => ?_, fun fuel fault => ?_,
    fun m v hm hv => ?_⟩
  · obtain ⟨hends, hsteps⟩ := endsWith_of_value hv
    refine ⟨hends.of_le hfuel, ?_⟩
    show (resume fuel _).machine.steps = e.size
    rw [hends.resume_eq hfuel, hsteps, maxSteps]
    omega
  · exact (endsWith_of_report hd).of_le (Nat.le_trans (Nat.le_add_right _ 2) hfuel)
  · -- there is an outcome, and no fuel makes a fault of it
    cases hv : e.evaluate with
    | ok v => exact (endsWith_of_value hv).1.faultless fuel fault
    | error d => exact (endsWith_of_report hv).faultless fuel fault
  · have hyields := yields_code e hm
    rw [hv] at hyields
    rw [e.length_code]
    exact hyields

/-- Two arrays are not equal, also with another value below; and of two operators that fail, the
left one is reported. -/
theorem run_code_arrays :
    let array := Expression.constant (.array []) .synthetic
    let unequal := Expression.comparison .ne array array .synthetic
    let failing := Expression.arithmetic .add (.arithmetic .div array array .synthetic)
      (.arithmetic .sub array array .synthetic) .synthetic
    let above := { start (.single unequal.code) .unbounded with stack := Stack.empty.push default }
    (run 5 (start (.single unequal.code) .unbounded)).answer =
        some (.ok (.completed (Stack.empty.push (.ofBool true)))) ∧
      (run 9 (start (.single failing.code) .unbounded)).answer =
        some (.ok (.terminated (.arrayOperand .synthetic .div))) ∧
      (resume unequal.size above).machine.stack =
        (Stack.empty.push default).push (.ofBool true) := by
  intro array unequal failing above
  have habove : above.IsAt unequal.code :=
    ⟨rfl, rfl, rfl, .start .entry, rfl, Program.HasCode.single _⟩
  refine ⟨((run_code unequal).1 (.ofBool true) rfl (by decide) 5 (by decide)).1,
    (run_code failing).2.1 (.arrayOperand .synthetic .div) rfl 9 (by decide), ?_⟩
  rw [((run_code unequal).2.2.2 above (.ofBool true) habove rfl).2]

end Machine

end ScriptMachine
