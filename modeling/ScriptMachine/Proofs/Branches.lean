import ScriptMachine.Proofs.Histories
import ScriptMachine.Proofs.Values.Order

/-!
# Comparisons and the branches behind them

A comparison leaves a text on the stack, and a conditional jump behind it asks no more of a text
than how it is spelt. The two agree: two steps take the operands, and the frame falls through just
if the comparison holds of them. With operands that are not related at all this is not the logic of
a decided comparison: where less does not hold, greater or equal need not hold either.

* `step_of_performs`: the step of an instruction after which the machine still runs.
* `Machine.AtBranch`: a comparison and a conditional jump come next.
* `AtBranch.steps`: the two steps.
* `Value.holds_of_relations`: what the comparisons say by which of the three relations hold.
* `comparisons_branch`: both.
-/

namespace ScriptMachine

namespace Machine

variable {m : Machine}

/-! ## Single steps -/

/-- The step of an instruction after which the machine still runs. -/
theorem step_of_performs (hm : m.status = .running) {f : Frame} {r : Routine} {i : Instruction}
    (hat : m.AtInstruction f r i) (hbudget : reached? m.limits.stepBudget m.steps = none)
    {n : Machine} (hperf : m.charge.Performs f r.size i (.silent (.ok ()) n))
    (hn : n.status = .running) : m.step.answer = .ok true ∧ m.step.machine = n := by
  have hstep := (Steps.executed hm hat.next hbudget hperf).eq
  have hrunning : n.isRunning = true := isRunning_iff.mpr hn
  rw [hstep]
  exact ⟨congrArg Except.ok hrunning, rfl⟩

theorem step_of_puts (hm : m.status = .running) {f : Frame} {r : Routine} {i : Instruction}
    (hat : m.AtInstruction f r i) (hbudget : reached? m.limits.stepBudget m.steps = none)
    {rest : Stack Value} {v : Value} (hop : i.operation.Puts i.span m.stack rest v)
    (hroom : reached? m.limits.evaluationStack rest.size = none) :
    m.step.answer = .ok true ∧ m.step.machine =
      { m.charge with stack := rest.push v, frames := m.frames.modifyTop Frame.advance } :=
  step_of_performs hm hat hbudget (.put hop hroom) hm

theorem step_of_moves (hm : m.status = .running) {f : Frame} {r : Routine} {i : Instruction}
    (hat : m.AtInstruction f r i) (hbudget : reached? m.limits.stepBudget m.steps = none)
    {rest : Stack Value} {move : Frame → Frame}
    (hop : i.operation.Moves r.size m.stack rest move) :
    m.step.answer = .ok true ∧ m.step.machine =
      { m.charge with stack := rest, frames := m.frames.modifyTop move } :=
  step_of_performs hm hat hbudget (.moved hop) hm

/-! ## A comparison and a conditional jump -/

/-- The machine runs and comes next to a comparison of the values `a` and `b` on top of the stack,
then to a conditional jump into the routine. It has budget for both, and can count them. -/
structure AtBranch (m : Machine) (op : ComparisonOperator) (target : Nat) (f : Frame)
    (below : Stack Frame) (rest : Stack Value) (a b : Value) : Prop where
  status : m.status = .running
  frames : m.frames = below.push f
  code : ∃ r s t, m.program.routine? f.routine = some r ∧
    r.instruction? f.counter = some ⟨.compare op, s⟩ ∧
    r.instruction? (f.counter + 1) = some ⟨.jumpIfFalse target, t⟩ ∧ target ≤ r.size
  stack : m.stack = (rest.push a).push b
  room : ∀ limit, m.limits.evaluationStack = some limit → m.stack.size ≤ limit
  budget : ∀ budget, m.limits.stepBudget = some budget → m.steps + 2 ≤ budget
  counted : m.steps + 2 < UInt64.size

variable {op : ComparisonOperator} {target : Nat} {f : Frame} {below : Stack Frame}
  {rest : Stack Value} {a b : Value}

/-- The two operands make room for the text of the comparison. -/
theorem AtBranch.reached_evaluationStack (h : m.AtBranch op target f below rest a b) :
    reached? m.limits.evaluationStack rest.size = none := by
  rw [reached?_eq_none_iff]
  intro limit hlimit
  have hsize := h.room limit hlimit
  rw [h.stack, Stack.size_push, Stack.size_push] at hsize
  omega

/-- Neither of the two instructions is refused. -/
theorem AtBranch.reached_stepBudget (h : m.AtBranch op target f below rest a b) {k : Nat}
    (hk : k < 2) : reached? m.limits.stepBudget (m.steps + k) = none := by
  rw [reached?_eq_none_iff]
  intro budget hbudget
  have hsteps := h.budget budget hbudget
  omega

/-- What the comparison leaves on the stack is truthy just if it holds. -/
theorem moves_of_evaluate (hs : m.stack = rest.push (op.evaluate a b)) {n : Nat}
    (ht : target ≤ n) :
    (Operation.jumpIfFalse target).Moves n m.stack rest
      (if op.holds a b then Frame.advance else (·.jump target)) := by
  have htruthy : (op.evaluate a b).isTruthy = op.holds a b := Value.isTruthy_ofBool _
  cases hholds : op.holds a b with
  | true => exact .fallThrough rfl ht hs (htruthy.trans hholds) rfl
  | false => exact .branch rfl ht hs (htruthy.trans hholds) rfl

/-- The first step leaves the text of the comparison on the stack, and the second one takes it off
again and goes one of two ways. -/
theorem AtBranch.steps (h : m.AtBranch op target f below rest a b) :
    m.step.answer = .ok true ∧ m.step.machine.step.answer = .ok true ∧
      m.step.machine.step.machine =
        { m with
          stack := rest
          frames := below.push
            ⟨f.routine, if op.holds a b then f.counter + 2 else target⟩
          steps := m.steps + 2 } := by
  obtain ⟨r, s, t, hr, hcompare, hjump, ht⟩ := h.code
  -- below the greatest count each instruction is counted
  have hcharge : ∀ n : Machine, n.steps < maxSteps →
      n.charge = { n with steps := n.steps + 1 } := by
    intro n hn
    rw [charge, if_pos hn]
  have hmax := h.counted
  have hframe : m.frames.top? = some f := by rw [h.frames, Stack.top?_push]
  obtain ⟨hfirst, hmachine⟩ := step_of_puts h.status ⟨hframe, hr, hcompare⟩
    (h.reached_stepBudget (k := 0) (by omega)) (.compare rfl h.stack rfl) h.reached_evaluationStack
  rw [hcharge m (by rw [maxSteps]; omega), h.frames, Stack.modifyTop_push] at hmachine
  refine ⟨hfirst, ?_⟩
  rw [hmachine]
  -- the frame has moved on to the jump, and the text of the comparison is on top
  have hat : AtInstruction
      { m with
        stack := rest.push (op.evaluate a b)
        frames := below.push f.advance
        steps := m.steps + 1 } f.advance r ⟨.jumpIfFalse target, t⟩ :=
    ⟨Stack.top?_push _ _, hr, hjump⟩
  obtain ⟨hsecond, hmachine⟩ := step_of_moves (by exact h.status) hat
    (h.reached_stepBudget (k := 1) (by omega)) (moves_of_evaluate rfl ht)
  rw [hcharge _ (by show m.steps + 1 < maxSteps; rw [maxSteps]; omega), Stack.modifyTop_push]
    at hmachine
  refine ⟨hsecond, hmachine.trans ?_⟩
  cases op.holds a b <;> rfl

end Machine

/-! ## Choices -/

/-- Of three facts of which at most one is true: the first and the last are each the opposite of the
other two just if one is true. -/
theorem opposite_iff_count : ∀ less equal greater : Bool,
    [less, equal, greater].count true ≤ 1 →
      (less = !(greater || equal) ↔ [less, equal, greater].count true = 1) ∧
      (greater = !(less || equal) ↔ [less, equal, greater].count true = 1) ∧
      ([less, equal, greater].count true ≠ 1 →
        less = false ∧ equal = false ∧ greater = false) := by
  decide

namespace Value

variable (a b : Value)

/-- No two of the three relations hold of the same values. -/
theorem relations_le_one : relations a b ≤ 1 := by
  cases h : a.order? b with
  | none => exact (relations_of_unordered h).1
  | some o => exact Nat.le_of_eq (relations_of_order? h)

open ComparisonOperator in
/-- A strict comparison and the weak one of the other direction decide against each other just if
one of the three relations holds; if none does, neither of them holds. -/
theorem holds_of_relations :
    (lt.holds a b = !ge.holds a b ↔ relations a b = 1) ∧
      (gt.holds a b = !le.holds a b ↔ relations a b = 1) ∧
      (relations a b ≠ 1 → lt.holds a b = false ∧ ge.holds a b = false ∧
        gt.holds a b = false ∧ le.holds a b = false) := by
  obtain ⟨hless, hgreater, hnone⟩ :=
    opposite_iff_count (a.isLess b) (a.isEqual b) (a.isGreater b) (relations_le_one a b)
  refine ⟨hless, hgreater, fun h => ?_⟩
  -- the weak comparisons are made of the three relations as well
  obtain ⟨hless, hequal, hgreater⟩ := hnone h
  simp [holds, hless, hequal, hgreater]

end Value

/-! ## Both -/

namespace Machine

open ComparisonOperator in
/-- At a comparison of two values and a conditional jump behind it, two steps go on. They take both
values from the stack and leave the frames below alone, and they go on behind the jump if the
comparison holds and at the target if it does not. Each of the six holds as the three relations say
that it is named for. So for the same values equality and inequality choose opposite ways. Less and
at least do so just if one of the three relations holds, and greater and at most likewise; otherwise
all four jump. -/
theorem comparisons_branch :
    (∀ (m : Machine) op target f below rest a b, m.AtBranch op target f below rest a b →
      (m.history [.step, .step]).answer = [.stepped (.ok true), .stepped (.ok true)] ∧
      (m.history [.step, .step]).machine =
        { m with
          stack := rest
          frames := below.push ⟨f.routine, if op.holds a b then f.counter + 2 else target⟩
          steps := m.steps + 2 }) ∧
    ∀ a b : Value,
      (eq.holds a b = a.isEqual b ∧ ne.holds a b = !a.isEqual b ∧
        lt.holds a b = a.isLess b ∧ le.holds a b = (a.isLess b || a.isEqual b) ∧
        gt.holds a b = a.isGreater b ∧ ge.holds a b = (a.isGreater b || a.isEqual b)) ∧
      eq.holds a b = !ne.holds a b ∧
      (lt.holds a b = !ge.holds a b ↔ Value.relations a b = 1) ∧
      (gt.holds a b = !le.holds a b ↔ Value.relations a b = 1) ∧
      (Value.relations a b ≠ 1 → lt.holds a b = false ∧ ge.holds a b = false ∧
        gt.holds a b = false ∧ le.holds a b = false) := by
  refine ⟨fun m op target f below rest a b h => ?_, fun a b => ?_⟩
  · obtain ⟨hfirst, hsecond, hmachine⟩ := h.steps
    refine ⟨?_, hmachine⟩
    show [HostAnswer.stepped m.step.answer, .stepped m.step.machine.step.answer] = _
    rw [hfirst, hsecond]
  · exact ⟨⟨rfl, rfl, rfl, rfl, rfl, rfl⟩, (Bool.not_not _).symm, Value.holds_of_relations a b⟩

/-- Compare a number with a text that is none, and branch to the end. -/
def branchesOnPear (op : ComparisonOperator) : List Instruction :=
  [.synthetic (.push (.number (.zero .plus))), .synthetic (.push (.text "pear")),
    .synthetic (.compare op), .synthetic (.jumpIfFalse 5), .synthetic .leave]

/-- The machine in front of the comparison, with room for two values and budget for two more
instructions. -/
def beforePear (op : ComparisonOperator) : Machine :=
  { start (.single (branchesOnPear op)) ⟨none, some 4, some 2⟩ with
    stack := (Stack.empty.push (.number (.zero .plus))).push (.text "pear")
    frames := Stack.empty.push ⟨.entry, 2⟩
    steps := 2 }

theorem atBranch_beforePear (op : ComparisonOperator) :
    (beforePear op).AtBranch op 5 ⟨.entry, 2⟩ .empty .empty (.number (.zero .plus))
      (.text "pear") := by
  refine ⟨rfl, rfl, ⟨_, _, _, rfl, rfl, rfl, Nat.le_refl 5⟩, rfl, ?_, ?_, ?_⟩
  · intro limit hlimit
    cases hlimit
    exact Nat.le_refl 2
  · intro budget hbudget
    cases hbudget
    exact Nat.le_refl 4
  · show 2 + 2 < UInt64.size
    decide

/-- None of the three relations holds of the number and the text. So neither less nor at least falls
through, but inequality does. -/
theorem comparisons_branch_pear :
    let zero := Value.number (.zero .plus)
    let pear := Value.text "pear"
    let after op := ((beforePear op).history [.step, .step]).machine
    (∀ op, (beforePear op).AtBranch op 5 ⟨.entry, 2⟩ .empty .empty zero pear) ∧
      Value.relations zero pear = 0 ∧
      (after .lt).frames.toList = [⟨.entry, 5⟩] ∧ (after .ge).frames.toList = [⟨.entry, 5⟩] ∧
      (after .ne).frames.toList = [⟨.entry, 4⟩] ∧ (after .ne).stack.size = 0 := by
  have hrelations : Value.relations (.number (.zero .plus)) (.text "pear") = 0 := by decide
  have hne : ComparisonOperator.ne.holds (.number (.zero .plus)) (.text "pear") = true := by decide
  obtain ⟨hsteps, hchoices⟩ := comparisons_branch
  obtain ⟨-, -, -, -, hnone⟩ := hchoices (.number (.zero .plus)) (.text "pear")
  obtain ⟨hlt, hge, -⟩ := hnone (by rw [hrelations]; decide)
  -- all three machines are what the two steps lead to
  have hmachine : ∀ op, _ := fun op =>
    (hsteps _ _ _ _ _ _ _ _ (atBranch_beforePear op)).2
  intro zero pear after
  refine ⟨atBranch_beforePear, hrelations, ?_, ?_, ?_, ?_⟩
  · show ((beforePear .lt).history [.step, .step]).machine.frames.toList = _
    rw [hmachine .lt, hlt]
    rfl
  · show ((beforePear .ge).history [.step, .step]).machine.frames.toList = _
    rw [hmachine .ge, hge]
    rfl
  · show ((beforePear .ne).history [.step, .step]).machine.frames.toList = _
    rw [hmachine .ne, hne]
    rfl
  · show ((beforePear .ne).history [.step, .step]).machine.stack.size = _
    rw [hmachine .ne]
    rfl

end Machine

end ScriptMachine
