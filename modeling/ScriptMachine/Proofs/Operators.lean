import ScriptMachine.Proofs.Histories

/-!
# What becomes of the result of an operator

An operator that fails terminates the machine and changes nothing else, whether or not there is room
for a result. One that does not fail either puts its result on the stack and moves the frame on top
to its next instruction, or it meets the limit of the stack, which terminates the machine and
changes nothing else. An instruction takes its operands from the stack first, and then does what an
operator of the host does; so its operands are gone if it fails, and its frame stays where it was.

* `Machine.Receives`: the three things that become of a result.
* `Receives.unique`: no two of them become of one result.
* `receives_applyArithmetic`, `receives_applyComparison`: operators of the host.
* `step_of_result`: operators of the program.
* `operator_contract`: both.
-/

namespace ScriptMachine

/-- What an operator of a program computes from its operands. -/
def Operation.result? (left right : Value) (span : Span) :
    Operation → Option (Except Diagnostic Value)
  | .arithmetic op => some (op.evaluate left right span)
  | .compare op => some (.ok (op.evaluate left right))
  | _ => none

namespace Machine

/-- What becomes of the result of an operator at a span, on a machine that runs. A value needs room,
and moves the frame on top, if there is one. -/
inductive Receives (m : Machine) (span : Span) : Except Diagnostic Value → Reply Unit → Prop where
  | failed {d : Diagnostic} :
      Receives m span (.error d)
        ⟨(), { m with status := .terminated d }, [.terminated d.code d.span m.steps]⟩
  | overflow {v : Value} {limit : Nat} (hlimit : m.limits.evaluationStack = some limit)
      (hfull : limit ≤ m.stack.size) :
      Receives m span (.ok v)
        ⟨(), { m with status := .terminated (.evaluationStackOverflow span limit) },
          [.terminated .evaluationStackOverflow span m.steps]⟩
  | put {v : Value} {below : Stack Frame} {top : Frame}
      (hroom : ∀ limit, m.limits.evaluationStack = some limit → m.stack.size < limit)
      (hframes : m.frames = below.push top) :
      Receives m span (.ok v)
        ⟨(), { m with
          stack := m.stack.push v
          frames := below.push ⟨top.routine, top.counter + 1⟩ }, []⟩
  | putWithoutFrame {v : Value}
      (hroom : ∀ limit, m.limits.evaluationStack = some limit → m.stack.size < limit)
      (hframes : m.frames = .empty) :
      Receives m span (.ok v) ⟨(), { m with stack := m.stack.push v }, []⟩

variable {m : Machine} {span : Span}

/-! ## Operators of the host -/

theorem receives_error (hm : m.status = .running) (d : Diagnostic) :
    m.Receives span (.error d) (m.terminate d) := by
  rw [terminate_of_running hm]
  exact .failed

theorem receives_ok (hm : m.status = .running) (v : Value) :
    m.Receives span (.ok v) (m.pushAndAdvance v span) := by
  cases hr : reached? m.limits.evaluationStack m.stack.size with
  | some limit =>
    obtain ⟨hlimit, hfull⟩ := reached?_eq_some_iff.mp hr
    rw [pushAndAdvance_of_full hr, terminate_of_running hm]
    exact .overflow hlimit hfull
  | none =>
    have hroom := reached?_eq_none_iff.mp hr
    rw [pushAndAdvance_of_room hr]
    rcases m.frames.eq_empty_or_push with hframes | ⟨below, top, hframes⟩
    · have hadvance : m.frames.modifyTop Frame.advance = m.frames := by
        rw [hframes, Stack.modifyTop_empty]
      rw [Reply.silent, advance, hadvance]
      exact .putWithoutFrame hroom hframes
    · have hadvance : m.frames.modifyTop Frame.advance =
          below.push ⟨top.routine, top.counter + 1⟩ := by
        rw [hframes, Stack.modifyTop_push]
        rfl
      rw [Reply.silent, advance, hadvance]
      exact .put hroom hframes

/-- Only one thing can become of a result. -/
theorem Receives.unique {result : Except Diagnostic Value} {reply reply' : Reply Unit}
    (h : m.Receives span result reply) (h' : m.Receives span result reply') : reply = reply' := by
  -- the rules exclude each other: by the result, by the room, and by whether there is a frame
  cases h with
  | failed =>
    cases h' with
    | failed => rfl
  | overflow hlimit hfull =>
    cases h' with
    | overflow hlimit' =>
      cases hlimit.symm.trans hlimit'
      rfl
    | put hroom | putWithoutFrame hroom => exact absurd (hroom _ hlimit) (Nat.not_lt_of_le hfull)
  | put hroom hframes =>
    cases h' with
    | overflow hlimit hfull => exact absurd (hroom _ hlimit) (Nat.not_lt_of_le hfull)
    | put _ hframes' =>
      obtain ⟨rfl, rfl⟩ := Stack.push_inj.mp (hframes.symm.trans hframes')
      rfl
    | putWithoutFrame _ hframes' =>
      exact absurd (hframes.symm.trans hframes') (Stack.push_ne_empty _ _)
  | putWithoutFrame hroom hframes =>
    cases h' with
    | overflow hlimit hfull => exact absurd (hroom _ hlimit) (Nat.not_lt_of_le hfull)
    | put _ hframes' => exact absurd (hframes'.symm.trans hframes) (Stack.push_ne_empty _ _)
    | putWithoutFrame => rfl

theorem receives_applyArithmetic (hm : m.status = .running) (left : Value) (op : ArithmeticOperator)
    (right : Value) (span : Span) :
    m.Receives span (op.evaluate left right span) (m.applyArithmetic left op right span) := by
  cases hv : op.evaluate left right span with
  | ok v =>
    rw [applyArithmetic_of_ok hm hv]
    exact receives_ok hm v
  | error d =>
    rw [applyArithmetic_of_error hm hv]
    exact receives_error hm d

theorem receives_applyComparison (hm : m.status = .running) (left : Value)
    (op : ComparisonOperator) (right : Value) (span : Span) :
    m.Receives span (.ok (op.evaluate left right)) (m.applyComparison left op right span) := by
  rw [applyComparison_of_running hm]
  exact receives_ok hm _

/-! ## Operators of the program -/

theorem perform_of_result (hm : m.status = .running) {i : Instruction} {rest : Stack Value}
    {left right : Value} (hs : m.stack = (rest.push left).push right)
    {result : Except Diagnostic Value} (hop : i.operation.result? left right i.span = some result)
    (f : Frame) (n : Nat) :
    ∃ reply, { m with stack := rest }.Receives i.span result reply ∧
      m.perform f n i = reply.map .ok := by
  have htop : m.stack.topTwo? = some (left, right) := Stack.topTwo?_eq_some_iff.mpr ⟨_, hs⟩
  have htaken : m.discard.discard = { m with stack := rest } := discard_discard hs
  have hm' : ({ m with stack := rest } : Machine).status = .running := hm
  cases hi : i.operation with
  | arithmetic op =>
    rw [hi] at hop
    cases hop
    refine ⟨_, receives_applyArithmetic hm' left op right i.span, ?_⟩
    simp only [perform, hi, htop, htaken]
  | compare op =>
    rw [hi] at hop
    cases hop
    refine ⟨_, receives_applyComparison hm' left op right i.span, ?_⟩
    simp only [perform, hi, htop, htaken]
  -- no other operation has a result
  | push | pop | dup | jump | jumpIfFalse | call | leave =>
    rw [hi] at hop
    cases hop

/-- The step of an operator whose operands are there: once they are taken, its result is received as
one of the host's would be. -/
theorem step_of_result (hm : m.status = .running) {f : Frame} {r : Routine} {i : Instruction}
    (hat : m.AtInstruction f r i) (hbudget : reached? m.limits.stepBudget m.steps = none)
    {rest : Stack Value} {left right : Value} (hs : m.stack = (rest.push left).push right)
    {result : Except Diagnostic Value} (hop : i.operation.result? left right i.span = some result) :
    ∃ reply, { m.charge with stack := rest }.Receives i.span result reply ∧
      m.step = ⟨.ok reply.machine.isRunning, reply.machine,
        .executed f i.operation m.stack.size :: reply.events⟩ := by
  obtain ⟨reply, hreceives, hperform⟩ :=
    perform_of_result (m := m.charge) hm hs hop f r.size
  have hperforms := performs_perform (m := m.charge) hm f r.size i
  rw [hperform] at hperforms
  exact ⟨reply, hreceives, (Steps.executed hm hat.next hbudget hperforms).eq⟩

/-- What becomes of the result of an operator. On a machine that runs an operator of the host does
one of these things: a failure terminates the machine, also where the stack is full; a value that
meets the limit of the stack terminates it; any other value is put on the stack, and the frame on
top, if there is one, moves on by one. Nothing else changes. An operator of the program, with its
operands on the stack and budget for a step, does the same to the machine without its operands. -/
theorem operator_contract (hm : m.status = .running) :
    (∀ left op right span reply,
      m.Receives span (op.evaluate left right span) reply ↔
        m.applyArithmetic left op right span = reply) ∧
    (∀ left op right span reply,
      m.Receives span (.ok (op.evaluate left right)) reply ↔
        m.applyComparison left op right span = reply) ∧
    ∀ f r i rest left right result, m.AtInstruction f r i →
      reached? m.limits.stepBudget m.steps = none → m.stack = (rest.push left).push right →
      i.operation.result? left right i.span = some result →
      ∃ reply, { m.charge with stack := rest }.Receives i.span result reply ∧
        m.step = ⟨.ok reply.machine.isRunning, reply.machine,
          .executed f i.operation m.stack.size :: reply.events⟩ := by
  refine ⟨fun left op right span reply => ?_, fun left op right span reply => ?_, ?_⟩
  · have hreceives := receives_applyArithmetic hm left op right span
    exact ⟨hreceives.unique, fun h => h ▸ hreceives⟩
  · have hreceives := receives_applyComparison hm left op right span
    exact ⟨hreceives.unique, fun h => h ▸ hreceives⟩
  · intro f r i rest left right result hat hbudget hs hop
    exact step_of_result hm hat hbudget hs hop

/-- Subtract an array from itself. -/
def subtractsArray : List Instruction :=
  [.synthetic (.push (.array [])), .synthetic .dup, ⟨.arithmetic .sub, ⟨3, 7⟩⟩]

/-- The machine in front of the subtraction, with two values on a stack for two. -/
def beforeSubtraction : Machine :=
  ((start (.single subtractsArray) ⟨none, none, some 2⟩).history (List.replicate 2 .step)).machine

/-- On a full stack an operator of the host that fails is reported for its failure, and one that
does not is reported for the stack. The subtraction fails too: its operands are gone, and the frame
is still at it. -/
theorem operator_contract_full_stack :
    let m := beforeSubtraction
    let failed : Diagnostic := .arrayOperand ⟨1, 2⟩ .add
    let full : Diagnostic := .evaluationStackOverflow ⟨1, 2⟩ 2
    (m.status = .running ∧ m.stack.toList = [.array [], .array []]) ∧
      m.applyArithmetic (.array []) .add (.array []) ⟨1, 2⟩ =
        ⟨(), { m with status := .terminated failed }, [.terminated .arrayOperand ⟨1, 2⟩ 2]⟩ ∧
      m.applyComparison (.array []) .eq (.array []) ⟨1, 2⟩ =
        ⟨(), { m with status := .terminated full },
          [.terminated .evaluationStackOverflow ⟨1, 2⟩ 2]⟩ ∧
      m.step.answer = .ok false ∧
      m.step.machine.stack = .empty ∧ m.step.machine.frames = m.frames ∧
      m.step.machine.status = .terminated (.arrayOperand ⟨3, 7⟩ .sub) := by
  have hrunning : beforeSubtraction.status = .running := rfl
  have hstack : beforeSubtraction.stack = (Stack.empty.push (.array [])).push (.array []) := rfl
  have hat : beforeSubtraction.AtInstruction ⟨.entry, 2⟩ ⟨"main", subtractsArray.toArray⟩
      ⟨.arithmetic .sub, ⟨3, 7⟩⟩ := ⟨rfl, rfl, rfl⟩
  have hlimit : beforeSubtraction.limits.evaluationStack = some 2 := rfl
  obtain ⟨harithmetic, hcomparison, hstep⟩ := operator_contract hrunning
  have hfailed := (harithmetic (.array []) .add (.array []) ⟨1, 2⟩ _).mp .failed
  have hfull := (hcomparison (.array []) .eq (.array []) ⟨1, 2⟩ _).mp
    (.overflow hlimit (Nat.le_of_eq (congrArg Stack.size hstack).symm))
  obtain ⟨reply, hreceives, hreply⟩ := hstep _ _ _ _ _ _ _ hat rfl hstack rfl
  intro m failed full
  cases hreceives with
  | failed =>
    refine ⟨⟨hrunning, congrArg Stack.toList hstack⟩, hfailed, hfull, ?_⟩
    rw [hreply]
    exact ⟨rfl, rfl, rfl, rfl⟩

end Machine

end ScriptMachine
