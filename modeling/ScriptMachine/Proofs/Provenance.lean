import ScriptMachine.Proofs.Operators
import ScriptMachine.Proofs.Values.Arithmetic

/-!
# Where the values on the stack come from

In every history a value on the stack is a constant of the program or the result of an operator: of
one of the program, whose operands have such an origin themselves, or of one that the host has
applied. No operator has an array for its result. So an array on the stack is a constant of the
program, whatever arrays the host has among its operands.

* `Program.HasConstant`, `Program.Supplies`: the origins of a value.
* `Supplies.hasConstant_of_array`: those of an array.
* `Operation.Puts.supplied`, `Operation.Moves.mem_of_mem`: what an instruction puts on the stack,
  and what it leaves there.
* `Machine.Supplied`: every value on the stack has an origin; steps and calls keep it so.
* `history_supplied`: what is on the stack in every history.
-/

namespace ScriptMachine

theorem Stack.mem_toList_push {α : Type} {s : Stack α} {a b : α} :
    a ∈ (s.push b).toList ↔ a ∈ s.toList ∨ a = b := by
  simp

theorem Stack.mem_of_top? {α : Type} {s : Stack α} {a : α} (h : s.top? = some a) :
    a ∈ s.toList := by
  obtain ⟨r, rfl⟩ := top?_eq_some_iff.mp h
  simp

/-! ## Results of operators -/

theorem ComparisonOperator.kind_evaluate (op : ComparisonOperator) (a b : Value) :
    (op.evaluate a b).kind = .text := rfl

/-- Neither an arithmetic operator nor a comparison has an array for its result. -/
theorem Operation.kind_of_result? {op : Operation} {a b v : Value} {span : Span}
    (h : op.result? a b span = some (.ok v)) : v.kind ≠ .array := by
  cases op with
  | arithmetic op => exact ArithmeticOperator.evaluate_ne_array (Option.some.inj h)
  | compare op =>
    cases h
    rw [ComparisonOperator.kind_evaluate]
    decide
  | push | pop | dup | jump | jumpIfFalse | call | leave => cases h

/-- The same holds of the operators that a host applies. -/
theorem HostCall.kind_of_result? {c : HostCall} {v : Value} {span : Span}
    (h : c.result? = some (.ok v, span)) : v.kind ≠ .array := by
  cases c with
  | arithmetic a op b s =>
    obtain ⟨hv, -⟩ := Prod.mk.inj (Option.some.inj h)
    exact ArithmeticOperator.evaluate_ne_array hv
  | comparison a op b s =>
    cases h
    rw [ComparisonOperator.kind_evaluate]
    decide
  | step | run | terminate => cases h

/-! ## Origins -/

namespace Program

/-- An instruction of the program puts the value on the stack as it is. -/
def HasConstant (p : Program) (v : Value) : Prop :=
  ∃ id c i, p.Has id c i ∧ i.operation = .push v

/-- The origins of a value in a program that a host drives by the calls. -/
inductive Supplies (p : Program) (cs : List HostCall) : Value → Prop where
  | constant {v : Value} (h : p.HasConstant v) : Supplies p cs v
  /-- An operator of the program has computed it. -/
  | computed {id : RoutineId} {c : Nat} {i : Instruction} {a b v : Value} (hi : p.Has id c i)
      (ha : Supplies p cs a) (hb : Supplies p cs b)
      (hv : i.operation.result? a b i.span = some (.ok v)) : Supplies p cs v
  /-- An operator that the host applies has computed it. -/
  | applied {call : HostCall} {v : Value} {span : Span} (hc : call ∈ cs)
      (hv : call.result? = some (.ok v, span)) : Supplies p cs v

variable {p : Program} {cs : List HostCall} {v : Value}

/-- No operator has an array for its result, so an array is a constant. -/
theorem Supplies.hasConstant_of_array (h : p.Supplies cs v) (hv : v.kind = .array) :
    p.HasConstant v := by
  cases h with
  | constant h => exact h
  | computed _ _ _ hresult => exact absurd hv (Operation.kind_of_result? hresult)
  | applied _ hresult => exact absurd hv (HostCall.kind_of_result? hresult)

/-- What is no constant was computed, and is a number or a text. -/
theorem Supplies.evaluated (h : p.Supplies cs v) (hv : ¬ p.HasConstant v) :
    v.kind ≠ .array ∧
      ((∃ (op : ArithmeticOperator) (a b : Value) (span : Span), op.evaluate a b span = .ok v) ∨
        ∃ (op : ComparisonOperator) (a b : Value), op.evaluate a b = v) := by
  refine ⟨fun harray => hv (h.hasConstant_of_array harray), ?_⟩
  cases h with
  | constant h => exact absurd h hv
  | @computed id c i a b v hi ha hb hresult =>
    -- only these two operations compute a result from operands
    cases hop : i.operation with
    | arithmetic op =>
      rw [hop] at hresult
      exact .inl ⟨op, a, b, i.span, Option.some.inj hresult⟩
    | compare op =>
      rw [hop] at hresult
      cases hresult
      exact .inr ⟨op, a, b, rfl⟩
    | push | pop | dup | jump | jumpIfFalse | call | leave =>
      rw [hop] at hresult
      cases hresult
  | @applied call v span hc hresult =>
    cases call with
    | arithmetic a op b s =>
      obtain ⟨hv, -⟩ := Prod.mk.inj (Option.some.inj hresult)
      exact .inl ⟨op, a, b, s, hv⟩
    | comparison a op b s =>
      cases hresult
      exact .inr ⟨op, a, b, rfl⟩
    | step | run | terminate => cases hresult

end Program

/-! ## Instructions -/

section Operations

variable {p : Program} {cs : List HostCall} {s rest : Stack Value} {v w : Value}

/-- What an instruction leaves below its result was there before. -/
theorem Operation.Puts.mem_of_mem {span : Span} {op : Operation} (h : op.Puts span s rest v)
    (hw : w ∈ rest.toList) : w ∈ s.toList := by
  cases h with
  | push _ hs | dup _ hs => rwa [hs]
  | arithmetic _ hs | compare _ hs =>
    rw [hs]
    simp [hw]

/-- What is left by an instruction that puts nothing was there before. -/
theorem Operation.Moves.mem_of_mem {n : Nat} {op : Operation} {move : Frame → Frame}
    (h : op.Moves n s rest move) (hw : w ∈ rest.toList) : w ∈ s.toList := by
  cases h with
  | jump _ _ hs => rwa [hs]
  | pop _ hs | fallThrough _ _ hs | branch _ _ hs =>
    rw [hs]
    simp [hw]

/-- What an instruction of the program puts on a stack of values with an origin has one, too. -/
theorem Operation.Puts.supplied {i : Instruction} (h : i.operation.Puts i.span s rest v)
    {id : RoutineId} {c : Nat} (hi : p.Has id c i) (hs : ∀ w ∈ s.toList, p.Supplies cs w) :
    p.Supplies cs v := by
  cases h with
  | push hop => exact .constant ⟨id, c, i, hi, hop⟩
  | dup _ _ htop => exact hs v (Stack.mem_of_top? htop)
  | @arithmetic op a b hop hstack hv =>
    -- both operands were on the stack, so the origin of the result is made of theirs
    refine .computed hi (hs a ?_) (hs b ?_) ?_
    · simp [hstack]
    · simp [hstack]
    · rw [hop]
      exact congrArg some hv
  | @compare op a b hop hstack hv =>
    refine .computed hi (hs a ?_) (hs b ?_) ?_
    · simp [hstack]
    · simp [hstack]
    · rw [hop, ← hv]
      rfl

end Operations

/-! ## Steps -/

namespace Machine

/-- The machine runs the program, and every value on its stack has an origin. -/
structure Supplied (p : Program) (cs : List HostCall) (m : Machine) : Prop where
  program : m.program = p
  values : ∀ v ∈ m.stack.toList, p.Supplies cs v

variable {p : Program} {cs : List HostCall} {m : Machine}

/-- At the start there is no value whose origin could be asked for. -/
theorem supplied_start (p : Program) (l : Limits) (cs : List HostCall) :
    (start p l).Supplied p cs where
  program := rfl
  values _ hv := nomatch hv

/-- The other parts of a machine do not matter. -/
theorem Supplied.of_stack {n : Machine} (h : m.Supplied p cs) (hprogram : n.program = m.program)
    (hstack : ∀ v ∈ n.stack.toList, v ∈ m.stack.toList) : n.Supplied p cs where
  program := hprogram.trans h.program
  values v hv := h.values v (hstack v hv)

/-- A value with an origin, on values that were there, keeps the stack supplied. -/
theorem Supplied.push {n : Machine} (h : m.Supplied p cs) (hprogram : n.program = m.program)
    {rest : Stack Value} {v : Value} (hstack : n.stack = rest.push v)
    (hrest : ∀ w ∈ rest.toList, w ∈ m.stack.toList) (hv : p.Supplies cs v) :
    n.Supplied p cs where
  program := hprogram.trans h.program
  values w hw := by
    rw [hstack] at hw
    -- a value of the new stack was there before, or is the one that was put
    rcases Stack.mem_toList_push.mp hw with hw | rfl
    · exact h.values w (hrest w hw)
    · exact hv

/-- An instruction of the program leaves values that were there, and adds one with an origin at
most. -/
theorem Performs.supplied {f : Frame} {n : Nat} {i : Instruction} {r : Reply (Except Fault Unit)}
    (h : m.Performs f n i r) (hm : m.Supplied p cs) {id : RoutineId} {c : Nat}
    (hi : p.Has id c i) : r.machine.Supplied p cs := by
  -- by the rule: values are left alone, or one is put, or operands are taken away
  cases h with
  | underflow | outOfBounds | unknownCallee => exact hm
  | tooDeep | called | left => exact hm.of_stack rfl fun _ hv => hv
  | put hop =>
    exact hm.push rfl rfl (fun _ hw => hop.mem_of_mem hw) (hop.supplied hi hm.values)
  | overflow hop => exact hm.of_stack rfl fun _ hw => hop.mem_of_mem hw
  | moved hop => exact hm.of_stack rfl fun _ hw => hop.mem_of_mem hw
  | failed _ hs =>
    refine hm.of_stack rfl fun w hw => ?_
    rw [hs]
    simp [show w ∈ _ from hw]

/-- A step adds no value but that of the instruction that it executes. -/
theorem Supplied.step (hm : m.Supplied p cs) : m.step.machine.Supplied p cs := by
  have hsteps := m.steps_step
  generalize m.step = r at hsteps ⊢
  cases hsteps with
  | stopped | lost => exact hm
  | completed | leftAtEnd | refused => exact hm.of_stack rfl fun _ hv => hv
  | @executed f n i reply _ hnext _ hperf =>
    obtain ⟨r, -, hat⟩ := atInstruction_of_next hnext
    -- the instruction is one of the program, which is where its value comes from
    have hi : p.Has f.routine f.counter i := hm.program ▸ hat.has
    have hcharge : m.charge.Supplied p cs := hm.of_stack rfl fun _ hv => hv
    show (continues reply).machine.Supplied p cs
    rw [machine_continues]
    exact hperf.supplied hcharge hi

/-! ## Calls of a host -/

/-- A machine that is terminated keeps its values. -/
theorem terminate_stack (m : Machine) (d : Diagnostic) :
    (m.terminate d).machine.stack = m.stack := by
  unfold terminate
  cases m.status <;> rfl

theorem Supplied.terminate (hm : m.Supplied p cs) (d : Diagnostic) :
    (m.terminate d).machine.Supplied p cs := by
  refine hm.of_stack (m.terminate_unchanged d).1 fun v hv => ?_
  rwa [terminate_stack] at hv

/-- A value with an origin may be put on the stack, and may as well be refused. -/
theorem Supplied.pushAndAdvance (hm : m.Supplied p cs) {v : Value} (hv : p.Supplies cs v)
    (span : Span) : (m.pushAndAdvance v span).machine.Supplied p cs := by
  cases hr : reached? m.limits.evaluationStack m.stack.size with
  | none =>
    rw [pushAndAdvance_of_room hr]
    exact hm.push rfl rfl (fun _ hw => hw) hv
  | some limit =>
    rw [pushAndAdvance_of_full hr]
    exact hm.terminate _

/-- What a host applies is one of its calls, so the result has an origin among them. -/
theorem Supplied.handle (hm : m.Supplied p cs) {c : HostCall} (hc : c ∈ cs) :
    (m.handle c).machine.Supplied p cs := by
  -- steps, a termination, or an operator of the host's own
  rcases c.kinds with hadvances | ⟨d, rfl⟩ | ⟨result, span, hresult⟩
  · exact handle_invariant_of_advances (fun _ h => h.step) m hadvances hm
  · exact hm.terminate d
  · by_cases hrunning : m.status = .running
    · cases result with
      | ok v =>
        rw [machine_handle_of_ok hrunning hresult]
        exact hm.pushAndAdvance (.applied hc hresult) span
      | error d =>
        rw [machine_handle_of_error hrunning hresult]
        exact hm.terminate d
    · rwa [machine_handle_of_stopped hrunning]

/-- By induction on the calls, each of which is among those that may supply values. -/
theorem supplied_history (p : Program) (l : Limits) (cs : List HostCall) :
    ((start p l).history cs).machine.Supplied p cs :=
  history_invariant (Q := (· ∈ cs)) (fun _ _ hc hm => hm.handle hc) (fun _ hc => hc)
    (supplied_start p l cs)

/-- In every history each value on the stack has its origin: it is a constant of the program, or an
operator has computed it, one of the program from values with such an origin, or one that the host
has applied. Every array is a constant; what is no constant is a number or a text that an operator
yields. -/
theorem history_supplied (p : Program) (l : Limits) (cs : List HostCall) :
    let m := ((start p l).history cs).machine
    ∀ v ∈ m.stack.toList,
      p.Supplies cs v ∧
      (v.kind = .array → ∃ id c i, p.Has id c i ∧ i.operation = .push v) ∧
      ((∃ id c i, p.Has id c i ∧ i.operation = .push v) ∨
        (v.kind = .number ∨ v.kind = .text) ∧
          ((∃ (op : ArithmeticOperator) (a b : Value) (span : Span), op.evaluate a b span = .ok v) ∨
            ∃ (op : ComparisonOperator) (a b : Value), op.evaluate a b = v)) := by
  intro m v hv
  have hsupplies : p.Supplies cs v := (supplied_history p l cs).values v hv
  refine ⟨hsupplies, hsupplies.hasConstant_of_array, ?_⟩
  by_cases hconstant : p.HasConstant v
  · exact .inl hconstant
  · obtain ⟨hkind, hevaluated⟩ := hsupplies.evaluated hconstant
    refine .inr ⟨?_, hevaluated⟩
    cases hv : v.kind with
    | number => exact .inl rfl
    | text => exact .inr rfl
    | array => exact absurd hv hkind

/-- Put an array on the stack twice. -/
def pushesArray : Program :=
  .single [.synthetic (.push (.array [.text "constant"])), .synthetic .dup]

/-- The host compares arrays of its own between the steps; only the texts that this yields come on
the stack with the array of the program. -/
theorem history_supplied_array :
    let compared := HostCall.comparison (.array []) .ne (.array []) .synthetic
    let m := ((start pushesArray .unbounded).history [.step, .step, compared]).machine
    let constant := Value.array [.text "constant"]
    m.stack.toList = [constant, constant, .text "True"] ∧
      (∃ id c i, pushesArray.Has id c i ∧ i.operation = .push constant) ∧
      pushesArray.Supplies [.step, .step, compared] (.text "True") := by
  have hstack : ((start pushesArray .unbounded).history [.step, .step,
      .comparison (.array []) .ne (.array []) .synthetic]).machine.stack.toList =
        [.array [.text "constant"], .array [.text "constant"], .text "True"] := rfl
  intro compared m constant
  have hvalues := history_supplied pushesArray .unbounded [.step, .step, compared]
  have hconstant : constant ∈ m.stack.toList := by
    rw [show m.stack.toList = _ from hstack]
    exact List.mem_cons_self
  have htrue : Value.text "True" ∈ m.stack.toList := by
    rw [show m.stack.toList = _ from hstack]
    exact List.mem_cons_of_mem _ (List.mem_cons_of_mem _ List.mem_cons_self)
  exact ⟨hstack, (hvalues constant hconstant).2.1 rfl, (hvalues (.text "True") htrue).1⟩

end Machine

end ScriptMachine
