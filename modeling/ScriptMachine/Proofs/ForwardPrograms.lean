import Mathlib.Algebra.GroupWithZero.Nat
import Mathlib.Algebra.Order.BigOperators.Group.List
import Mathlib.Algebra.Order.Group.Nat
import ScriptMachine.Proofs.Termination

/-!
# Programs that end without a budget

If no jump goes back and no routine is called from itself or a later one, then a run ends, with
whatever limits or none. A frame has a weight for each instruction that is still in front of it, and
an instruction weighs more than a whole routine that it may call. So each step after which the run
goes on lowers the weight of all frames: an instruction takes its own weight away, for which a call
gains a lighter frame, and a return takes away a frame, which weighs something even at its end.

* `Program.isForward_iff`: the condition, place by place, which can be decided.
* `Program.frameWeight`, `Machine.weight`: the weights.
* `Program.frameWeight_add_le`, `Program.frameWeight_start_lt`: an instruction passed, and a routine
  entered.
* `Steps.weight_lt`: a step lowers the weight.
* `forward_run_ends`: a run ends, after how many steps at most.
-/

namespace ScriptMachine

/-- The sum of a number for each entry. -/
def Stack.sumOf {α : Type} (s : Stack α) (weight : α → Nat) : Nat :=
  (s.toList.map weight).sum

@[simp] theorem Stack.sumOf_push {α : Type} (s : Stack α) (a : α) (weight : α → Nat) :
    (s.push a).sumOf weight = s.sumOf weight + weight a := by
  simp [sumOf]

namespace Program

/-! ## Deciding whether a program goes forward -/

/-- The conditions at one place of a routine. -/
def GoesForwardAt (id : RoutineId) (c : Nat) (i : Instruction) : Prop :=
  (∀ target ∈ i.operation.targets, c < target) ∧
    ∀ callee ∈ i.operation.callee?, id.index < callee.index

/-- The condition can be checked routine by routine and place by place. -/
theorem isForward_iff {p : Program} :
    p.IsForward ↔ ∀ id r, p.routine? id = some r →
      ∀ c i, r.instruction? c = some i → GoesForwardAt id c i := by
  constructor
  · intro hp id r hr c i hi
    have hhas := has_of_instruction? hr hi
    exact ⟨hp.jumps id c i hhas, hp.calls id c i hhas⟩
  · intro h
    have hat : ∀ id c i, p.Has id c i → GoesForwardAt id c i := by
      intro id c i hhas
      obtain ⟨r, hr, hi⟩ := has_iff.mp hhas
      exact h id r hr c i hi
    exact ⟨fun id c i hhas => (hat id c i hhas).1, fun id c i hhas => (hat id c i hhas).2⟩

instance (id : RoutineId) (c : Nat) (i : Instruction) : Decidable (GoesForwardAt id c i) :=
  inferInstanceAs (Decidable (_ ∧ _))

instance (p : Program) : Decidable p.IsForward :=
  decidable_of_iff
    (∀ k, k < p.size → ∀ r ∈ p.routine? ⟨.ofNat k⟩,
      ∀ c, c < r.size → ∀ i ∈ r.instruction? c, GoesForwardAt ⟨.ofNat k⟩ c i)
    (by
      rw [isForward_iff, forall_routine_iff]
      simp only [Routine.forall_instruction_iff])

/-- Within a routine control only goes on to later places. -/
theorem IsForward.lt_of_successor {p : Program} (hp : p.IsForward) {id : RoutineId} {c c' : Nat}
    {i : Instruction} (hi : p.Has id c i) (hc : c' ∈ i.operation.successors c) : c < c' := by
  rcases Operation.mem_successors hc with rfl | ht
  · omega
  · exact hp.jumps id c i hi c' ht

/-! ## Weights -/

/-- The number of instructions of all routines. -/
def length (p : Program) : Nat :=
  (p.routines.toList.map Routine.size).sum

/-- The weight of an instruction of a routine. -/
def instructionWeight (p : Program) (id : RoutineId) : Nat :=
  (p.length + 2) ^ (p.size - id.index.toNat)

/-- The weight of a frame: that of all instructions from its place on, and one for its return. -/
def frameWeight (p : Program) (f : Frame) : Nat :=
  match p.routine? f.routine with
  | some r => (r.size - f.counter) * p.instructionWeight f.routine + 1
  | none => 1

variable {p : Program} {id : RoutineId} {r : Routine}

/-- No routine has more instructions than all of them together. -/
theorem size_le_length (h : p.routine? id = some r) : r.size ≤ p.length := by
  have hr : r ∈ p.routines.toList := Array.mem_toList_iff.mpr (Array.mem_of_getElem? h)
  exact List.le_sum_of_mem (List.mem_map_of_mem hr)

/-- Every instruction weighs something. -/
theorem instructionWeight_pos (p : Program) (id : RoutineId) : 0 < p.instructionWeight id :=
  Nat.pow_pos (by omega)

/-- The weight of a frame whose routine is there. -/
theorem frameWeight_of_routine? {f : Frame} (h : p.routine? f.routine = some r) :
    p.frameWeight f = (r.size - f.counter) * p.instructionWeight f.routine + 1 := by
  rw [frameWeight, h]

/-- Also a frame at the end of its routine weighs something, since it has to be left. -/
theorem frameWeight_pos (p : Program) (f : Frame) : 0 < p.frameWeight f := by
  unfold frameWeight
  split <;> omega

/-- A frame loses the weight of the instruction that it passes. -/
theorem frameWeight_add_le {f : Frame} {c : Nat} (hr : p.routine? f.routine = some r)
    (hf : f.counter < r.size) (hc : f.counter < c) :
    p.frameWeight ⟨f.routine, c⟩ + p.instructionWeight f.routine ≤ p.frameWeight f := by
  rw [frameWeight_of_routine? hr, frameWeight_of_routine? (f := ⟨f.routine, c⟩) hr]
  -- one place at least is passed, which was still in front
  have hplaces : r.size - c + 1 ≤ r.size - f.counter := by omega
  have hmul := Nat.mul_le_mul_right (p.instructionWeight f.routine) hplaces
  rw [Nat.succ_mul] at hmul
  show (r.size - c) * p.instructionWeight f.routine + 1 + p.instructionWeight f.routine ≤ _
  omega

/-- An instruction weighs more than all of a later routine. -/
theorem frameWeight_start_lt {callee : RoutineId} (hr : p.routine? callee = some r)
    (h : id.index < callee.index) : p.frameWeight (.start callee) < p.instructionWeight id := by
  have hlt : id.index.toNat < callee.index.toNat := h
  have hcallee : callee.index.toNat < p.size := (Array.getElem?_eq_some_iff.mp hr).1
  -- a later routine has a smaller power, so one instruction outweighs a program's length of them
  have hpow : (p.length + 2) * p.instructionWeight callee ≤ p.instructionWeight id := by
    rw [instructionWeight, Nat.mul_comm, ← Nat.pow_succ]
    exact Nat.pow_le_pow_right (by omega) (by omega)
  have hsize := Nat.mul_le_mul_right (p.instructionWeight callee) (size_le_length hr)
  have hpos := p.instructionWeight_pos callee
  rw [frameWeight_of_routine? (f := .start callee) hr]
  show (r.size - 0) * p.instructionWeight callee + 1 < p.instructionWeight id
  rw [Nat.add_mul] at hpow
  rw [Nat.sub_zero]
  omega

end Program

/-! ## Steps -/

namespace Machine

/-- The weight of all frames. -/
def weight (m : Machine) : Nat :=
  m.frames.sumOf m.program.frameWeight

variable {m : Machine}

/-- A frame that is left takes its weight away. -/
theorem sumOf_pop_lt {f : Frame} (hf : m.frames.top? = some f) :
    m.frames.pop.sumOf m.program.frameWeight < m.weight := by
  obtain ⟨rest, hrest⟩ := Stack.top?_eq_some_iff.mp hf
  have hpos := m.program.frameWeight_pos f
  rw [weight, hrest, Stack.pop_push, Stack.sumOf_push]
  omega

/-- A frame that goes on leaves the weight of an instruction behind. -/
theorem sumOf_modifyTop_lt (hp : m.program.IsForward) {f : Frame} {r : Routine} {i : Instruction}
    (hat : m.AtInstruction f r i) {move : Frame → Frame}
    (hmove : ∃ c ∈ i.operation.successors f.counter, move f = ⟨f.routine, c⟩) :
    (m.frames.modifyTop move).sumOf m.program.frameWeight < m.weight := by
  obtain ⟨rest, hrest⟩ := Stack.top?_eq_some_iff.mp hat.frame
  obtain ⟨c, hc, hmove⟩ := hmove
  have hlt := hp.lt_of_successor hat.has hc
  have hle := Program.frameWeight_add_le hat.routine hat.counter_lt hlt
  have hpos := m.program.instructionWeight_pos f.routine
  rw [weight, hrest, Stack.modifyTop_push, hmove, Stack.sumOf_push, Stack.sumOf_push]
  omega

/-- A call costs the caller more weight than the frame of the callee brings. -/
theorem sumOf_called_lt (hp : m.program.IsForward) {f : Frame} {r q : Routine} {i : Instruction}
    (hat : m.AtInstruction f r i) {callee : RoutineId} (hop : i.operation = .call callee)
    (hcallee : m.program.routine? callee = some q) :
    ((m.frames.modifyTop Frame.advance).push (.start callee)).sumOf m.program.frameWeight <
      m.weight := by
  obtain ⟨rest, hrest⟩ := Stack.top?_eq_some_iff.mp hat.frame
  -- calls go to later routines, whose frames are lighter than the call
  have hlater : f.routine.index < callee.index :=
    hp.calls f.routine f.counter i hat.has callee (by rw [hop]; rfl)
  have hstart := Program.frameWeight_start_lt hcallee hlater
  have hle := Program.frameWeight_add_le hat.routine hat.counter_lt (Nat.lt_succ_self f.counter)
  have hadvance : m.program.frameWeight f.advance + m.program.instructionWeight f.routine ≤
      m.program.frameWeight f := hle
  rw [weight, hrest, Stack.modifyTop_push, Stack.sumOf_push, Stack.sumOf_push, Stack.sumOf_push]
  omega

/-- An instruction after which the run goes on lowers the weight of all frames. -/
theorem Performs.weight_lt {f : Frame} {r : Routine} {i : Instruction}
    {reply : Reply (Except Fault Unit)} (h : m.charge.Performs f r.size i reply)
    (hp : m.program.IsForward) (hat : m.AtInstruction f r i)
    (ha : (continues reply).answer = .ok true) :
    reply.machine.frames.sumOf m.program.frameWeight < m.weight := by
  -- the run goes on after four of the rules, each with its own loss of weight
  cases h with
  | underflow | outOfBounds | unknownCallee => cases ha
  | overflow | failed | tooDeep => cases ha
  | put hop => exact sumOf_modifyTop_lt hp hat (hop.advance_mem f)
  | moved hop => exact sumOf_modifyTop_lt hp hat (hop.move_mem f)
  | called hop hcallee => exact sumOf_called_lt hp hat hop hcallee
  | left => exact sumOf_pop_lt hat.frame

/-- A step after which the run goes on lowers the weight of all frames. -/
theorem Steps.weight_lt {reply : Reply (Except Fault Bool)} (h : m.Steps reply)
    (hp : m.program.IsForward) (ha : reply.answer = .ok true) :
    reply.machine.weight < m.weight := by
  have hprogram := h.unchanged.1
  rw [weight, hprogram]
  cases h with
  | stopped | completed | lost | refused => cases ha
  | leftAtEnd _ hnext => exact sumOf_pop_lt (next_eq_leave_iff.mp hnext).1
  | executed _ hnext _ hperf =>
    obtain ⟨r, rfl, hat⟩ := atInstruction_of_next hnext
    show (continues _).machine.frames.sumOf m.program.frameWeight < m.weight
    rw [machine_continues]
    exact hperf.weight_lt hp hat ha

/-- There are no more steps than the weight, and one that ends the run. -/
theorem stopsWithin_weight (hp : m.program.IsForward) : StopsWithin (m.weight + 1) m := by
  refine stopsWithin_of_potential (P := fun n => n.program = m.program) (fun n hn ha => ?_) rfl
  refine ⟨n.steps_step.unchanged.1.trans hn, n.steps_step.weight_lt ?_ ha⟩
  rwa [hn]

/-- At the start there is one frame, of a weight that the program bounds. -/
theorem weight_start_le (p : Program) (l : Limits) :
    (start p l).weight ≤ p.length * (p.length + 2) ^ p.size + 1 := by
  have hstart : (start p l).weight = p.frameWeight (.start .entry) := by
    simp [weight, start, Stack.sumOf]
  rw [hstart]
  unfold Program.frameWeight
  split
  · next r hr =>
    have hsize := Program.size_le_length hr
    have hmul := Nat.mul_le_mul_right (p.instructionWeight .entry) hsize
    have hentry : p.instructionWeight .entry = (p.length + 2) ^ p.size := rfl
    show (r.size - 0) * p.instructionWeight .entry + 1 ≤ _
    rw [Nat.sub_zero, ← hentry]
    omega
  · omega

/-- If no jump of a program goes back, and each call goes to a later routine, then a run ends under
whatever limits, and without any: one of its steps is the last, and their number has a bound that
depends on the program only. So the run has its outcome or its fault with that much fuel, and more
fuel does not change it. -/
theorem forward_run_ends {p : Program} (hp : p.IsForward) (l : Limits) :
    let bound := p.length * (p.length + 2) ^ p.size + 2
    (∃ k n, k < bound ∧ Reaches k (start p l) n ∧
        (n.step.answer = .ok false ∨ ∃ f, n.step.answer = .error f)) ∧
      ∀ fuel, bound ≤ fuel →
        run fuel (start p l) = run bound (start p l) ∧
          ∃ a, (run fuel (start p l)).answer = some a := by
  intro bound
  have hweight : (start p l).weight + 1 ≤ bound := Nat.succ_le_succ (weight_start_le p l)
  have hstops : StopsWithin bound (start p l) :=
    (stopsWithin_weight (m := start p l) hp).of_le hweight
  exact ⟨hstops, fun fuel hfuel => run_eq_of_stopsWithin hstops hfuel⟩

/-- Two routines that call the next one twice, and one that branches to its end. -/
def doublesCalls : Program :=
  .ofList
    [⟨"main", #[.synthetic (.call ⟨1⟩), .synthetic (.call ⟨1⟩)]⟩,
      ⟨"twice", #[.synthetic (.call ⟨2⟩), .synthetic (.call ⟨2⟩)]⟩,
      ⟨"once", #[.synthetic (.push (.array [])), .synthetic (.jumpIfFalse 2)]⟩]

/-- The last routine is entered four times. The run has 22 steps, and the bound is above that. -/
theorem forward_run_ends_doubled :
    let m := start doublesCalls .unbounded
    doublesCalls.IsForward ∧ doublesCalls.length = 6 ∧
      (run 21 m).answer = none ∧ (run 22 m).answer = some (.ok (.completed .empty)) ∧
      (∃ k n, k < 3074 ∧ Reaches k m n ∧
        (n.step.answer = .ok false ∨ ∃ f, n.step.answer = .error f)) ∧
      ∃ a, (run 3074 m).answer = some a := by
  have hforward : doublesCalls.IsForward := by decide
  have hbefore : (run 21 (start doublesCalls .unbounded)).answer = none := rfl
  have hafter : (run 22 (start doublesCalls .unbounded)).answer =
      some (.ok (.completed .empty)) := rfl
  obtain ⟨hsteps, hrun⟩ := forward_run_ends hforward .unbounded
  intro m
  exact ⟨hforward, rfl, hbefore, hafter, hsteps, (hrun 3074 (Nat.le_refl _)).2⟩

end Machine

end ScriptMachine
