import ScriptMachine.Proofs.Rules

/-!
# What a step does to the frames

All frames but the one on top stay as they are in a step. The one on top stays too, or is left, or
goes on to another place of its routine, at most the end; and a call puts one more frame on it.

* `Machine.FrameChange`: the ways in which a step can change the frames.
* `Steps.frameChange`: there are no others.
* `FrameChange.size_le`: there is one frame more at most.
-/

namespace ScriptMachine.Machine

/-- What a step may make of the frames of a machine. -/
inductive FrameChange (m : Machine) (frames : Stack Frame) : Prop where
  | kept (hframes : frames = m.frames)
  | left {rest : Stack Frame} {f : Frame} (hm : m.frames = rest.push f) (hframes : frames = rest)
  | moved {rest : Stack Frame} {f : Frame} {r : Routine} {i : Instruction} {c : Nat}
      (hm : m.frames = rest.push f) (hat : m.AtInstruction f r i)
      (hc : c ∈ i.operation.successors f.counter) (hle : c ≤ r.size)
      (hframes : frames = rest.push ⟨f.routine, c⟩)
  | called {rest : Stack Frame} {f : Frame} {r q : Routine} {i : Instruction} {callee : RoutineId}
      (hm : m.frames = rest.push f) (hat : m.AtInstruction f r i)
      (hop : i.operation = .call callee) (hcallee : m.program.routine? callee = some q)
      (hframes : frames = (rest.push f.advance).push (.start callee))

variable {m : Machine}

/-- A move within a routine leads to a successor, which is at the end at most. -/
theorem frameChange_modifyTop {f : Frame} {r : Routine} {i : Instruction}
    (hat : m.AtInstruction f r i) {move : Frame → Frame}
    (hmove : ∃ c ∈ i.operation.successors f.counter, move f = ⟨f.routine, c⟩)
    (htarget : ∀ target ∈ i.operation.targets, target ≤ r.size) :
    m.FrameChange (m.frames.modifyTop move) := by
  obtain ⟨rest, hrest⟩ := Stack.top?_eq_some_iff.mp hat.frame
  obtain ⟨c, hc, hmove⟩ := hmove
  -- the next place is at most the end, and a target was checked
  have hle : c ≤ r.size := by
    rcases Operation.mem_successors hc with rfl | hmem
    · exact hat.counter_lt
    · exact htarget c hmem
  refine .moved hrest hat hc hle ?_
  rw [hrest, Stack.modifyTop_push, hmove]

/-- An instruction changes the frames in one of these ways. -/
theorem Performs.frameChange {f : Frame} {r : Routine} {i : Instruction}
    {reply : Reply (Except Fault Unit)} (h : m.charge.Performs f r.size i reply)
    (hat : m.AtInstruction f r i) : m.FrameChange reply.machine.frames := by
  cases h with
  | underflow | outOfBounds | unknownCallee | overflow | failed | tooDeep => exact .kept rfl
  | put hop =>
    refine frameChange_modifyTop hat (hop.advance_mem f) ?_
    rw [hop.targets_eq_nil]
    nofun
  | moved hop => exact frameChange_modifyTop hat (hop.move_mem f) fun _ ht => hop.target_le ht
  | @called callee q hop hcallee =>
    -- the caller goes on first, and the callee is put on it
    obtain ⟨rest, hrest⟩ := Stack.top?_eq_some_iff.mp hat.frame
    refine .called hrest hat hop hcallee ?_
    show (m.frames.modifyTop Frame.advance).push (.start callee) = _
    rw [hrest, Stack.modifyTop_push]
  | left => exact .left (Stack.eq_push_pop_of_top? hat.frame) rfl

/-- A step changes the frames in one of these ways. -/
theorem Steps.frameChange {reply : Reply (Except Fault Bool)} (h : m.Steps reply) :
    m.FrameChange reply.machine.frames := by
  cases h with
  | stopped | completed | lost | refused => exact .kept rfl
  | leftAtEnd hm hnext =>
    exact .left (Stack.eq_push_pop_of_top? (next_eq_leave_iff.mp hnext).1) rfl
  | executed hm hnext hbudget hperf =>
    obtain ⟨r, rfl, hat⟩ := atInstruction_of_next hnext
    show m.FrameChange (continues _).machine.frames
    rw [machine_continues]
    exact hperf.frameChange hat

/-! ## The number of frames -/

/-- No step adds more than one frame. -/
theorem FrameChange.size_le {frames : Stack Frame} (h : m.FrameChange frames) :
    frames.size ≤ m.frames.size + 1 := by
  cases h with
  | kept hframes =>
    rw [hframes]
    exact Nat.le_succ _
  | left hm hframes =>
    rw [hm, hframes, Stack.size_push]
    exact Nat.le_add_right _ 2
  | moved hm hat hc hle hframes =>
    rw [hm, hframes, Stack.size_push, Stack.size_push]
    exact Nat.le_succ _
  | called hm hat hop hcallee hframes =>
    have hsize : frames.size = m.frames.size + 1 := by
      rw [hm, hframes, Stack.size_push, Stack.size_push, Stack.size_push]
    exact Nat.le_of_eq hsize

end ScriptMachine.Machine
