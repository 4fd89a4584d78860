import ScriptMachine.Proofs.Histories

/-!
# Further routines change nothing

A program that gets further routines keeps those that it had, under the ids that they had. A machine
looks a routine up where a frame asks for it and where a call names it, and jumps are bounded by the
routine that they are in; so as long as it finds what it looks for, a machine cannot tell whether
there are more routines.

* `Program.Extends`, `Program.extends_addAll`: the routines that were there are still there.
* `Machine.withProgram`: a machine that is given another program, and its reply.
* `Performs.withProgram`, `step_withProgram`: an instruction and a step under a larger program.
* `steps_extended`: any number of steps.
-/

namespace ScriptMachine

/-! ## Programs with further routines -/

namespace Program

/-- Every routine of `p` is there in `q`, under the same id. -/
def Extends (q p : Program) : Prop :=
  ∀ id r, p.routine? id = some r → q.routine? id = some r

variable {p q : Program} {r : Routine}

theorem Extends.refl (p : Program) : p.Extends p :=
  fun _ _ h => h

/-- Further routines may come in several turns. -/
theorem Extends.trans {s : Program} (h : s.Extends q) (h' : q.Extends p) : s.Extends p :=
  fun id r hr => h id r (h' id r hr)

/-- A routine that is added comes behind those that were there. -/
theorem extends_push (p : Program) (r : Routine) : Extends ⟨p.routines.push r⟩ p := by
  intro id s hs
  obtain ⟨hsize, hget⟩ := Array.getElem?_eq_some_iff.mp hs
  show (p.routines.push r)[id.index.toNat]? = some s
  rw [Array.getElem?_push_lt hsize, hget]

/-- One more routine leaves those that were there alone, and so does one that gets no id. -/
theorem extends_add? {given : Option RoutineId} (h : p.add? r = (given, q)) : q.Extends p := by
  cases given with
  | none =>
    obtain ⟨-, rfl⟩ := add?_eq_none_iff.mp h
    exact .refl q
  | some id =>
    obtain ⟨-, rfl⟩ := add?_eq_some_iff.mp h
    exact p.extends_push r

/-- Any number of routines leaves those that were there alone. By induction on the routines, one
after the other. -/
theorem extends_addAll (p : Program) (rs : List Routine) : (p.addAll rs).2.Extends p := by
  induction rs generalizing p with
  | nil => exact .refl p
  | cons r rs ih =>
    rw [addAll_cons rfl]
    exact (ih _).trans (extends_add? rfl)

end Program

/-! ## Machines with another program -/

/-- The machine with another program in place of its own. -/
def Machine.withProgram (m : Machine) (q : Program) : Machine :=
  { m with program := q }

/-- The reply of a machine that has another program. -/
def Reply.withProgram {α : Type} (r : Reply α) (q : Program) : Reply α :=
  ⟨r.answer, r.machine.withProgram q, r.events⟩

namespace Machine

variable {m : Machine} {q : Program}

/-- An instruction looks up no routine but a callee, and finds it in the larger program as well. -/
theorem Performs.withProgram {f : Frame} {n : Nat} {i : Instruction} {r : Reply (Except Fault Unit)}
    (h : m.Performs f n i r) (hq : q.Extends m.program)
    (hknown : ∀ id, r.answer ≠ .error (.unknownRoutine id)) :
    (m.withProgram q).Performs f n i (r.withProgram q) := by
  cases h with
  | underflow hs => exact .underflow hs
  | outOfBounds hs hop ht => exact .outOfBounds hs hop ht
  -- a callee that is missing might be among the further routines
  | unknownCallee => exact absurd rfl (hknown _)
  | put hop hroom => exact .put hop hroom
  | overflow hop hfull => exact .overflow hop hfull
  | failed hop hs hd => exact .failed hop hs hd
  | moved hop => exact .moved hop
  | tooDeep hop hcallee hfull => exact .tooDeep hop (hq _ _ hcallee) hfull
  | called hop hcallee hroom => exact .called hop (hq _ _ hcallee) hroom
  | left hop => exact .left hop

/-- What a machine does next depends on the routine of its frame alone, if that is there. -/
theorem next_withProgram (hq : q.Extends m.program) (hknown : ∀ id, m.next ≠ .lost id) :
    (m.withProgram q).next = m.next := by
  cases hnext : m.next with
  | complete =>
    have htop : m.frames.top? = none := next_eq_complete_iff.mp hnext
    exact next_eq_complete_iff.mpr htop
  | lost id => exact absurd hnext (hknown id)
  | leave f =>
    obtain ⟨hf, r, hr, hi⟩ := next_eq_leave_iff.mp hnext
    exact next_eq_leave_iff.mpr ⟨hf, r, hq _ _ hr, hi⟩
  | execute f n i =>
    -- the routine is the same, and so are its size and the instruction
    obtain ⟨hf, r, hr, hsize, hi⟩ := next_eq_execute_iff.mp hnext
    exact next_eq_execute_iff.mpr ⟨hf, r, hq _ _ hr, hsize, hi⟩

theorem continues_withProgram (r : Reply (Except Fault Unit)) :
    continues (r.withProgram q) = (continues r).withProgram q := by
  obtain ⟨answer, n, es⟩ := r
  cases answer <;> rfl

/-- A step that misses no routine does the same in a larger program. -/
theorem Steps.withProgram {r : Reply (Except Fault Bool)} (h : m.Steps r)
    (hq : q.Extends m.program) (hknown : ∀ id, r.answer ≠ .error (.unknownRoutine id)) :
    (m.withProgram q).Steps (r.withProgram q) := by
  cases h with
  | stopped hm => exact .stopped hm
  | completed hm hnext =>
    exact .completed hm ((next_withProgram hq (by rw [hnext]; nofun)).trans hnext)
  | lost => exact absurd rfl (hknown _)
  | leftAtEnd hm hnext =>
    exact .leftAtEnd hm ((next_withProgram hq (by rw [hnext]; nofun)).trans hnext)
  | refused hm hnext hbudget =>
    exact .refused hm ((next_withProgram hq (by rw [hnext]; nofun)).trans hnext) hbudget
  | @executed f n i r hm hnext hbudget hr =>
    -- a fault of the instruction would be one of the step
    have hr' : (m.charge.withProgram q).Performs f n i (r.withProgram q) := by
      refine hr.withProgram hq fun id hfault => hknown id ?_
      show (continues r).answer = _
      rw [continues, hfault]
    have hnext' := (next_withProgram hq (by rw [hnext]; nofun)).trans hnext
    have h := Steps.executed (m := m.withProgram q) hm hnext' hbudget hr'
    rwa [continues_withProgram] at h

/-- The step of the machine with the larger program is the one that the rules allow it. -/
theorem step_withProgram (hq : q.Extends m.program)
    (hknown : ∀ id, m.step.answer ≠ .error (.unknownRoutine id)) :
    (m.withProgram q).step = m.step.withProgram q :=
  (m.steps_step.withProgram hq hknown).eq

/-! ## Many steps -/

/-- Steps that miss no routine do the same in a larger program, one after the other. -/
theorem history_withProgram {k : Nat} (hq : q.Extends m.program)
    (hknown : ∀ id, .stepped (.error (.unknownRoutine id)) ∉
      (m.history (List.replicate k .step)).answer) :
    (m.withProgram q).history (List.replicate k .step) =
      (m.history (List.replicate k .step)).withProgram q := by
  induction k generalizing m with
  | zero => rfl
  | succ k ih =>
    rw [List.replicate_succ, answer_history_cons] at hknown
    have hstep : (m.withProgram q).step = m.step.withProgram q := by
      refine step_withProgram hq fun id hfault => hknown id ?_
      exact List.mem_cons.mpr (.inl (congrArg HostAnswer.stepped hfault).symm)
    have hhandle : (m.withProgram q).handle .step = (m.handle .step).withProgram q :=
      congrArg (Reply.map HostAnswer.stepped) hstep
    -- the program is the same after the first step, so it is still extended
    have hq' : q.Extends (m.handle .step).machine.program := by
      rwa [(m.handle_unchanged .step).1]
    have hrest := ih hq' fun id h => hknown id (List.mem_cons_of_mem _ h)
    rw [List.replicate_succ, history_cons, history_cons, hhandle]
    -- the first step leaves a machine with the larger program
    show ((history _ ((m.handle .step).machine.withProgram q)).afterAll _).map _ = _
    rw [hrest]
    rfl

/-- Further routines change nothing for a program that works. As long as no step asks for a routine
that is not there, any number of steps from the start have the same answers where the program has
got further routines; the machine is the same in the end, but for its program, and the same is
reported. -/
theorem steps_extended {p : Program} {l : Limits} {k : Nat} (rs : List Routine)
    (hknown : ∀ id, .stepped (.error (.unknownRoutine id)) ∉
      ((start p l).history (List.replicate k .step)).answer) :
    let q := (p.addAll rs).2
    let original := (start p l).history (List.replicate k .step)
    let extended := (start q l).history (List.replicate k .step)
    extended.answer = original.answer ∧
      extended.machine = { original.machine with program := q } ∧
      extended.events = original.events := by
  intro q original extended
  have hextended : extended = original.withProgram q :=
    history_withProgram (m := start p l) (p.extends_addAll rs) hknown
  rw [hextended]
  exact ⟨rfl, rfl, rfl⟩

/-- Call the second routine, and after it one that is not there. -/
def callsBeyond : Program :=
  .ofList
    [⟨"main", #[.synthetic (.call ⟨1⟩), .synthetic (.call ⟨2⟩)]⟩,
      ⟨"push", #[.synthetic (.push (.text "pushed"))]⟩]

/-- A third routine and a fourth one. -/
def furtherRoutines : List Routine :=
  [⟨"third", #[]⟩, ⟨"fourth", #[.synthetic .pop]⟩]

/-- Up to the call of the routine that is not there, which is the fourth step, further routines
change nothing. That step faults only where the routine is not there. -/
theorem steps_extended_call :
    let original := (start callsBeyond .unbounded).history (List.replicate 3 .step)
    let extended := (start (callsBeyond.addAll furtherRoutines).2 .unbounded).history
      (List.replicate 3 .step)
    (∀ id, .stepped (.error (.unknownRoutine id)) ∉ original.answer) ∧
      extended.answer = List.replicate 3 (.stepped (.ok true)) ∧
      extended.machine.frames = original.machine.frames ∧
      extended.machine.stack.toList = [.text "pushed"] ∧
      original.machine.step.answer = .error (.unknownRoutine ⟨2⟩) ∧
      extended.machine.step.answer = .ok true := by
  have hanswer : ((start callsBeyond .unbounded).history (List.replicate 3 .step)).answer =
      List.replicate 3 (.stepped (.ok true)) := rfl
  have hknown : ∀ id, .stepped (.error (.unknownRoutine id)) ∉
      ((start callsBeyond .unbounded).history (List.replicate 3 .step)).answer := by
    rw [hanswer]
    simp
  have hstack : ((start callsBeyond .unbounded).history
      (List.replicate 3 .step)).machine.stack.toList = [.text "pushed"] := rfl
  have hfault : ((start callsBeyond .unbounded).history
      (List.replicate 3 .step)).machine.step.answer = .error (.unknownRoutine ⟨2⟩) := rfl
  have hcalled : ((start (callsBeyond.addAll furtherRoutines).2 .unbounded).history
      (List.replicate 3 .step)).machine.step.answer = .ok true := rfl
  obtain ⟨hsame, hmachine, -⟩ := steps_extended furtherRoutines hknown
  refine ⟨hknown, hsame.trans hanswer, ?_, ?_, hfault, hcalled⟩
  · rw [hmachine]
  · rw [hmachine]
    exact hstack

end Machine

end ScriptMachine
