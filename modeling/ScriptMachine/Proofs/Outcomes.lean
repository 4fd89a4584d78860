import ScriptMachine.Proofs.Finality

/-!
# What a run returns

A run is its steps: after some of them, a run of the machine that they lead to returns what a run
from the beginning would, and leaves the same machine, if either returns at all. And what it returns
is how the machine has stopped. An outcome only tells whether the machine was terminated, so all
depends on no step saying that none may follow it while the machine still runs.

* `Machine.Returns`: what a run comes back with, if it does.
* `Reaches.returns_iff`, `reaches_iff_history`: runs after steps.
* `resume_stoppedWith`: the outcome of a run is that of a machine which has stopped.
* `Machine.Emptied`, `emptied_history`: a machine that has completed has no frames.
* `run_returns`: all of it.
-/

namespace ScriptMachine.Machine

variable {m n : Machine}

/-- A run from `m` comes back with the answer `a`, and leaves the machine `n`. -/
def Returns (m : Machine) (a : Except Fault Outcome) (n : Machine) : Prop :=
  ∃ fuel, (m.run fuel).answer = some a ∧ (m.run fuel).machine = n

/-! ## Runs after steps -/

/-- Steps that a host makes one by one are the first steps of a run, if each of them lets another
one follow. -/
theorem reaches_iff_history {k : Nat} :
    Reaches k m n ↔
      (m.history (List.replicate k .step)).answer = List.replicate k (.stepped (.ok true)) ∧
        (m.history (List.replicate k .step)).machine = n := by
  induction k generalizing m with
  | zero => exact ⟨fun h => ⟨rfl, h.2⟩, fun h => ⟨rfl, h.2⟩⟩
  | succ k ih =>
    have hanswer : (m.handle .step).answer = .stepped (.ok true) ↔ m.step.answer = .ok true :=
      ⟨HostAnswer.stepped.inj, congrArg HostAnswer.stepped⟩
    rw [reaches_succ_iff, ih, List.replicate_succ, List.replicate_succ, answer_history_cons,
      machine_history_cons, List.cons.injEq, hanswer, and_assoc]
    rfl

/-- After steps that do not end the run, a run returns what it would have from the beginning. -/
theorem Reaches.returns_iff {k : Nat} (h : Reaches k m n) {a : Except Fault Outcome}
    {q : Machine} : n.Returns a q ↔ m.Returns a q := by
  constructor
  · rintro ⟨fuel, ha, hq⟩
    obtain ⟨hanswer, hmachine⟩ := h.resume_add fuel
    exact ⟨k + fuel, hanswer.trans ha, hmachine.trans hq⟩
  · rintro ⟨fuel, ha, hq⟩
    obtain ⟨hanswer, hmachine⟩ := h.resume_add fuel
    -- with the fuel for the steps as well the run from the beginning is the same
    have hmore : resume (k + fuel) m = resume fuel m := by
      rw [Nat.add_comm]
      exact resume_mono ha k
    rw [hmore] at hanswer hmachine
    exact ⟨fuel, hanswer.symm.trans ha, hmachine.symm.trans hq⟩

/-! ## Outcomes -/

/-- A step says that another one may follow just if the machine still runs. -/
theorem Steps.answer_eq_true_iff {r : Reply (Except Fault Bool)} (h : m.Steps r) {b : Bool}
    (hb : r.answer = .ok b) : b = true ↔ r.machine.status = .running := by
  rw [h.answer_eq hb, isRunning_iff]

/-- A machine that does not run has stopped with its outcome. -/
theorem stoppedWith_outcome (hm : m.status ≠ .running) : m.StoppedWith m.outcome := by
  cases hs : m.status with
  | running => exact absurd hs hm
  | completed =>
    rw [(StoppedWith.completed hs).outcome_eq]
    exact .completed hs
  | terminated d =>
    rw [(StoppedWith.terminated hs).outcome_eq]
    exact .terminated hs

/-- The outcome of a run is how its last step has left the machine. -/
theorem resume_stoppedWith {fuel : Nat} {o : Outcome} (h : (resume fuel m).answer = some (.ok o)) :
    (resume fuel m).machine.StoppedWith o := by
  induction fuel generalizing m with
  | zero => cases h
  | succ fuel ih =>
    cases ha : m.step.answer with
    | error f =>
      rw [resume_succ_of_fault fuel ha] at h
      cases h
    | ok b => cases b with
      | false =>
        rw [resume_succ_of_stop fuel ha] at h ⊢
        cases h
        -- a step after which none may follow has left no machine that runs
        refine stoppedWith_outcome fun hrunning => ?_
        cases (m.steps_step.answer_eq_true_iff ha).mpr hrunning
      | true =>
        rw [resume_succ_of_continue fuel ha] at h ⊢
        exact ih h

/-! ## No frames are left -/

/-- If the machine has completed, no frame is left. -/
def Emptied (m : Machine) : Prop :=
  m.status = .completed → m.frames.size = 0

theorem emptied_of_running (hm : m.status = .running) : m.Emptied := by
  intro hcompleted
  rw [hm] at hcompleted
  cases hcompleted

/-- A step completes a machine only if no frame is left, and a completed one keeps still. -/
theorem Emptied.step (h : m.Emptied) : m.step.machine.Emptied := by
  by_cases hm : m.status = .running
  · intro hcompleted
    obtain ⟨hframes, hmachine⟩ := m.steps_step.completes hm hcompleted
    rw [hmachine]
    exact hframes
  · rw [step_of_stopped hm]
    exact h

theorem Emptied.terminate (h : m.Emptied) (d : Diagnostic) : (m.terminate d).machine.Emptied := by
  by_cases hm : m.status = .running
  · rw [terminate_of_running hm]
    nofun
  · rwa [terminate_of_stopped hm]

/-- A value of the host's own adds no frame. -/
theorem Emptied.put (h : m.Emptied) (v : Value) :
    ({ m with stack := m.stack.push v }.advance).Emptied := by
  intro hcompleted
  show (m.frames.modifyTop Frame.advance).size = 0
  rw [Stack.size_modifyTop]
  exact h hcompleted

/-- In every history a machine has no frames left once it is complete. -/
theorem emptied_history (p : Program) (l : Limits) (cs : List HostCall) :
    ((start p l).history cs).machine.Emptied := by
  refine history_invariant (Q := fun _ => True) ?_ (fun _ _ => trivial) (emptied_of_running rfl)
  intro m c _ hm
  exact handle_invariant (fun _ h => h.step) (fun _ d h => h.terminate d)
    (fun _ v h _ => h.put v) m c hm

theorem Returns.stoppedWith {o : Outcome} (h : m.Returns (.ok o) n) (hm : m.Emptied) :
    n.StoppedWith o ∧ n.Emptied := by
  obtain ⟨fuel, ha, rfl⟩ := h
  exact ⟨resume_stoppedWith ha, resume_invariant (fun _ h => h.step) fuel hm⟩

/-- After steps of which each says that another may follow, a run returns what a run from the
beginning returns, and leaves the same machine. From a machine that runs, or that a history has led
to, a run that returns results has completed the machine, no frame is left, and the results are the
whole stack; one that returns a report has terminated the machine with it. And a step that does not
fault says that another may follow just if the machine still runs. -/
theorem run_returns :
    (∀ (m : Machine) (k : Nat), let stepped := m.history (List.replicate k .step)
      stepped.answer = List.replicate k (.stepped (.ok true)) →
        ∀ a n, stepped.machine.Returns a n ↔ m.Returns a n) ∧
    (∀ m : Machine, (m.status = .running ∨ ∃ p l cs, m = ((start p l).history cs).machine) →
      ∀ n, (∀ results, m.Returns (.ok (.completed results)) n →
          n.status = .completed ∧ n.frames.size = 0 ∧ results = n.stack) ∧
        ∀ d, m.Returns (.ok (.terminated d)) n → n.status = .terminated d) ∧
    ∀ (m : Machine) (b : Bool), m.step.answer = .ok b →
      (b = true ↔ m.step.machine.status = .running) := by
  refine ⟨?_, fun m hm n => ?_, fun m b hb => m.steps_step.answer_eq_true_iff hb⟩
  · intro m k stepped hk a n
    have hreaches : Reaches k m stepped.machine := reaches_iff_history.mpr ⟨hk, rfl⟩
    exact hreaches.returns_iff
  · -- also a machine that a history has completed before, and that a run finds so, has no frames
    have hempty : m.Emptied := by
      rcases hm with hm | ⟨p, l, cs, rfl⟩
      · exact emptied_of_running hm
      · exact emptied_history p l cs
    refine ⟨fun results h => ?_, fun d h => ?_⟩
    · obtain ⟨hstopped, hframes⟩ := h.stoppedWith hempty
      cases hstopped with
      | completed hs => exact ⟨hs, hframes hs, rfl⟩
    · obtain ⟨hstopped, -⟩ := h.stoppedWith hempty
      cases hstopped with
      | terminated hs => exact hs

/-- Call a routine that puts a text on the stack. -/
def pushesInRoutine : Program :=
  .ofList
    [⟨"main", #[.synthetic (.call ⟨1⟩)]⟩, ⟨"push", #[.synthetic (.push (.text "result"))]⟩]

/-- After two steps the machine is at the end of the routine. From there a run returns the text, as
it does from the beginning. -/
theorem run_returns_text :
    let m := start pushesInRoutine .unbounded
    let stepped := m.history (List.replicate 2 .step)
    let results := Stack.empty.push (.text "result")
    (stepped.answer = List.replicate 2 (.stepped (.ok true)) ∧ m.step.answer = .ok true) ∧
      m.step.machine.status = .running ∧
      ∃ n, m.Returns (.ok (.completed results)) n ∧
        stepped.machine.Returns (.ok (.completed results)) n ∧
        n.status = .completed ∧ n.frames.size = 0 ∧ n.stack = results := by
  have hsteps : ((start pushesInRoutine .unbounded).history (List.replicate 2 .step)).answer =
      List.replicate 2 (.stepped (.ok true)) := rfl
  have hstep : (start pushesInRoutine .unbounded).step.answer = .ok true := rfl
  have hanswer : ((start pushesInRoutine .unbounded).run 5).answer =
      some (.ok (.completed (Stack.empty.push (.text "result")))) := rfl
  have hreturns : (start pushesInRoutine .unbounded).Returns
      (.ok (.completed (Stack.empty.push (.text "result"))))
      ((start pushesInRoutine .unbounded).run 5).machine := ⟨5, hanswer, rfl⟩
  obtain ⟨hafter, hends, hruns⟩ := run_returns
  obtain ⟨hcompleted, hframes, hstack⟩ := (hends _ (.inl rfl) _).1 _ hreturns
  exact ⟨⟨hsteps, hstep⟩, (hruns _ _ hstep).mp rfl, _, hreturns,
    (hafter _ _ hsteps _ _).mpr hreturns, hcompleted, hframes, hstack.symm⟩

end ScriptMachine.Machine
