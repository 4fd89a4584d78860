import ScriptMachine.Proofs.Rules

/-!
# What holds along a run

What every step keeps is kept by a run. A run is also known by its parts: a number of steps that
lead from one machine to another, and an answer that does not change with more fuel.

* `resume_invariant`, `resume_fault`, `resume_answer_of_terminated`: from steps to runs.
* `resume_mono`: more fuel changes nothing once there is an answer.
* `Reaches`: a number of steps, none of which ends the run.
* `resume_stopped`, `Reaches.resume_of_stop`: the step of a run that stops the machine.
* `EndsWith`: the outcome of a run, for which some fuel suffices.
-/

namespace ScriptMachine.Machine

variable {P : Machine → Prop}

/-- A run of one step. -/
theorem resume_one (m : Machine) :
    (resume 1 m).machine = m.step.machine ∧ (resume 1 m).events = m.step.events := by
  -- whether the step is the last one or the fuel ends there, nothing else is done
  cases ha : m.step.answer with
  | error f =>
    rw [resume_succ_of_fault 0 ha]
    exact ⟨rfl, rfl⟩
  | ok b => cases b with
    | false =>
      rw [resume_succ_of_stop 0 ha]
      exact ⟨rfl, rfl⟩
    | true =>
      rw [resume_succ_of_continue 0 ha]
      exact ⟨rfl, List.append_nil _⟩

/-! ## What every step keeps -/

/-- What every step keeps is kept by a run of any length. -/
theorem resume_invariant (hstep : ∀ m, P m → P m.step.machine) (fuel : Nat) {m : Machine}
    (h : P m) : P (resume fuel m).machine := by
  induction fuel generalizing m with
  | zero => exact h
  | succ fuel ih =>
    -- a step keeps the property also where it faults or stops the machine
    have hnext : P m.step.machine := hstep m h
    cases ha : m.step.answer with
    | error f => rwa [resume_succ_of_fault fuel ha]
    | ok b => cases b with
      | false => rwa [resume_succ_of_stop fuel ha]
      | true =>
        rw [resume_succ_of_continue fuel ha]
        exact ih hnext

/-- A run that answers with a fault got it from one of its steps. -/
theorem resume_fault (hstep : ∀ m, P m → P m.step.machine) {fuel : Nat} {m : Machine} {f : Fault}
    (h : P m) (hf : (resume fuel m).answer = some (.error f)) :
    ∃ n, P n ∧ n.step.answer = .error f := by
  induction fuel generalizing m with
  | zero => cases hf
  | succ fuel ih =>
    -- the fault is that of the first step, or of the rest of the run
    cases ha : m.step.answer with
    | error g =>
      rw [resume_succ_of_fault fuel ha] at hf
      cases hf
      exact ⟨m, h, ha⟩
    | ok b => cases b with
      | false =>
        rw [resume_succ_of_stop fuel ha] at hf
        cases hf
      | true =>
        rw [resume_succ_of_continue fuel ha] at hf
        exact ih (hstep m h) hf

/-- A run that terminates the machine answers with the report, so the report cannot be missed. -/
theorem resume_answer_of_terminated {fuel : Nat} {m : Machine} {d : Diagnostic}
    (hm : m.status = .running) (hd : (resume fuel m).machine.status = .terminated d) :
    (resume fuel m).answer = some (.ok (.terminated d)) := by
  induction fuel generalizing m with
  | zero => exact absurd hd (ne_terminated_of_running hm)
  | succ fuel ih =>
    cases ha : m.step.answer with
    | error f =>
      rw [resume_succ_of_fault fuel ha] at hd
      -- a fault leaves the machine running
      exact absurd hd (ne_terminated_of_running (m.steps_step.status_of_error ha))
    | ok b => cases b with
      | false =>
        rw [resume_succ_of_stop fuel ha] at hd ⊢
        have hd' : m.step.machine.status = .terminated d := hd
        show some (Except.ok m.step.machine.outcome) = _
        rw [outcome, hd']
      | true =>
        -- the machine still runs after the step, as its answer says
        have hrun := isRunning_iff.mp (m.steps_step.answer_eq ha).symm
        rw [resume_succ_of_continue fuel ha] at hd ⊢
        exact ih hrun hd

/-! ## Machines that have stopped -/

/-- A step of a machine that has stopped does nothing. -/
theorem step_of_stopped {m : Machine} (hm : m.status ≠ .running) :
    m.step = .silent (.ok false) m :=
  (Steps.stopped hm).eq

/-- A run of a machine that has stopped answers with the outcome that there already is. -/
theorem resume_of_stopped {m : Machine} (hm : m.status ≠ .running) (fuel : Nat) :
    resume (fuel + 1) m = .silent (some (.ok m.outcome)) m := by
  have hstop : m.step.answer = .ok false := congrArg Reply.answer (step_of_stopped hm)
  rw [resume_succ_of_stop fuel hstop, step_of_stopped hm]
  rfl

/-! ## Parts of a run -/

/-- A run that has an answer has it, and does the same, with more fuel. -/
theorem resume_mono {fuel : Nat} {m : Machine} {a : Except Fault Outcome}
    (h : (resume fuel m).answer = some a) (more : Nat) :
    resume (fuel + more) m = resume fuel m := by
  induction fuel generalizing m with
  | zero => cases h
  | succ fuel ih =>
    rw [Nat.succ_add]
    cases ha : m.step.answer with
    | error f => rw [resume_succ_of_fault fuel ha, resume_succ_of_fault (fuel + more) ha]
    | ok b => cases b with
      | false => rw [resume_succ_of_stop fuel ha, resume_succ_of_stop (fuel + more) ha]
      | true =>
        rw [resume_succ_of_continue fuel ha] at h
        rw [resume_succ_of_continue fuel ha, resume_succ_of_continue (fuel + more) ha, ih h]

/-- After `k` steps from `m`, none of which ends the run, the machine is `n`. -/
def Reaches (k : Nat) (m n : Machine) : Prop :=
  (resume k m).answer = none ∧ (resume k m).machine = n

/-- A step that may be followed by another one leads to its machine. -/
theorem Reaches.one {m n : Machine} (ha : m.step.answer = .ok true) (hn : m.step.machine = n) :
    Reaches 1 m n := by
  rw [Reaches, resume_succ_of_continue 0 ha]
  exact ⟨rfl, hn⟩

/-- A run may start over where the first steps have led. -/
theorem Reaches.resume_add {j : Nat} {m n : Machine} (h : Reaches j m n) (k : Nat) :
    (resume (j + k) m).answer = (resume k n).answer ∧
      (resume (j + k) m).machine = (resume k n).machine := by
  rw [Machine.resume_add h.1, h.2]
  exact ⟨rfl, rfl⟩

/-- Steps one after the other are as many as both. -/
theorem Reaches.trans {j k : Nat} {m n q : Machine} (h : Reaches j m n) (h' : Reaches k n q) :
    Reaches (j + k) m q := by
  obtain ⟨hanswer, hmachine⟩ := h.resume_add k
  rw [Reaches, hanswer, hmachine]
  exact h'

/-- The first of several steps lets the others follow. -/
theorem reaches_succ_iff {k : Nat} {m n : Machine} :
    Reaches (k + 1) m n ↔ m.step.answer = .ok true ∧ Reaches k m.step.machine n := by
  rw [Reaches]
  -- only a step that goes on leaves a run without an answer
  cases ha : m.step.answer with
  | error f =>
    rw [resume_succ_of_fault k ha]
    constructor <;> (rintro ⟨h, -⟩; cases h)
  | ok b => cases b with
    | false =>
      rw [resume_succ_of_stop k ha]
      constructor <;> (rintro ⟨h, -⟩; cases h)
    | true =>
      rw [resume_succ_of_continue k ha]
      exact ⟨fun h => ⟨rfl, h⟩, fun h => h.2⟩

/-- Steps that do not end the run leave the machine running. -/
theorem Reaches.status {k : Nat} {m n : Machine} (h : Reaches k m n) (hm : m.status = .running) :
    n.status = .running := by
  induction k generalizing m with
  | zero =>
    rw [← h.2]
    exact hm
  | succ k ih =>
    obtain ⟨ha, hrest⟩ := reaches_succ_iff.mp h
    exact ih hrest (isRunning_iff.mp (m.steps_step.answer_eq ha).symm)

/-- A machine that a run has stopped was stopped by one of its steps. -/
theorem resume_stopped {fuel : Nat} {m : Machine} (hm : m.status = .running)
    (hs : (resume fuel m).machine.status ≠ .running) :
    ∃ k n, k < fuel ∧ Reaches k m n ∧ n.status = .running ∧
      n.step.machine = (resume fuel m).machine := by
  induction fuel generalizing m with
  | zero => exact absurd hm hs
  | succ fuel ih =>
    -- the step that stops the machine is the first one, or one of the rest
    cases ha : m.step.answer with
    | error f =>
      rw [resume_succ_of_fault fuel ha]
      exact ⟨0, m, Nat.succ_pos fuel, ⟨rfl, rfl⟩, hm, rfl⟩
    | ok b => cases b with
      | false =>
        rw [resume_succ_of_stop fuel ha]
        exact ⟨0, m, Nat.succ_pos fuel, ⟨rfl, rfl⟩, hm, rfl⟩
      | true =>
        rw [resume_succ_of_continue fuel ha] at hs ⊢
        have hrun := isRunning_iff.mp (m.steps_step.answer_eq ha).symm
        obtain ⟨k, n, hk, hreaches, hn, hstep⟩ := ih hrun hs
        exact ⟨k + 1, n, Nat.succ_lt_succ hk, reaches_succ_iff.mpr ⟨ha, hreaches⟩, hn, hstep⟩

/-- A step that stops the machine is the last of every run that comes to it. -/
theorem Reaches.resume_of_stop {k fuel : Nat} {m n : Machine} (h : Reaches k m n) (hk : k < fuel)
    (ha : n.step.answer = .ok false) : (resume fuel m).machine = n.step.machine := by
  obtain ⟨rest, rfl⟩ := Nat.exists_eq_add_of_lt hk
  rw [Nat.add_assoc, (h.resume_add (rest + 1)).2, resume_succ_of_stop rest ha]

/-- The run from `m` ends with the outcome, after `k` steps at most. -/
def EndsWith (k : Nat) (m : Machine) (o : Outcome) : Prop :=
  (resume k m).answer = some (.ok o)

/-- More fuel than the run takes makes no difference. -/
theorem EndsWith.resume_eq {j k : Nat} {m : Machine} {o : Outcome} (h : EndsWith j m o)
    (hk : j ≤ k) : resume k m = resume j m := by
  have hmore := resume_mono h (k - j)
  rwa [Nat.add_sub_cancel' hk] at hmore

/-- A run that ends within some steps ends within more. -/
theorem EndsWith.of_le {j k : Nat} {m : Machine} {o : Outcome} (h : EndsWith j m o)
    (hk : j ≤ k) : EndsWith k m o := by
  rw [EndsWith, h.resume_eq hk]
  exact h

/-- A run that ends from where some steps have led ends from where they started. -/
theorem Reaches.endsWith {j k : Nat} {m n : Machine} {o : Outcome} (h : Reaches j m n)
    (h' : EndsWith k n o) : EndsWith (j + k) m o := by
  rw [EndsWith, (h.resume_add k).1]
  exact h'

/-- A run that ends with an outcome does not fault, with whatever fuel. -/
theorem EndsWith.faultless {k : Nat} {m : Machine} {o : Outcome} (h : EndsWith k m o) (fuel : Nat)
    (f : Fault) : (resume fuel m).answer ≠ some (.error f) := by
  intro hf
  -- with the fuel of both runs together the answer would be both
  have hends : EndsWith (fuel + k) m o := h.of_le (Nat.le_add_left k fuel)
  rw [EndsWith, resume_mono hf k, hf] at hends
  cases hends

end ScriptMachine.Machine
