import Mathlib.Logic.Function.Iterate
import ScriptMachine.Proofs.Faults
import ScriptMachine.Proofs.Finality
import ScriptMachine.Proofs.Termination

/-!
# Retrying a fault

A machine that has met a fault still runs, and its host may step or run it once more. Nothing has
changed but the count of steps, so that the fault comes back; but an instruction is charged before
it is looked at, and once the budget is used up the machine is terminated instead. A frame without a
routine has no instruction to be charged: its fault comes back for ever.

* `HostCall.answerFault`: what a retry answers to which the fault comes back.
* `Machine.Flawed`: the instruction that comes next faults at whatever count of steps.
* `Flawed.history_within`, `Flawed.history_spent`: retries before and after the end of the budget.
* `fault_recurs_iff`: when all retries meet the same fault, and what they meet otherwise.
-/

namespace ScriptMachine

/-- What a call answers whose first step faults. -/
def HostCall.answerFault (fault : Fault) : HostCall → HostAnswer
  | step => .stepped (.error fault)
  | run _ => .ran (some (.error fault))
  | terminate _ => .done
  | arithmetic _ _ _ _ => .done
  | comparison _ _ _ _ => .done

namespace Machine

variable {m : Machine} {fault : Fault} {i : Instruction} {cs : List HostCall}

/-! ## Calls that end with their first step -/

/-- A call that makes steps is over with the first one if that one faults. -/
theorem handle_of_fault (ha : m.step.answer = .error fault) {c : HostCall} (hc : 0 < c.steps) :
    (m.handle c).answer = c.answerFault fault ∧ (m.handle c).machine = m.step.machine := by
  cases c with
  | step => exact ⟨congrArg HostAnswer.stepped ha, rfl⟩
  | run fuel =>
    obtain ⟨more, rfl⟩ := Nat.exists_eq_succ_of_ne_zero (Nat.ne_of_gt hc)
    have hrun := resume_succ_of_fault more ha
    exact ⟨congrArg (HostAnswer.ran ∘ Reply.answer) hrun, congrArg Reply.machine hrun⟩
  | terminate | arithmetic | comparison => cases hc

/-- A call that makes steps is over with the first one if that one stops the machine. -/
theorem handle_of_stop (ha : m.step.answer = .ok false) {o : Outcome}
    (ho : m.step.machine.StoppedWith o) {c : HostCall} (hc : 0 < c.steps) :
    (m.handle c).answer = c.answerAfter o ∧ (m.handle c).machine = m.step.machine := by
  cases c with
  | step => exact ⟨congrArg HostAnswer.stepped ha, rfl⟩
  | run fuel =>
    obtain ⟨more, rfl⟩ := Nat.exists_eq_succ_of_ne_zero (Nat.ne_of_gt hc)
    have hrun := resume_succ_of_stop more ha
    rw [ho.outcome_eq] at hrun
    exact ⟨congrArg (HostAnswer.ran ∘ Reply.answer) hrun, congrArg Reply.machine hrun⟩
  | terminate | arithmetic | comparison => cases hc

/-! ## A frame without a routine -/

/-- A frame without a routine faults in every retry, and nothing is charged for it. By induction on
the retries, each of which leaves the machine as it was. -/
theorem history_of_lost (hm : m.status = .running) {id : RoutineId} (hnext : m.next = .lost id)
    (hcs : ∀ c ∈ cs, 0 < c.steps) :
    (m.history cs).machine = m ∧
      (m.history cs).answer = cs.map (HostCall.answerFault (.unknownRoutine id)) := by
  have hstep := (Steps.lost hm hnext).eq
  induction cs with
  | nil => exact ⟨rfl, rfl⟩
  | cons c cs ih =>
    obtain ⟨hanswer, hmachine⟩ :=
      handle_of_fault (congrArg Reply.answer hstep) (hcs c List.mem_cons_self)
    rw [hstep] at hmachine
    obtain ⟨ihmachine, ihanswer⟩ := ih fun d hd => hcs d (List.mem_cons_of_mem c hd)
    rw [machine_history_cons, answer_history_cons, hanswer, hmachine]
    exact ⟨ihmachine, congrArg (_ :: ·) ihanswer⟩

/-! ## An instruction that cannot be executed -/

/-- The machine is at the instruction `i`, which faults at every count of steps that the budget
allows. -/
structure Flawed (m : Machine) (i : Instruction) (fault : Fault) : Prop where
  running : m.status = .running
  place : ∃ f r, m.AtInstruction f r i
  faults : ∀ steps, reached? m.limits.stepBudget steps = none → { m with steps }.Faults fault

/-- The reasons for a fault do not depend on the count of steps, except through the budget. -/
theorem Faults.lost_or_flawed (h : m.Faults fault) (hm : m.status = .running) :
    (∃ id, m.next = .lost id ∧ fault = .unknownRoutine id) ∨ ∃ i, m.Flawed i fault := by
  cases h with
  | lost hf hroutine => exact .inl ⟨_, next_eq_lost_iff.mpr ⟨_, hf, rfl, hroutine⟩, rfl⟩
  | @underflow f r i hat hbudget hs =>
    exact .inr ⟨i, hm, ⟨f, r, hat⟩, fun k hk => .underflow (hat.congr rfl rfl) hk hs⟩
  | @outOfBounds f r i target hat hbudget hs hop htarget =>
    exact .inr ⟨i, hm, ⟨f, r, hat⟩, fun k hk => .outOfBounds (hat.congr rfl rfl) hk hs hop htarget⟩
  | @unknownCallee f r i callee hat hbudget hop hcallee =>
    exact .inr ⟨i, hm, ⟨f, r, hat⟩, fun k hk => .unknownCallee (hat.congr rfl rfl) hk hop hcallee⟩

/-- The count of steps does not matter to what is wrong with the instruction. -/
theorem Flawed.charge (h : m.Flawed i fault) : m.charge.Flawed i fault where
  running := h.running
  place := by
    obtain ⟨f, r, hat⟩ := h.place
    exact ⟨f, r, hat.congr rfl rfl⟩
  faults := h.faults

/-- Within the budget the fault comes back, and leaves the machine as it was but for the charge. -/
theorem Flawed.step_of_room (h : m.Flawed i fault)
    (hroom : reached? m.limits.stepBudget m.steps = none) :
    m.step.answer = .error fault ∧ m.step.machine = m.charge := by
  have hanswer : m.step.answer = .error fault := (h.faults m.steps hroom).step h.running
  obtain ⟨f, r, hat⟩ := h.place
  have hperf := performs_perform (m := m.charge) h.running f r.size i
  -- a step that faults has still counted the instruction
  have hsteps : m.step.machine.steps = m.charge.steps := by
    rw [(Steps.executed h.running hat.next hroom hperf).eq]
    show (continues _).machine.steps = m.charge.steps
    rw [machine_continues, hperf.unchanged.2.2]
  have hkept := (m.steps_step.faults hanswer).1
  rw [hsteps] at hkept
  exact ⟨hanswer, hkept⟩

/-- With no budget left, the machine is terminated before the instruction is looked at. -/
theorem Flawed.step_of_spent (h : m.Flawed i fault) {budget : Nat}
    (hspent : reached? m.limits.stepBudget m.steps = some budget) :
    m.step.answer = .ok false ∧
      m.step.machine = { m with status := .terminated (.stepBudgetExceeded i.span budget) } := by
  obtain ⟨f, r, hat⟩ := h.place
  rw [(Steps.refused h.running hat.next hspent).eq]
  exact ⟨rfl, rfl⟩

/-- It is the budget that is checked first. -/
theorem Flawed.room_of_fault (h : m.Flawed i fault) (hfault : m.step.answer = .error fault) :
    reached? m.limits.stepBudget m.steps = none := by
  cases hr : reached? m.limits.stepBudget m.steps with
  | none => rfl
  | some budget =>
    rw [(h.step_of_spent hr).1] at hfault
    cases hfault

/-- As long as the budget lasts, every retry meets the fault and is charged. -/
theorem Flawed.history_within (h : m.Flawed i fault) (hcs : ∀ c ∈ cs, 0 < c.steps)
    (hroom : ∀ budget, m.limits.stepBudget = some budget → m.steps + cs.length ≤ budget) :
    (m.history cs).answer = cs.map (HostCall.answerFault fault) ∧
      (m.history cs).machine = Machine.charge^[cs.length] m := by
  induction cs generalizing m with
  | nil => exact ⟨rfl, rfl⟩
  | cons c cs ih =>
    have hlt : reached? m.limits.stepBudget m.steps = none := by
      refine reached?_eq_none_iff.mpr fun budget hbudget => ?_
      have hle : m.steps + (cs.length + 1) ≤ budget := hroom budget hbudget
      omega
    have hrest : ∀ budget, m.charge.limits.stepBudget = some budget →
        m.charge.steps + cs.length ≤ budget := by
      intro budget hbudget
      have hle : m.steps + (cs.length + 1) ≤ budget := hroom budget hbudget
      have hcharge := charge_steps_le m
      omega
    obtain ⟨hfault, hcharge⟩ := h.step_of_room hlt
    obtain ⟨hanswer, hmachine⟩ := handle_of_fault hfault (hcs c List.mem_cons_self)
    -- by induction on the retries: one is charged, and the budget has room for the others
    obtain ⟨ihanswer, ihmachine⟩ :=
      ih h.charge (fun d hd => hcs d (List.mem_cons_of_mem c hd)) hrest
    rw [machine_history_cons, answer_history_cons, hanswer, hmachine, hcharge]
    exact ⟨congrArg (_ :: ·) ihanswer, ihmachine⟩

/-- Once the budget is used up, the next retry terminates the machine and the others find it so. -/
theorem Flawed.history_spent (h : m.Flawed i fault) (hcs : ∀ c ∈ cs, 0 < c.steps) {budget : Nat}
    (hspent : reached? m.limits.stepBudget m.steps = some budget) (hne : cs ≠ []) :
    (m.history cs).answer =
        cs.map (HostCall.answerAfter (.terminated (.stepBudgetExceeded i.span budget))) ∧
      (m.history cs).machine =
        { m with status := .terminated (.stepBudgetExceeded i.span budget) } := by
  cases cs with
  | nil => exact absurd rfl hne
  | cons c cs =>
    obtain ⟨hstop, hterminated⟩ := h.step_of_spent hspent
    -- the first retry stops the machine, and the others find it stopped
    have ho : m.step.machine.StoppedWith (.terminated (.stepBudgetExceeded i.span budget)) := by
      rw [hterminated]
      exact .terminated rfl
    obtain ⟨hanswer, hmachine⟩ := handle_of_stop hstop ho (hcs c List.mem_cons_self)
    obtain ⟨hrest, hanswers⟩ := history_of_stopped ho cs
    rw [machine_history_cons, answer_history_cons, hanswer, hmachine, hrest, hanswers, hterminated]
    exact ⟨rfl, rfl⟩

/-! ## Retries and the budget -/

/-- Charges up to the greatest count add up. -/
theorem iterate_charge {k : Nat} (h : m.steps + k ≤ maxSteps) :
    charge^[k] m = { m with steps := m.steps + k } := by
  induction k generalizing m with
  | zero => rfl
  | succ k ih =>
    have hcharge := steps_charge_of_lt (m := m) (by omega)
    rw [Function.iterate_succ_apply, ih (by omega), hcharge, Nat.add_assoc, Nat.add_comm 1]
    rfl

/-- Charges change the count of steps and nothing else. -/
theorem exists_iterate_charge (k : Nat) (m : Machine) :
    ∃ steps, charge^[k] m = { m with steps } := by
  induction k generalizing m with
  | zero => exact ⟨m.steps, rfl⟩
  | succ k ih => exact ih m.charge

/-- Whatever is charged, the instruction stays as it is. -/
theorem Flawed.iterate_charge (h : m.Flawed i fault) (k : Nat) :
    (Machine.charge^[k] m).Flawed i fault := by
  induction k generalizing m with
  | zero => exact h
  | succ k ih => exact ih h.charge

/-- Retries meet the fault for what is left of the budget, and then the end of the budget. -/
theorem Flawed.history_beyond (h : m.Flawed i fault) (hcs : ∀ c ∈ cs, 0 < c.steps) {budget : Nat}
    (hlimit : m.limits.stepBudget = some budget) (hmax : budget ≤ maxSteps)
    (hle : m.steps ≤ budget) (hlt : budget < m.steps + cs.length) :
    (m.history cs).answer = (cs.take (budget - m.steps)).map (HostCall.answerFault fault) ++
        (cs.drop (budget - m.steps)).map
          (HostCall.answerAfter (.terminated (.stepBudgetExceeded i.span budget))) ∧
      (m.history cs).machine = { m with
        status := .terminated (.stepBudgetExceeded i.span budget), steps := budget } := by
  have hlength : (cs.take (budget - m.steps)).length = budget - m.steps := by
    rw [List.length_take]
    omega
  have hne : cs.drop (budget - m.steps) ≠ [] := by
    rw [Ne, List.drop_eq_nil_iff]
    omega
  -- the first retries use the budget up
  have hroom : ∀ b, m.limits.stepBudget = some b →
      m.steps + (cs.take (budget - m.steps)).length ≤ b := by
    intro b hb
    rw [hlimit] at hb
    cases hb
    rw [hlength]
    omega
  obtain ⟨hanswer, hmachine⟩ := h.history_within (fun c hc => hcs c (List.mem_of_mem_take hc)) hroom
  rw [hlength, Machine.iterate_charge (by omega), Nat.add_sub_cancel' hle] at hmachine
  -- the others find it used up
  have hflawed : ({ m with steps := budget } : Machine).Flawed i fault := by
    have hcharged := h.iterate_charge (budget - m.steps)
    rwa [Machine.iterate_charge (by omega), Nat.add_sub_cancel' hle] at hcharged
  have hspent : reached? m.limits.stepBudget budget = some budget :=
    reached?_eq_some_iff.mpr ⟨hlimit, Nat.le_refl budget⟩
  obtain ⟨hanswer', hmachine'⟩ :=
    hflawed.history_spent (fun c hc => hcs c (List.mem_of_mem_drop hc)) hspent hne
  rw [← hmachine] at hanswer' hmachine'
  have happend := List.take_append_drop (budget - m.steps) cs
  rw [← machine_history_append, happend] at hmachine'
  have hanswers := answer_history_append (cs.take (budget - m.steps)) (cs.drop (budget - m.steps)) m
  rw [happend, hanswer, hanswer'] at hanswers
  refine ⟨hanswers, hmachine'.trans ?_⟩
  rw [hmachine]

/-- After a fault, retries leave the stacks alone. All of them meet the same fault, on a machine
that still runs, exactly if what is missing is the routine of the frame on top, or the step budget
has room for as many instructions more; otherwise the retries after the end of the budget find the
machine terminated for the budget, at the instruction that faulted. The budget is one that the count
of steps can reach. -/
theorem fault_recurs_iff (hfault : m.step.answer = .error fault)
    (hmax : ∀ budget, m.limits.stepBudget = some budget → budget ≤ maxSteps)
    {retries : List HostCall} (hretries : ∀ c ∈ retries, 0 < c.steps) :
    let n := m.step.machine
    let last := n.history retries
    last.machine.stack = m.stack ∧ last.machine.frames = m.frames ∧
    (last.answer = retries.map (HostCall.answerFault fault) ∧ last.machine.status = .running ↔
      (∃ id, m.next = .lost id) ∨
        ∀ budget, m.limits.stepBudget = some budget → n.steps + retries.length ≤ budget) ∧
    (last.machine.status = .running ∨ ∃ f r i budget, m.AtInstruction f r i ∧
      m.limits.stepBudget = some budget ∧
      last.machine.status = .terminated (.stepBudgetExceeded i.span budget) ∧
      last.answer =
        (retries.take (budget - n.steps)).map (HostCall.answerFault fault) ++
        (retries.drop (budget - n.steps)).map
          (HostCall.answerAfter (.terminated (.stepBudgetExceeded i.span budget)))) := by
  intro n last
  have hm : m.status = .running := m.steps_step.running_of_error hfault
  -- a missing routine costs nothing; any other fault costs an instruction
  rcases ((step_error_iff hm).mp hfault).lost_or_flawed hm with ⟨id, hnext, rfl⟩ | ⟨i, hflawed⟩
  · have hn : n = m := congrArg Reply.machine (Steps.lost hm hnext).eq
    obtain ⟨hmachine, hanswer⟩ := history_of_lost hm hnext hretries
    rw [← hn] at hmachine hanswer
    have hlast : last.machine = m := hmachine.trans hn
    rw [hlast]
    exact ⟨rfl, rfl, ⟨fun _ => .inl ⟨id, hnext⟩, fun _ => ⟨hanswer, hm⟩⟩, .inl hm⟩
  · have hroom := hflawed.room_of_fault hfault
    have hn : n = m.charge := (hflawed.step_of_room hroom).2
    have hcharged : n.Flawed i fault := hn ▸ hflawed.charge
    have hlimits : n.limits = m.limits := m.steps_step.unchanged.2
    -- either the budget has room for all retries, or some of them come too late
    by_cases hwithin : ∀ budget, m.limits.stepBudget = some budget →
        n.steps + retries.length ≤ budget
    · obtain ⟨hanswer, hmachine⟩ := hcharged.history_within hretries (hlimits ▸ hwithin)
      obtain ⟨k, hk⟩ := exists_iterate_charge retries.length n
      have hlast : last.machine = { m with steps := k } := by
        rw [hmachine, hk, hn]
        rfl
      rw [hlast]
      exact ⟨rfl, rfl, ⟨fun _ => .inr hwithin, fun _ => ⟨hanswer, hm⟩⟩, .inl hm⟩
    · obtain ⟨f, r, hat⟩ := hflawed.place
      simp only [not_forall, Nat.not_le] at hwithin
      obtain ⟨budget, hlimit, hlt⟩ := hwithin
      have hle : n.steps ≤ budget := by
        rw [hn]
        exact Nat.le_trans (charge_steps_le m) (lt_of_reached?_eq_none hroom hlimit)
      obtain ⟨hanswer, hmachine⟩ :=
        hcharged.history_beyond hretries (hlimits ▸ hlimit) (hmax budget hlimit) hle hlt
      have hlast : last.machine = { m with
          status := .terminated (.stepBudgetExceeded i.span budget), steps := budget } := by
        rw [hmachine, hn]
        rfl
      rw [hlast]
      refine ⟨rfl, rfl, ⟨fun h => ?_, fun h => ?_⟩,
        .inr ⟨f, r, i, budget, hat, hlimit, rfl, hanswer⟩⟩
      · cases h.2
      · -- neither of the two reasons for which the fault would come back
        rcases h with ⟨id, hnext⟩ | hwithin
        · rw [hat.next] at hnext
          cases hnext
        · exact absurd (hwithin budget hlimit) (Nat.not_le_of_lt hlt)

/-- A machine at an instruction that discards a value, of which there is none, under a budget. -/
def underflowing (budget : Nat) : Machine :=
  start (.single [⟨.pop, ⟨3, 7⟩⟩]) ⟨none, some budget, none⟩

/-- With a budget of two instructions the first retry meets the fault again, and the second one the
end of the budget. -/
theorem fault_recurs_iff_once :
    ((underflowing 2).step.answer = .error (.stackUnderflow .entry 0) ∧ 2 ≤ maxSteps ∧
        ∀ c ∈ [HostCall.step, .run 5], 0 < c.steps) ∧
      ((underflowing 2).step.machine.history [.step]).answer =
        [.stepped (.error (.stackUnderflow .entry 0))] ∧
      ((underflowing 2).step.machine.history [.step]).machine.status = .running ∧
      ((underflowing 2).step.machine.history [.step, .run 5]).answer =
        [.stepped (.error (.stackUnderflow .entry 0)),
          .ran (some (.ok (.terminated (.stepBudgetExceeded ⟨3, 7⟩ 2))))] := by
  have hfault : (underflowing 2).step.answer = .error (.stackUnderflow .entry 0) := rfl
  have hmax : ∀ budget, (underflowing 2).limits.stepBudget = some budget → budget ≤ maxSteps := by
    rintro budget ⟨⟩
    decide
  have hretries : ∀ c ∈ [HostCall.step, .run 5], 0 < c.steps := by decide
  have hsteps : (underflowing 2).step.machine.steps = 1 := rfl
  have hroom : ∀ budget, (underflowing 2).limits.stepBudget = some budget →
      (underflowing 2).step.machine.steps + 1 ≤ budget := by
    rintro budget ⟨⟩
    omega
  have hterminated : ((underflowing 2).step.machine.history
      [.step, .run 5]).machine.status ≠ .running := nofun
  have hat : (underflowing 2).AtInstruction ⟨.entry, 0⟩ ⟨"main", #[⟨.pop, ⟨3, 7⟩⟩]⟩
      ⟨.pop, ⟨3, 7⟩⟩ := ⟨rfl, rfl, rfl⟩
  have hretry : ∀ c ∈ [HostCall.step], 0 < c.steps := by decide
  -- the budget has room for one retry, and the second one finds it used up
  obtain ⟨-, -, honce, -⟩ := fault_recurs_iff hfault hmax hretry
  obtain ⟨-, -, -, htwice⟩ := fault_recurs_iff hfault hmax hretries
  obtain ⟨hanswer, hstatus⟩ := honce.mpr (.inr hroom)
  refine ⟨⟨hfault, by decide, hretries⟩, hanswer, hstatus, ?_⟩
  rcases htwice with hrunning | ⟨f, r, i, budget, hat', hlimit, -, hanswers⟩
  · exact absurd hrunning hterminated
  · cases hlimit
    obtain ⟨-, rfl⟩ := hat.unique hat'
    rw [hsteps] at hanswers
    exact hanswers

/-- With a budget of one instruction the retry of a fault terminates the machine. -/
theorem retry_exceeds_budget :
    (underflowing 1).step.answer = .error (.stackUnderflow .entry 0) ∧
      (underflowing 1).step.machine.status = .running ∧
      (underflowing 1).step.machine.step.answer = .ok false ∧
      (underflowing 1).step.machine.step.machine.status =
        .terminated (.stepBudgetExceeded ⟨3, 7⟩ 1) :=
  ⟨rfl, rfl, rfl, rfl⟩

end Machine

end ScriptMachine
