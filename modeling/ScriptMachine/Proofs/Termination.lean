import ScriptMachine.Proofs.Frames
import ScriptMachine.Proofs.Runs

/-!
# Runs that end

A run ends if some potential of the machine drops with every step after which it goes on. Under a
step budget there is one: twice the instructions that are left, and the frames. An instruction uses
up one of the budget and adds one frame at most; leaving a routine at its end is not charged, but
takes a frame away. So the run ends whatever loops and calls the program has.

* `StopsWithin`: one of the next steps ends the run.
* `stopsWithin_of_potential`: from steps that lower a potential to the end of the run.
* `potential`, `Steps.potential_lt`: the potential of a machine under a step budget.
* `run_ends_within_budget`: a run under a step budget ends, after how many steps at most.
-/

namespace ScriptMachine.Machine

variable {m : Machine}

/-! ## The end of a run -/

/-- One of the next `k` steps ends the run: it says that no other may follow, or it faults. -/
def StopsWithin (k : Nat) (m : Machine) : Prop :=
  ∃ j n, j < k ∧ Reaches j m n ∧ (n.step.answer = .ok false ∨ ∃ f, n.step.answer = .error f)

/-- A run that ends within some steps ends within more. -/
theorem StopsWithin.of_le {j k : Nat} (h : StopsWithin j m) (hk : j ≤ k) : StopsWithin k m := by
  obtain ⟨i, n, hi, hreaches, hend⟩ := h
  exact ⟨i, n, Nat.lt_of_lt_of_le hi hk, hreaches, hend⟩

/-- A step that goes on adds one to the steps within which the run ends. -/
theorem StopsWithin.of_step {k : Nat} (ha : m.step.answer = .ok true)
    (h : StopsWithin k m.step.machine) : StopsWithin (k + 1) m := by
  obtain ⟨j, n, hj, hreaches, hend⟩ := h
  exact ⟨j + 1, n, Nat.succ_lt_succ hj, reaches_succ_iff.mpr ⟨ha, hreaches⟩, hend⟩

/-- A step that stops or faults is the end of the run. -/
theorem stopsWithin_one (h : m.step.answer = .ok false ∨ ∃ f, m.step.answer = .error f) :
    StopsWithin 1 m :=
  ⟨0, m, Nat.one_pos, ⟨rfl, rfl⟩, h⟩

/-- A run that ends within its fuel has an answer. -/
theorem StopsWithin.answer {k : Nat} (h : StopsWithin k m) :
    ∃ a, (resume k m).answer = some a := by
  obtain ⟨j, n, hj, hreaches, hend⟩ := h
  -- the steps up to the last one take a part of the fuel, and one more is left
  obtain ⟨rest, rfl⟩ := Nat.exists_eq_add_of_lt hj
  rw [Nat.add_assoc, (hreaches.resume_add (rest + 1)).1]
  rcases hend with hstop | ⟨f, hfault⟩
  · rw [resume_succ_of_stop rest hstop]
    exact ⟨_, rfl⟩
  · rw [resume_succ_of_fault rest hfault]
    exact ⟨_, rfl⟩

/-- With a potential that is lowered by every step after which the run goes on, the run ends. -/
theorem stopsWithin_of_potential {P : Machine → Prop} {φ : Machine → Nat}
    (hstep : ∀ m, P m → m.step.answer = .ok true → P m.step.machine ∧ φ m.step.machine < φ m)
    (h : P m) : StopsWithin (φ m + 1) m := by
  -- by strong induction on the potential, since a step may lower it by more than one
  induction hφ : φ m using Nat.strongRecOn generalizing m with
  | ind k ih =>
    subst hφ
    cases ha : m.step.answer with
    | error f => exact (stopsWithin_one (.inr ⟨f, ha⟩)).of_le (Nat.le_add_left 1 _)
    | ok b => cases b with
      | false => exact (stopsWithin_one (.inl ha)).of_le (Nat.le_add_left 1 _)
      | true =>
        obtain ⟨hnext, hlt⟩ := hstep m h ha
        exact ((ih _ hlt hnext rfl).of_step ha).of_le (Nat.succ_le_succ hlt)

/-! ## Under a step budget -/

/-- Twice the instructions that the budget leaves, and the frames. -/
def potential (budget : Nat) (m : Machine) : Nat :=
  2 * (budget - m.steps) + m.frames.size

theorem steps_charge_of_lt (h : m.steps < maxSteps) : m.charge.steps = m.steps + 1 := by
  rw [charge, if_pos h]

/-- Each step after which the run goes on lowers the potential. -/
theorem Steps.potential_lt {budget : Nat} {r : Reply (Except Fault Bool)} (h : m.Steps r)
    (hlimit : m.limits.stepBudget = some budget) (hmax : budget ≤ maxSteps)
    (ha : r.answer = .ok true) : r.machine.potential budget < m.potential budget := by
  cases h with
  | stopped | completed | lost | refused => cases ha
  | leftAtEnd hm hnext =>
    obtain ⟨rest, hrest⟩ := Stack.top?_eq_some_iff.mp (next_eq_leave_iff.mp hnext).1
    show 2 * (budget - m.steps) + m.frames.pop.size < 2 * (budget - m.steps) + m.frames.size
    rw [hrest, Stack.pop_push, Stack.size_push]
    exact Nat.lt_succ_self _
  | @executed f n i reply hm hnext hbudget hperf =>
    obtain ⟨r, rfl, hat⟩ := atInstruction_of_next hnext
    have hlt : m.steps < budget := reached?_eq_none_iff.mp hbudget budget hlimit
    -- below the budget, and so below the greatest count, the charge is not cut off
    have hsteps : reply.machine.steps = m.steps + 1 := by
      rw [hperf.unchanged.2.2, steps_charge_of_lt (Nat.lt_of_lt_of_le hlt hmax)]
    have hframes : reply.machine.frames.size ≤ m.frames.size + 1 :=
      (hperf.frameChange hat).size_le
    show (continues reply).machine.potential budget < m.potential budget
    rw [machine_continues, potential, potential, hsteps]
    -- a call gains a frame, for which it has used up an instruction, which counts twice
    omega

/-- Under a step budget the potential bounds the steps of a run. -/
theorem stopsWithin_potential {budget : Nat} (hlimit : m.limits.stepBudget = some budget)
    (hmax : budget ≤ maxSteps) : StopsWithin (m.potential budget + 1) m := by
  refine stopsWithin_of_potential (P := fun n => n.limits.stepBudget = some budget)
    (fun n hn ha => ⟨?_, n.steps_step.potential_lt hn hmax ha⟩) hlimit
  rw [n.steps_step.unchanged.2]
  exact hn

/-- More fuel than a run takes changes nothing. -/
theorem run_eq_of_stopsWithin {k fuel : Nat} (h : StopsWithin k m) (hk : k ≤ fuel) :
    run fuel m = run k m ∧ ∃ a, (run fuel m).answer = some a := by
  obtain ⟨a, ha⟩ := h.answer
  have hmore := resume_mono ha (fuel - k)
  rw [Nat.add_sub_cancel' hk] at hmore
  rw [run, hmore]
  exact ⟨rfl, a, ha⟩

/-- Under a step budget a run ends, from whatever state: one of its next steps is the last, and
there are no more of them than frames and twice the instructions that are left, and one. So a run
from the start has its outcome or its fault after two steps for each instruction of the budget and
two more, and no more fuel changes that. The budget is one that the count of steps can reach. -/
theorem run_ends_within_budget {budget : Nat} (hmax : budget ≤ maxSteps) :
    (∀ m : Machine, m.limits.stepBudget = some budget →
      ∃ k n, k < 2 * (budget - m.steps) + m.frames.size + 1 ∧ Reaches k m n ∧
        (n.step.answer = .ok false ∨ ∃ f, n.step.answer = .error f)) ∧
    ∀ p l, l.stepBudget = some budget → ∀ fuel, 2 * budget + 2 ≤ fuel →
      run fuel (start p l) = run (2 * budget + 2) (start p l) ∧
        ∃ a, (run fuel (start p l)).answer = some a := by
  refine ⟨fun m hlimit => stopsWithin_potential hlimit hmax, fun p l hlimit fuel hfuel => ?_⟩
  have hstart : StopsWithin (2 * budget + 2) (start p l) :=
    stopsWithin_potential (m := start p l) hlimit hmax
  exact run_eq_of_stopsWithin hstart hfuel

/-- Call a routine without instructions. -/
def callsEmpty : Program :=
  .ofList [⟨"main", #[.synthetic (.call ⟨1⟩)]⟩, ⟨"empty", #[]⟩]

/-- With a budget of one instruction no fewer steps are enough: the call, the end of either routine,
and the completion. -/
theorem run_ends_within_budget_tight :
    let m := start callsEmpty ⟨none, some 1, none⟩
    (1 ≤ maxSteps ∧ m.limits.stepBudget = some 1 ∧
        ∃ k n, k < 4 ∧ Reaches k m n ∧
          (n.step.answer = .ok false ∨ ∃ f, n.step.answer = .error f)) ∧
      (run 3 m).answer = none ∧ ∃ a, (run 4 m).answer = some a := by
  have hmax : 1 ≤ maxSteps := by decide
  have hthree : (run 3 (start callsEmpty ⟨none, some 1, none⟩)).answer = none := rfl
  obtain ⟨hsteps, hrun⟩ := run_ends_within_budget hmax
  intro m
  exact ⟨⟨hmax, rfl, hsteps m rfl⟩, hthree, (hrun callsEmpty _ rfl 4 (Nat.le_refl 4)).2⟩

end ScriptMachine.Machine
