import ScriptMachine.Proofs.Frames
import ScriptMachine.Proofs.Histories

/-!
# A callee leaves its callers alone

A call moves the frame of its caller behind itself before it enters the callee. From then on a step
or an operator works on the frame on top: as long as there are more frames than at the call, those
of the callers stay as the call left them, and when there are no more, they are all that is left.

* `Stack.StandsOn`: a stack that has others entries on top of a base.
* `FrameChange.standsOn`, `standsOn_handle`: whatever a step or a call does, the base stays.
* `callee_leaves_callers`: the frames below a callee, until it is left and when it is left.
-/

namespace ScriptMachine

/-! ## Stacks on a base -/

namespace Stack

variable {α : Type} {s base : Stack α}

/-- The entries of the base are those at the bottom, and there are others on top of them. -/
def StandsOn (s base : Stack α) : Prop :=
  ∃ (upper : Stack α) (a : α), s = (upper.push a).onTopOf base

/-- Below the top there is the base alone, or the base with others on top of it. -/
theorem standsOn_push_iff {a : α} : (s.push a).StandsOn base ↔ s = base ∨ s.StandsOn base := by
  constructor
  · rintro ⟨upper, b, h⟩
    rw [push_onTopOf, push_inj] at h
    rcases upper.eq_empty_or_push with rfl | ⟨upper, c, rfl⟩
    · rw [empty_onTopOf] at h
      exact .inl h.1
    · exact .inr ⟨upper, c, h.1⟩
  · rintro (rfl | ⟨upper, b, rfl⟩)
    · exact ⟨empty, a, by rw [push_onTopOf, empty_onTopOf]⟩
    · exact ⟨upper.push b, a, by rw [push_onTopOf (upper.push b)]⟩

/-- What is done to the top of a stack does not reach its base. -/
theorem StandsOn.modifyTop (h : s.StandsOn base) (f : α → α) : (s.modifyTop f).StandsOn base := by
  obtain ⟨upper, a, rfl⟩ := h
  exact ⟨upper, f a, by rw [push_onTopOf, modifyTop_push, push_onTopOf]⟩

/-- There is something on top of the base. -/
theorem StandsOn.size_lt (h : s.StandsOn base) : base.size < s.size := by
  obtain ⟨upper, a, rfl⟩ := h
  rw [size_onTopOf, size_push]
  exact Nat.lt_add_of_pos_right (Nat.succ_pos _)

/-- The entries at the bottom are those of the base. -/
theorem StandsOn.take_toList (h : s.StandsOn base) : s.toList.take base.size = base.toList := by
  obtain ⟨upper, a, rfl⟩ := h
  rw [toList_onTopOf, ← length_toList, List.take_left]

end Stack

namespace Machine

variable {m : Machine} {base : Stack Frame}

/-! ## Steps and calls -/

/-- A step works on the frame on top, and so leaves the frames below it as they are, or uncovers
them. -/
theorem FrameChange.standsOn {frames : Stack Frame} (h : m.FrameChange frames)
    (hm : m.frames.StandsOn base) : frames = base ∨ frames.StandsOn base := by
  cases h with
  | kept hframes =>
    rw [hframes]
    exact .inr hm
  | left hrest hframes =>
    rw [hrest] at hm
    rw [hframes]
    exact Stack.standsOn_push_iff.mp hm
  | moved hrest hat hc hle hframes =>
    rw [hrest, Stack.standsOn_push_iff] at hm
    rw [hframes]
    exact .inr (Stack.standsOn_push_iff.mpr hm)
  | @called rest f r q i callee hrest hat hop hcallee hframes =>
    rw [hrest, Stack.standsOn_push_iff] at hm
    rw [hframes]
    -- the caller has moved on, and is one of the frames on the base, or on top of it
    have hcaller : (rest.push f.advance).StandsOn base := Stack.standsOn_push_iff.mpr hm
    exact .inr (Stack.standsOn_push_iff.mpr (.inr hcaller))

/-- A value moves the frame on top to its next instruction, unless the stack is full. -/
theorem frames_pushAndAdvance (m : Machine) (v : Value) (span : Span) :
    (m.pushAndAdvance v span).machine.frames = m.frames ∨
      (m.pushAndAdvance v span).machine.frames = m.frames.modifyTop Frame.advance := by
  cases hr : reached? m.limits.evaluationStack m.stack.size with
  | none =>
    rw [pushAndAdvance_of_room hr]
    exact .inr rfl
  | some limit =>
    rw [pushAndAdvance_of_full hr]
    exact .inl (terminate_frames m _)

/-- A call that is no run takes one step at most, or moves the frame on top to its next
instruction. -/
theorem frames_handle (m : Machine) {c : HostCall} (hc : ∀ fuel, c ≠ .run fuel) :
    m.FrameChange (m.handle c).machine.frames ∨
      (m.handle c).machine.frames = m.frames.modifyTop Frame.advance := by
  by_cases hm : m.status = .running
  · rcases c.kinds with hadvances | ⟨d, rfl⟩ | ⟨result, span, hresult⟩
    · cases c with
      | step => exact .inl m.steps_step.frameChange
      | run fuel => exact absurd rfl (hc fuel)
      | terminate | arithmetic | comparison => cases hadvances
    · exact .inl (.kept (terminate_frames m d))
    · cases result with
      | ok v =>
        rw [machine_handle_of_ok hm hresult]
        exact (frames_pushAndAdvance m v span).imp_left .kept
      | error d =>
        rw [machine_handle_of_error hm hresult]
        exact .inl (.kept (terminate_frames m d))
  · rw [machine_handle_of_stopped hm]
    exact .inl (.kept rfl)

/-- A step or an operator keeps the base, and uncovers it at most. -/
theorem standsOn_handle (hm : m.frames.StandsOn base) {c : HostCall} (hc : ∀ fuel, c ≠ .run fuel) :
    (m.handle c).machine.frames = base ∨ (m.handle c).machine.frames.StandsOn base := by
  rcases m.frames_handle hc with hchange | hadvance
  · exact hchange.standsOn hm
  · rw [hadvance]
    exact .inr (hm.modifyTop Frame.advance)

/-! ## Histories -/

/-- Before the first call of the history and after each there are more than `depth` frames. -/
def StaysAbove (depth : Nat) : List HostCall → Machine → Prop
  | [], m => depth < m.frames.size
  | c :: cs, m => depth < m.frames.size ∧ StaysAbove depth cs (m.handle c).machine

instance decidableStaysAbove (depth : Nat) :
    (cs : List HostCall) → (m : Machine) → Decidable (StaysAbove depth cs m)
  | [], m => inferInstanceAs (Decidable (depth < m.frames.size))
  | c :: cs, m =>
    have : Decidable (StaysAbove depth cs (m.handle c).machine) := decidableStaysAbove depth cs _
    inferInstanceAs (Decidable (_ ∧ _))

/-- The condition holds before the first call as well. -/
theorem StaysAbove.lt_size {depth : Nat} {cs : List HostCall} (h : StaysAbove depth cs m) :
    depth < m.frames.size := by
  cases cs with
  | nil => exact h
  | cons c cs => exact h.1

/-- As long as there are more frames than those of the base, it stays. -/
theorem standsOn_history (hm : m.frames.StandsOn base) {cs : List HostCall}
    (hcs : ∀ c ∈ cs, ∀ fuel, c ≠ .run fuel) (hdepth : StaysAbove base.size cs m) :
    (m.history cs).machine.frames.StandsOn base := by
  induction cs generalizing m with
  | nil => exact hm
  | cons c cs ih =>
    rw [machine_history_cons]
    rcases standsOn_handle hm (hcs c List.mem_cons_self) with hbase | hstands
    · -- the base alone would be too few frames
      have hlt := hdepth.2.lt_size
      rw [hbase] at hlt
      exact absurd hlt (Nat.lt_irrefl _)
    · exact ih hstands (fun d hd => hcs d (List.mem_cons_of_mem c hd)) hdepth.2

/-- A call after which the run goes on has put the frame of the callee on those of the callers. -/
theorem Steps.frames_of_call {reply : Reply (Except Fault Bool)} (h : m.Steps reply)
    (hcall : reply.answer = .ok true) {f : Frame} {r : Routine} {i : Instruction}
    {callee : RoutineId} (hat : m.AtInstruction f r i) (hop : i.operation = .call callee) :
    reply.machine.frames = (m.frames.modifyTop Frame.advance).push (.start callee) := by
  cases h with
  | stopped | completed | lost | refused => cases hcall
  | leftAtEnd hm hnext =>
    rw [hat.next] at hnext
    cases hnext
  | executed hm hnext hbudget hperf =>
    rw [hat.next] at hnext
    cases hnext
    show (continues _).machine.frames = _
    rw [machine_continues]
    cases hperf with
    | underflow | outOfBounds | unknownCallee | overflow | failed | tooDeep => cases hcall
    | put hputs =>
      -- a call has no successor in its own routine
      obtain ⟨c, hc, -⟩ := hputs.advance_mem f
      rw [hop] at hc
      cases hc
    | moved hmoves =>
      obtain ⟨c, hc, -⟩ := hmoves.move_mem f
      rw [hop] at hc
      cases hc
    | called hop' =>
      cases hop.symm.trans hop'
      rfl
    | left hop' => cases hop.symm.trans hop'

/-- A call that succeeds leaves the frames of the callers, the caller's own behind the call, to wait
for the callee. As long as there are more frames than at the call, whatever steps and operators
come, those are the frames at the bottom; and after the call of the host with which the callee is
left they are all there are. -/
theorem callee_leaves_callers {rest : Stack Frame} {f : Frame} {r : Routine} {i : Instruction}
    {callee : RoutineId} (hframes : m.frames = rest.push f) (hat : m.AtInstruction f r i)
    (hop : i.operation = .call callee) (hcall : m.step.answer = .ok true) :
    let entered := m.step.machine
    let callers := rest.push { f with counter := f.counter + 1 }
    entered.frames = callers.push (.start callee) ∧
    ∀ cs, (∀ c ∈ cs, ∀ fuel, c ≠ .run fuel) → StaysAbove m.frames.size cs entered →
      (entered.history cs).machine.frames.toList.take m.frames.size = callers.toList ∧
      ∀ c, (∀ fuel, c ≠ .run fuel) →
        (entered.history (cs ++ [c])).machine.frames.size ≤ m.frames.size →
          (entered.history (cs ++ [c])).machine.frames = callers := by
  intro entered callers
  have hsize : callers.size = m.frames.size := by
    rw [hframes, Stack.size_push, Stack.size_push]
  have hentered : entered.frames = callers.push (.start callee) := by
    rw [m.steps_step.frames_of_call hcall hat hop, hframes, Stack.modifyTop_push]
    rfl
  -- the frames of the callers are the base, with the callee's on top
  have hstart : entered.frames.StandsOn callers := by
    rw [hentered]
    exact Stack.standsOn_push_iff.mpr (.inl rfl)
  rw [← hsize]
  refine ⟨hentered, fun cs hcs hdepth => ?_⟩
  have hstands := standsOn_history hstart hcs hdepth
  refine ⟨hstands.take_toList, fun c hc hleft => ?_⟩
  rw [machine_history_append] at hleft ⊢
  rcases standsOn_handle hstands hc with hbase | habove
  · exact hbase
  · exact absurd hleft (Nat.not_le_of_lt habove.size_lt)

/-- Call a routine that calls an empty one and then leaves. -/
def nestedCalls : Program :=
  .ofList
    [⟨"main", #[.synthetic (.call ⟨1⟩)]⟩,
      ⟨"outer", #[.synthetic (.call ⟨2⟩), .synthetic .leave]⟩,
      ⟨"inner", #[]⟩]

/-- From the entry of the outer routine to its end, with a comparison of the host on the way. -/
def throughNested : List HostCall :=
  [.step, .comparison (.array []) .eq (.array []) .synthetic, .step]

/-- A comparison of the host, in the routine that is called last, moves no frame but its own; and
when both callees are left the entry routine is behind its call. -/
theorem callee_leaves_callers_nested :
    let m := start nestedCalls .unbounded
    let entered := m.step.machine
    let callers := Stack.empty.push ⟨.entry, 1⟩
    (m.frames = Stack.empty.push ⟨.entry, 0⟩ ∧ m.step.answer = .ok true ∧
        (∀ c ∈ throughNested ++ [.step], ∀ fuel, c ≠ .run fuel) ∧
        StaysAbove 1 throughNested entered ∧
        (entered.history (throughNested ++ [.step])).machine.frames.size ≤ 1) ∧
      (entered.history throughNested).machine.frames.toList.take 1 = callers.toList ∧
      (entered.history (throughNested ++ [.step])).machine.frames = callers := by
  have hat : (start nestedCalls .unbounded).AtInstruction ⟨.entry, 0⟩
      ⟨"main", #[.synthetic (.call ⟨1⟩)]⟩ (.synthetic (.call ⟨1⟩)) := ⟨rfl, rfl, rfl⟩
  have hcall : (start nestedCalls .unbounded).step.answer = .ok true := rfl
  have hcalls : ∀ c ∈ throughNested ++ [.step], ∀ fuel, c ≠ .run fuel := by
    simp [throughNested]
  have hdepth : StaysAbove 1 throughNested (start nestedCalls .unbounded).step.machine := by
    decide
  have hleft : ((start nestedCalls .unbounded).step.machine.history
      (throughNested ++ [.step])).machine.frames.size ≤ 1 := by
    decide
  obtain ⟨-, hcallers⟩ := callee_leaves_callers (Stack.push_inj.mpr ⟨rfl, rfl⟩) hat rfl hcall
  obtain ⟨hbelow, hback⟩ :=
    hcallers throughNested (fun c hc => hcalls c (List.mem_append_left _ hc)) hdepth
  exact ⟨⟨rfl, hcall, hcalls, hdepth, hleft⟩, hbelow,
    hback .step (hcalls .step (List.mem_append_right _ List.mem_cons_self)) hleft⟩

end Machine

end ScriptMachine
