import ScriptMachine.Program.Heights
import ScriptMachine.Proofs.Histories

/-!
# Programs with certified heights do not fault

The heights of a certificate are lower bounds of the stack in every run. The frame on top is at a
place whose height the stack has. A frame below it waits for a routine to return, and is at a place
whose height that routine leaves behind, whatever the stack is until then.

* `Heights.Supports`: the frames of a run are at places that the stack is high enough for.
* `Supports.goOn`, `Supports.enter`, `Supports.leave`: an instruction of the routine on top, a call
  and a return keep it so.
* `Steps.supported`, `Steps.faultless`: so does every step, and it does not fault.
* `history_faultless`: no step and no run of a certified program ever answers with a fault.
-/

namespace ScriptMachine

/-! ## Heights and operations -/

namespace Operation

/-- A higher stack is higher after the operation, too. -/
theorem heightAfter_mono (op : Operation) {n k : Nat} (h : n ≤ k) :
    op.heightAfter n ≤ op.heightAfter k := by
  cases op with
  | push | dup => exact Nat.succ_le_succ h
  | pop | arithmetic | compare | jumpIfFalse => exact Nat.sub_le_sub_right h 1
  | jump | call | leave => exact h

variable {op : Operation} {s rest : Stack Value}

/-- The height after an operation that yields a value is the one that the certificate counts with.
-/
theorem Puts.size_push {span : Span} {v : Value} (h : op.Puts span s rest v) :
    (rest.push v).size = op.heightAfter s.size := by
  rw [Stack.size_push]
  cases h with
  | push hop hs | dup hop hs => rw [hop, hs, heightAfter]
  | arithmetic hop hs | compare hop hs =>
    rw [hop, hs, Stack.size_push, Stack.size_push, heightAfter]
    omega

/-- The height after an operation that yields none is the one that the certificate counts with. -/
theorem Moves.size_rest {n : Nat} {move : Frame → Frame} (h : op.Moves n s rest move) :
    rest.size = op.heightAfter s.size := by
  cases h with
  | jump hop _ hs =>
    rw [hop, hs]
    rfl
  | pop hop hs | fallThrough hop _ hs | branch hop _ hs =>
    rw [hop, hs, Stack.size_push, heightAfter]
    omega

end Operation

/-! ## Frames that the stack supports -/

/-- With `n` values on the stack, every frame is at a place of a routine of the program, and has
there, when it comes to it, the values that the heights say. -/
inductive Heights.Supports (h : Heights) (p : Program) : Stack Frame → Nat → Prop where
  | empty {frames : Stack Frame} {n : Nat} (hframes : frames = .empty) : Supports h p frames n
  | push {frames rest : Stack Frame} {n : Nat} {f : Frame} {r : Routine}
      (hframes : frames = rest.push f) (hroutine : p.routine? f.routine = some r)
      (hcounter : f.counter ≤ r.size) (hheight : h.before f.routine f.counter ≤ n)
      (hrest : Supports h p rest (h.onReturn f.routine)) : Supports h p frames n

namespace Heights.Supports

variable {h : Heights} {p : Program} {frames : Stack Frame} {n : Nat} {f : Frame} {i : Instruction}
  {r : Routine}

/-- More values than are asked for support the frames as well. -/
theorem mono (hs : h.Supports p frames n) {k : Nat} (hk : n ≤ k) : h.Supports p frames k := by
  cases hs with
  | empty hframes => exact .empty hframes
  | push hframes hroutine hcounter hheight hrest =>
    exact .push hframes hroutine hcounter (Nat.le_trans hheight hk) hrest

/-- The frame on top is in its routine and has its height; the others are supported by what it
leaves behind. -/
theorem of_top? (hs : h.Supports p frames n) (hf : frames.top? = some f) :
    ∃ rest r, frames = rest.push f ∧ p.routine? f.routine = some r ∧ f.counter ≤ r.size ∧
      h.before f.routine f.counter ≤ n ∧ h.Supports p rest (h.onReturn f.routine) := by
  cases hs with
  | empty hframes =>
    rw [hframes] at hf
    cases hf
  | @push _ rest _ g r hframes hroutine hcounter hheight hrest =>
    rw [hframes, Stack.top?_push] at hf
    cases hf
    exact ⟨rest, r, hframes, hroutine, hcounter, hheight, hrest⟩

/-- An instruction that goes on in its routine leads to a place with the height that is then there.
-/
theorem goOn (hs : h.Supports p frames n) (hc : h.Certifies p) (hf : frames.top? = some f)
    (hr : p.routine? f.routine = some r) (hi : r.instruction? f.counter = some i)
    {move : Frame → Frame}
    (hmove : ∃ c' ∈ i.operation.successors f.counter, move f = ⟨f.routine, c'⟩) :
    h.Supports p (frames.modifyTop move) (i.operation.heightAfter n) := by
  obtain ⟨rest, r', rfl, hr', hcounter, hheight, hrest⟩ := hs.of_top? hf
  obtain ⟨c', hc', hmove⟩ := hmove
  have hhas := Program.has_of_instruction? hr hi
  rw [Stack.modifyTop_push, hmove]
  refine .push rfl hr ?_ ?_ hrest
  · show c' ≤ r.size
    -- the next place may be the end of the routine, where there is no instruction
    rcases Operation.mem_successors hc' with rfl | htarget
    · exact (Array.getElem?_eq_some_iff.mp hi).1
    · exact hc.targets f.routine r f.counter i hr hi c' htarget
  · show h.before f.routine c' ≤ i.operation.heightAfter n
    have hflow := hc.flow f.routine f.counter i hhas c' hc'
    exact Nat.le_trans hflow (i.operation.heightAfter_mono hheight)

/-- A call starts the callee with enough values, and what the callee leaves behind is enough for the
caller. -/
theorem enter (hs : h.Supports p frames n) (hc : h.Certifies p) (hf : frames.top? = some f)
    (hr : p.routine? f.routine = some r) (hi : r.instruction? f.counter = some i)
    {callee : RoutineId} (hop : i.operation = .call callee) {q : Routine}
    (hq : p.routine? callee = some q) :
    h.Supports p ((frames.modifyTop Frame.advance).push (.start callee)) n := by
  obtain ⟨rest, r', rfl, hr', hcounter, hheight, hrest⟩ := hs.of_top? hf
  have hhas := Program.has_of_instruction? hr hi
  obtain ⟨henter, hreturn⟩ := hc.enter f.routine f.counter i hhas callee (by rw [hop]; rfl)
  rw [Stack.modifyTop_push]
  -- the callee is at its start, for which the caller had the height
  refine .push rfl hq (Nat.zero_le _) (Nat.le_trans henter hheight) ?_
  -- the caller waits after the call, with the height that the callee leaves behind
  have hlt : f.counter < r.size := (Array.getElem?_eq_some_iff.mp hi).1
  exact .push rfl hr hlt hreturn hrest

/-- A return leaves the values that the caller has waited for. -/
theorem leave (hs : h.Supports p frames n) (hf : frames.top? = some f)
    (hreturn : h.onReturn f.routine ≤ h.before f.routine f.counter) :
    h.Supports p frames.pop n := by
  obtain ⟨rest, r, rfl, hr, hcounter, hheight, hrest⟩ := hs.of_top? hf
  rw [Stack.pop_push]
  -- the stack has what is asked of it at the return, and maybe more
  exact hrest.mono (Nat.le_trans hreturn hheight)

end Heights.Supports

/-! ## Instructions and steps -/

namespace Machine

variable {h : Heights} {p : Program} {m : Machine}

/-- The machine runs the program, and its stack supports its frames for as long as it runs. -/
structure Supported (h : Heights) (p : Program) (m : Machine) : Prop where
  program : m.program = p
  supports : m.status = .running → h.Supports p m.frames m.stack.size

/-- At the start nothing is on the stack, and nothing is asked of it. -/
theorem supported_start (hc : h.Certifies p) (hp : p.size ≠ 0) (l : Limits) :
    (start p l).Supported h p where
  program := rfl
  supports _ := by
    obtain ⟨r, hr⟩ := Option.isSome_iff_exists.mp (Program.routine?_entry_isSome hp)
    exact .push rfl hr (Nat.zero_le _) (Nat.le_of_eq hc.entry) (.empty rfl)

/-- A certified instruction does not fault, and what it leaves on the stack supports the frames. -/
theorem Performs.supported {f : Frame} {r : Routine} {i : Instruction}
    {reply : Reply (Except Fault Unit)} (hperf : m.Performs f r.size i reply)
    (hm : m.Supported h p) (hrun : m.status = .running) (hc : h.Certifies p)
    (hf : m.frames.top? = some f) (hr : p.routine? f.routine = some r)
    (hi : r.instruction? f.counter = some i) :
    reply.machine.Supported h p ∧ ∀ fault, reply.answer ≠ .error fault := by
  have hs := hm.supports hrun
  have hhas := Program.has_of_instruction? hr hi
  obtain ⟨rest, r', -, hr', hcounter, hheight, -⟩ := hs.of_top? hf
  -- the faults are refuted by the certificate; where the run goes on, its frames are supported
  cases hperf with
  | underflow hsize =>
    -- there are as many values as the certificate asks for, so no operand is missing
    have hoperands := hc.operands f.routine f.counter i hhas
    omega
  | outOfBounds _ hop htarget =>
    have hle := hc.targets f.routine r f.counter i hr hi _ hop
    omega
  | @unknownCallee callee hop hcallee =>
    have hsome := hc.callees f.routine f.counter i hhas callee (by rw [hop]; rfl)
    rw [hm.program] at hcallee
    rw [hcallee] at hsome
    cases hsome
  | @put rest v hop hroom =>
    refine ⟨⟨hm.program, fun _ => ?_⟩, nofun⟩
    show h.Supports p (m.frames.modifyTop Frame.advance) (rest.push v).size
    rw [hop.size_push]
    exact hs.goOn hc hf hr hi (hop.advance_mem f)
  | @moved rest move hop =>
    refine ⟨⟨hm.program, fun _ => ?_⟩, nofun⟩
    show h.Supports p (m.frames.modifyTop move) rest.size
    rw [hop.size_rest]
    exact hs.goOn hc hf hr hi (hop.move_mem f)
  | overflow | failed | tooDeep => exact ⟨⟨hm.program, nofun⟩, nofun⟩
  | called hop hcallee hroom =>
    rw [hm.program] at hcallee
    exact ⟨⟨hm.program, fun _ => hs.enter hc hf hr hi hop hcallee⟩, nofun⟩
  | left hop =>
    have hreturn := hc.leave f.routine f.counter i hhas hop
    exact ⟨⟨hm.program, fun _ => hs.leave hf hreturn⟩, nofun⟩

/-- No step of a certified program faults, and each keeps the frames supported. -/
theorem Steps.supported {reply : Reply (Except Fault Bool)} (hstep : m.Steps reply)
    (hm : m.Supported h p) (hc : h.Certifies p) :
    reply.machine.Supported h p ∧ ∀ fault, reply.answer ≠ .error fault := by
  cases hstep with
  | stopped => exact ⟨hm, nofun⟩
  | completed | refused => exact ⟨⟨hm.program, nofun⟩, nofun⟩
  | lost hrun hnext =>
    -- a frame that is supported has its routine
    obtain ⟨f, hf, -, hlost⟩ := next_eq_lost_iff.mp hnext
    obtain ⟨rest, r, -, hr, -⟩ := (hm.supports hrun).of_top? hf
    rw [hm.program, hr] at hlost
    cases hlost
  | @leftAtEnd f hrun hnext =>
    obtain ⟨hf, r, hr, hend⟩ := next_eq_leave_iff.mp hnext
    rw [hm.program] at hr
    have hs := hm.supports hrun
    obtain ⟨rest, r', -, hr', hcounter, -⟩ := hs.of_top? hf
    cases hr.symm.trans hr'
    -- a counter that has no instruction, and is not beyond the end, is at the end
    have hsize : f.counter = r.size :=
      Nat.le_antisymm hcounter (Array.getElem?_eq_none_iff.mp hend)
    have hreturn : h.onReturn f.routine ≤ h.before f.routine f.counter := by
      rw [hsize]
      exact hc.finish f.routine r hr
    exact ⟨⟨hm.program, fun _ => hs.leave hf hreturn⟩, nofun⟩
  | @executed f n i reply hrun hnext hbudget hperf =>
    obtain ⟨hf, r, hr, rfl, hi⟩ := next_eq_execute_iff.mp hnext
    rw [hm.program] at hr
    have hcharged : m.charge.Supported h p := ⟨hm.program, hm.supports⟩
    obtain ⟨hafter, hanswer⟩ := hperf.supported hcharged hrun hc hf hr hi
    obtain ⟨answer, machine, events⟩ := reply
    cases answer with
    | ok => exact ⟨hafter, nofun⟩
    | error fault => exact absurd rfl (hanswer fault)

/-- A machine that has been terminated need not be supported any more. -/
theorem Supported.terminate (hm : m.Supported h p) (d : Diagnostic) :
    (m.terminate d).machine.Supported h p := by
  unfold Machine.terminate
  cases hrun : m.status with
  | running => exact ⟨hm.program, nofun⟩
  | completed | terminated => exact hm

/-! ## Histories -/

/-- Calls that bring no operands of the host's own keep the frames supported. -/
theorem Supported.handle (hm : m.Supported h p) (hc : h.Certifies p) {c : HostCall}
    (hdrives : c.drives = true) : (m.handle c).machine.Supported h p :=
  handle_invariant_of_drives (fun n hn => (n.steps_step.supported hn hc).1)
    (fun _ d hn => hn.terminate d) m hdrives hm

/-- On a machine whose frames are supported, no call answers with a fault. -/
theorem Supported.answer (hm : m.Supported h p) (hc : h.Certifies p) {c : HostCall}
    {fault : Fault} : (m.handle c).answer ≠ .stepped (.error fault) ∧
      (m.handle c).answer ≠ .ran (some (.error fault)) := by
  cases c with
  | step =>
    refine ⟨fun ha => ?_, nofun⟩
    exact (m.steps_step.supported hm hc).2 fault (HostAnswer.stepped.inj ha)
  | run fuel =>
    refine ⟨nofun, fun ha => ?_⟩
    -- the fault is that of one of the run's steps
    obtain ⟨n, hn, hfault⟩ := resume_fault (fun n hn => (n.steps_step.supported hn hc).1) hm
      (HostAnswer.ran.inj ha)
    exact (n.steps_step.supported hn hc).2 fault hfault
  | terminate | arithmetic | comparison => exact ⟨nofun, nofun⟩

/-- However a host drives a machine with a certified program, under whatever limits, no step and no
run ever answers with a fault. -/
theorem history_faultless (hc : h.Certifies p) (hp : p.size ≠ 0) (l : Limits) {cs : List HostCall}
    (hcs : ∀ c ∈ cs, c.drives = true) {a : HostAnswer}
    (ha : a ∈ ((start p l).history cs).answer) (fault : Fault) :
    a ≠ .stepped (.error fault) ∧ a ≠ .ran (some (.error fault)) := by
  -- each answer was given by a machine on the way, and these are all supported
  obtain ⟨n, c, hn, hdrives, rfl⟩ := history_answer (P := Supported h p)
    (fun n c hdrives hn => hn.handle hc hdrives) hcs (supported_start hc hp l) ha
  exact hn.answer hc

/-- Put an array on the stack, and wait in another routine, which calls itself, for it to become
truthy. -/
def waiting : Program :=
  .ofList
    [⟨"main", #[.synthetic (.push (.array [])), .synthetic (.call ⟨1⟩), .synthetic .pop]⟩,
      ⟨"wait", #[.synthetic .dup, .synthetic (.jumpIfFalse 3), .synthetic (.jump 4),
        .synthetic (.call ⟨1⟩)]⟩]

def waitingHeights : Heights where
  before id c :=
    match id.index.toNat, c with
    | 0, 1 => 1
    | 0, 2 => 1
    | 1, 1 => 2
    | 1, _ => 1
    | _, _ => 0
  onReturn id := id.index.toNat

/-- A routine that calls itself without end, and the frames it leaves behind: the certificate is
checked by evaluation. -/
theorem history_faultless_waiting :
    waitingHeights.Certifies waiting ∧
      (HostAnswer.ran none ∈ ((start waiting .sandboxed).history [.run 12, .step]).answer ∧
        ∀ a ∈ ((start waiting .sandboxed).history [.run 12, .step]).answer,
          ∀ fault, a ≠ .stepped (.error fault) ∧ a ≠ .ran (some (.error fault))) := by
  have hcertifies : waitingHeights.Certifies waiting := by decide
  refine ⟨hcertifies, List.mem_cons_self, fun a ha => ?_⟩
  exact history_faultless hcertifies (by decide) .sandboxed (by decide) ha

end Machine

end ScriptMachine
