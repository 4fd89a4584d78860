import Mathlib.Data.List.Chain
import ScriptMachine.Proofs.Faults
import ScriptMachine.Proofs.Frames
import ScriptMachine.Proofs.Histories

/-!
# The frames are those of calls that wait

In every history the frame at the bottom is that of the entry routine, and every other one was put
there by a call, which the frame below it stands right behind. So the routines of all frames are
there, except in a program without routines, and a frame that another one covers is at a place of
its routine or at its end.

* `Program.Awaits`: a frame stands behind the call of another frame's routine.
* `Program.Pending`: the frames are those of calls that wait, from the entry routine on.
* `FrameChange.pending`, `FrameChange.inCode`: whatever a step does to the frames keeps them so.
* `history_calls_pending`: what the frames are in every history.
-/

namespace ScriptMachine

/-- In a chain every element but the last one is related to the one behind it. -/
theorem exists_of_isChain_concat {α : Type} {R : α → α → Prop} {l : List α} {a b : α}
    (h : (l ++ [a]).IsChain R) (hb : b ∈ l) : ∃ c, R b c := by
  obtain ⟨k, hk, rfl⟩ := List.getElem_of_mem hb
  have hlt : k + 1 < (l ++ [a]).length := by
    rw [List.length_append]
    exact Nat.succ_lt_succ hk
  have hR := List.isChain_iff_getElem.mp h k hlt
  rw [List.getElem_append_left hk] at hR
  exact ⟨_, hR⟩

/-- A push goes on with a chain of entries if the new one is related to the top. -/
theorem Stack.isChain_toList_push {α : Type} {R : α → α → Prop} {s : Stack α} {a : α} :
    (s.push a).toList.IsChain R ↔ s.toList.IsChain R ∧ ∀ b ∈ s.top?, R b a := by
  rw [toList_push, List.isChain_append, getLast?_toList]
  simp

namespace Program

/-- The frame `f` waits for the routine of the frame `g`: it stands right behind a call of it. -/
def Awaits (p : Program) (f g : Frame) : Prop :=
  1 ≤ f.counter ∧ ∃ i, p.Has f.routine (f.counter - 1) i ∧ i.operation = .call g.routine

/-- The frame is at a place of its routine or at its end, if it has one. -/
def InCode (p : Program) (f : Frame) : Prop :=
  ∀ r, p.routine? f.routine = some r → f.counter ≤ r.size

/-- The frames of calls that wait for each other, the first of which is the entry. -/
structure Pending (p : Program) (frames : Stack Frame) : Prop where
  bottom : ∀ f ∈ frames.toList.head?, f.routine = .entry
  awaits : frames.toList.IsChain p.Awaits
  found : ∀ f ∈ frames.toList, f.routine = .entry ∨ (p.routine? f.routine).isSome

variable {p : Program} {f g : Frame}

/-- A frame that waits is in a routine that is there, and at the end of it at most. -/
theorem Awaits.inCode (h : p.Awaits f g) :
    ∃ r, p.routine? f.routine = some r ∧ f.counter ≤ r.size := by
  obtain ⟨hpos, i, hhas, -⟩ := h
  obtain ⟨r, hr, hi⟩ := has_iff.mp hhas
  -- the call is in the routine, and the frame is one place behind it
  have hlt : f.counter - 1 < r.size := (Array.getElem?_eq_some_iff.mp hi).1
  exact ⟨r, hr, by omega⟩

/-- No frame is left when a run is over. -/
theorem pending_empty : p.Pending .empty where
  bottom _ hf := nomatch hf
  awaits := .nil
  found _ hf := nomatch hf

/-- Without a frame at the bottom there is none. -/
theorem head?_toList_eq_none_iff {frames : Stack Frame} :
    frames.toList.head? = none ↔ frames.size = 0 := by
  rw [List.head?_eq_none_iff, ← List.length_eq_zero_iff, Stack.length_toList]

/-- The frame at the bottom is there before the others, unless there are no others. -/
theorem head?_toList_push (rest : Stack Frame) (f : Frame) :
    (rest.push f).toList.head? = rest.toList.head?.or (some f) := by
  rw [Stack.toList_push, List.head?_append]
  rfl

/-- A frame belongs on top of pending ones if the top has called it, or if it is the entry and the
first one. -/
theorem pending_push_iff {rest : Stack Frame} :
    p.Pending (rest.push f) ↔ p.Pending rest ∧ (∀ g ∈ rest.top?, p.Awaits g f) ∧
      (rest.size = 0 → f.routine = .entry) ∧
      (f.routine = .entry ∨ (p.routine? f.routine).isSome) := by
  constructor
  · rintro ⟨hbottom, hawaits, hfound⟩
    -- each of the three conditions on all frames is one on those below and one on the new frame
    rw [head?_toList_push] at hbottom
    rw [Stack.toList_push] at hfound
    obtain ⟨hrest, htop⟩ := Stack.isChain_toList_push.mp hawaits
    refine ⟨⟨fun g hg => hbottom g ?_, hrest, fun g hg => hfound g ?_⟩, htop,
      fun hempty => hbottom f ?_, hfound f ?_⟩
    · rw [hg]
      rfl
    · exact List.mem_append_left _ hg
    · rw [head?_toList_eq_none_iff.mpr hempty]
      rfl
    · exact List.mem_append_right _ (List.mem_singleton_self f)
  · rintro ⟨⟨hbottom, hawaits, hfound⟩, htop, hentry, hroutine⟩
    refine ⟨?_, Stack.isChain_toList_push.mpr ⟨hawaits, htop⟩, ?_⟩
    · rw [head?_toList_push]
      -- the new frame is at the bottom exactly where there was none
      cases hhead : rest.toList.head? with
      | none =>
        rintro g hg
        cases hg
        exact hentry (head?_toList_eq_none_iff.mp hhead)
      | some b =>
        rintro g hg
        cases hg
        exact hbottom b hhead
    · rw [Stack.toList_push]
      intro g hg
      rcases List.mem_append.mp hg with hg | hg
      · exact hfound g hg
      · rw [List.mem_singleton.mp hg]
        exact hroutine

/-- What a frame on top is pending for does not depend on its place. -/
theorem Pending.replaceTop {rest : Stack Frame} (h : p.Pending (rest.push f))
    (hg : g.routine = f.routine) : p.Pending (rest.push g) := by
  obtain ⟨hrest, htop, hentry, hfound⟩ := pending_push_iff.mp h
  rw [← hg] at hentry hfound
  refine pending_push_iff.mpr ⟨hrest, fun e he => ?_, hentry, hfound⟩
  rw [Awaits, hg]
  exact htop e he

/-- The frame on top may move in its routine. -/
theorem Pending.modifyTop {frames : Stack Frame} (h : p.Pending frames) {move : Frame → Frame}
    (hmove : ∀ f, (move f).routine = f.routine) : p.Pending (frames.modifyTop move) := by
  rcases frames.eq_empty_or_push with rfl | ⟨rest, f, rfl⟩
  · exact h
  · rw [Stack.modifyTop_push]
    exact h.replaceTop (hmove f)

/-- Each frame below the top waits for the one above it, and so is in its routine. -/
theorem Pending.inCode {frames : Stack Frame} (h : p.Pending frames) (hf : f ∈ frames.pop.toList) :
    ∃ r, p.routine? f.routine = some r ∧ f.counter ≤ r.size := by
  rcases frames.eq_empty_or_push with rfl | ⟨rest, top, rfl⟩
  · cases hf
  · have hawaits := h.awaits
    rw [Stack.pop_push] at hf
    rw [Stack.toList_push] at hawaits
    obtain ⟨g, hg⟩ := exists_of_isChain_concat hawaits hf
    exact hg.inCode

/-- In a program with routines there is an entry, and so all frames have a routine. -/
theorem Pending.isSome {frames : Stack Frame} (h : p.Pending frames) (hp : p.size ≠ 0)
    (hf : f ∈ frames.toList) : (p.routine? f.routine).isSome := by
  rcases h.found f hf with hentry | hfound
  · rw [hentry]
    exact routine?_entry_isSome hp
  · exact hfound

/-- Without routines there is nothing to call, and no more than one frame. -/
theorem Pending.toList_eq {frames : Stack Frame} (h : p.Pending frames) (hp : p.size = 0)
    (hf : f ∈ frames.toList) : frames.toList = [f] := by
  have hawaits := h.awaits
  match hl : frames.toList with
  | [] =>
    rw [hl] at hf
    cases hf
  | [g] =>
    rw [hl] at hf
    rw [List.mem_singleton.mp hf]
  | g :: e :: l =>
    rw [hl] at hawaits
    -- of two frames the lower one would be in a routine
    obtain ⟨r, hr, -⟩ := (List.isChain_cons_cons.mp hawaits).1.inCode
    rw [routine?_eq_none_of_size hp] at hr
    cases hr

end Program

/-! ## Steps -/

namespace Machine

variable {p : Program} {m : Machine} {frames : Stack Frame}

/-- Whatever a step does to the frames, those that are left are pending. -/
theorem FrameChange.pending (h : m.FrameChange frames) (hp : p.Pending m.frames)
    (hprogram : m.program = p) : p.Pending frames := by
  cases h with
  | kept hframes => rwa [hframes]
  | left hm hframes =>
    rw [hm] at hp
    rw [hframes]
    exact (Program.pending_push_iff.mp hp).1
  | moved hm hat hc hle hframes =>
    rw [hm] at hp
    rw [hframes]
    exact hp.replaceTop rfl
  | @called rest f r q i callee hm hat hop hcallee hframes =>
    rw [hm] at hp
    rw [hframes]
    -- the caller moves on before the callee is put on top of it
    have hcaller : p.Pending (rest.push f.advance) := hp.replaceTop rfl
    rw [hprogram] at hcallee
    refine Program.pending_push_iff.mpr
      ⟨hcaller, ?_, ?_, .inr (Option.isSome_iff_exists.mpr ⟨q, hcallee⟩)⟩
    · -- the caller has moved on from the call, and waits behind it
      rw [Stack.top?_push]
      rintro g hg
      cases hg
      exact ⟨Nat.succ_pos _, i, hprogram ▸ hat.has, hop⟩
    · intro hempty
      rw [Stack.size_push] at hempty
      cases hempty

/-- Whatever a step does to the frames, the one that is then on top is in its routine: it moved
there, or starts, or waited. -/
theorem FrameChange.inCode (h : m.FrameChange frames) (hp : p.Pending m.frames)
    (hprogram : m.program = p) (hcode : ∀ f ∈ m.frames.top?, p.InCode f) :
    ∀ f ∈ frames.top?, p.InCode f := by
  cases h with
  | kept hframes => rwa [hframes]
  | left hm hframes =>
    rw [hm] at hp
    rw [hframes]
    -- a frame that comes to the top has waited below
    intro g hg r hr
    obtain ⟨q, hq, hle⟩ := ((Program.pending_push_iff.mp hp).2.1 g hg).inCode
    rw [hr] at hq
    cases hq
    exact hle
  | @moved rest f r i c hm hat hc hle hframes =>
    rw [hframes, Stack.top?_push]
    rintro g hg q hq
    cases hg
    -- a step moves a frame no further than to the end of its routine
    have hr := hat.routine
    rw [hprogram, hq] at hr
    cases hr
    exact hle
  | called hm hat hop hcallee hframes =>
    rw [hframes, Stack.top?_push]
    rintro g hg
    cases hg
    -- the first place is in every routine, also in an empty one
    exact fun _ _ => Nat.zero_le _

/-! ## Histories -/

/-- The machine runs the program, and its frames are those of calls that wait. -/
structure Linked (p : Program) (m : Machine) : Prop where
  program : m.program = p
  pending : p.Pending m.frames

/-- At the start the entry waits for nothing. -/
theorem linked_start (p : Program) (l : Limits) : (start p l).Linked p where
  program := rfl
  pending := Program.pending_push_iff.mpr ⟨Program.pending_empty, nofun, fun _ => rfl, .inl rfl⟩

/-- A step changes the frames by one of the ways that keep them pending. -/
theorem Linked.step (hm : m.Linked p) : m.step.machine.Linked p where
  program := m.steps_step.unchanged.1.trans hm.program
  pending := m.steps_step.frameChange.pending hm.pending hm.program

/-- A termination leaves the frames as they are. -/
theorem Linked.terminate (hm : m.Linked p) (d : Diagnostic) : (m.terminate d).machine.Linked p where
  program := (m.terminate_unchanged d).1.trans hm.program
  pending := by
    rw [terminate_frames]
    exact hm.pending

/-- A value of the host's own moves the frame on top, maybe out of its routine, but keeps it waited
for. -/
theorem Linked.put (hm : m.Linked p) (v : Value) :
    { m with stack := m.stack.push v }.advance.Linked p where
  program := hm.program
  pending := hm.pending.modifyTop fun _ => rfl

/-- In every history the frames are pending, whatever the host does. -/
theorem linked_history (p : Program) (l : Limits) (cs : List HostCall) :
    ((start p l).history cs).machine.Linked p :=
  history_invariant (Q := fun _ => True)
    (fun m c _ hm => handle_invariant (fun _ hn => hn.step) (fun _ d hn => hn.terminate d)
      (fun _ v hn _ => hn.put v) m c hm)
    (fun _ _ => trivial) (linked_start p l)

/-- The frame on top is in its routine, too. -/
structure Confined (p : Program) (m : Machine) : Prop extends m.Linked p where
  inCode : ∀ f ∈ m.frames.top?, p.InCode f

/-- At the start the frame on top is at the first place of its routine. -/
theorem confined_start (p : Program) (l : Limits) : (start p l).Confined p where
  toLinked := linked_start p l
  inCode := by
    rintro f hf
    cases hf
    exact fun r _ => Nat.zero_le r.size

/-- A step keeps the frame on top in its routine. -/
theorem Confined.step (hm : m.Confined p) : m.step.machine.Confined p where
  toLinked := hm.toLinked.step
  inCode := m.steps_step.frameChange.inCode hm.pending hm.program hm.inCode

/-- A termination leaves the frame on top where it is. -/
theorem Confined.terminate (hm : m.Confined p) (d : Diagnostic) :
    (m.terminate d).machine.Confined p where
  toLinked := hm.toLinked.terminate d
  inCode := by
    rw [terminate_frames]
    exact hm.inCode

/-- As long as the host brings no operands of its own, the frame on top stays in its routine. -/
theorem confined_history (p : Program) (l : Limits) {cs : List HostCall}
    (hcs : ∀ c ∈ cs, c.drives = true) : ((start p l).history cs).machine.Confined p :=
  history_invariant (fun m _ hc hm => handle_invariant_of_drives (fun _ hn => hn.step)
    (fun _ d hn => hn.terminate d) m hc hm) hcs (confined_start p l)

/-- In every history the frame at the bottom is that of the entry routine, and each frame above it
is one that the frame below has called, and waits for behind the call. All their routines are there
unless the program has none; frames that wait are in their routines, and so is the frame on top as
long as the host brings no operands of its own. So no step misses the routine that it is in. -/
theorem history_calls_pending (p : Program) (l : Limits) (cs : List HostCall) :
    let m := ((start p l).history cs).machine
    let frames := m.frames.toList
    (∀ f ∈ frames.head?, f.routine = .entry) ∧
    (frames.IsChain fun f g => 1 ≤ f.counter ∧
      ∃ i, p.Has f.routine (f.counter - 1) i ∧ i.operation = .call g.routine) ∧
    (∀ f ∈ frames, (p.routine? f.routine).isSome ∨ p.size = 0 ∧ frames = [f]) ∧
    (∀ f ∈ m.frames.pop.toList, ∃ r, p.routine? f.routine = some r ∧ f.counter ≤ r.size) ∧
    ((∀ c ∈ cs, c.drives = true) →
      ∀ f ∈ m.frames.top?, ∀ r, p.routine? f.routine = some r → f.counter ≤ r.size) ∧
    (p.size ≠ 0 →
      ∀ f ∈ m.frames.top?, m.step.answer ≠ .error (.unknownRoutine f.routine)) := by
  intro m frames
  have hm : m.Linked p := linked_history p l cs
  refine ⟨hm.pending.bottom, hm.pending.awaits, fun f hf => ?_, fun f hf => hm.pending.inCode hf,
    fun hcs => ?_, fun hp f hf hfault => ?_⟩
  · by_cases hp : p.size = 0
    · exact .inr ⟨hp, hm.pending.toList_eq hp hf⟩
    · exact .inl (hm.pending.isSome hp hf)
  · exact (confined_history p l hcs).inCode
  · have hmem : f ∈ m.frames.toList := List.mem_of_getLast? (Stack.getLast?_toList _ ▸ hf)
    have hsome := hm.pending.isSome hp hmem
    -- a fault of the frame's own routine says that the routine is not there
    have hnone := (m.steps_step.faults hfault).2.routine?_eq_none
    rw [hm.program] at hnone
    rw [hnone] at hsome
    cases hsome

/-- A host that compares two arrays of its own moves the frame of an empty routine beyond the end;
the frame that waits for it stays behind its call. -/
theorem history_calls_pending_beyond :
    let p := Program.ofList [⟨"main", #[.synthetic (.call ⟨1⟩)]⟩, ⟨"empty", #[]⟩]
    let compared := HostCall.comparison (.array []) .eq (.array []) .synthetic
    let m := ((start p .unbounded).history [.step, compared]).machine
    (p.size ≠ 0 ∧ m.frames.top? = some ⟨⟨1⟩, 1⟩ ∧
        m.step.answer ≠ .error (.unknownRoutine ⟨1⟩) ∧
        ∀ f ∈ m.frames.pop.toList, ∃ r, p.routine? f.routine = some r ∧ f.counter ≤ r.size) ∧
      (∀ c ∈ [HostCall.step], c.drives = true) ∧
      ∀ f ∈ ((start p .unbounded).history [.step]).machine.frames.top?,
        ∀ r, p.routine? f.routine = some r → f.counter ≤ r.size := by
  intro p compared m
  have hp : p.size ≠ 0 := nofun
  have htop : m.frames.top? = some ⟨⟨1⟩, 1⟩ := rfl
  have hcs : ∀ c ∈ [HostCall.step], c.drives = true := by decide
  obtain ⟨-, -, -, hwaiting, -, hfound⟩ := history_calls_pending p .unbounded [.step, compared]
  obtain ⟨-, -, -, -, hinCode, -⟩ := history_calls_pending p .unbounded [.step]
  exact ⟨⟨hp, htop, hfound hp _ htop, hwaiting⟩, hcs, hinCode hcs⟩

end Machine

end ScriptMachine
