import ScriptMachine.Program.Flow

/-!
# Stack heights

A certificate that a program always finds its operands: a height of the stack that is safe to assume
at every place of every routine, counted from where the entry routine starts, and one that every
routine leaves behind.

* `Heights`: the heights.
* `Heights.Certifies`: the conditions under which they can be relied on.
* `Heights.certifies_iff`: the same conditions, place by place, which can be decided.
-/

namespace ScriptMachine

/-- The height of the stack after an operation, from the height before it. Calls and returns are
not told by the operation alone and keep the height. -/
def Operation.heightAfter (height : Nat) : Operation → Nat
  | .push _ => height + 1
  | .dup => height + 1
  | .pop => height - 1
  | .arithmetic _ => height - 1
  | .compare _ => height - 1
  | .jumpIfFalse _ => height - 1
  | _ => height

/-- A lower bound of the stack's height at every place, and at the return of every routine. -/
structure Heights where
  before : RoutineId → Nat → Nat
  onReturn : RoutineId → Nat

/-- What makes the heights of a program lower bounds in every run. -/
structure Heights.Certifies (h : Heights) (p : Program) : Prop where
  entry : h.before .entry 0 = 0
  operands : ∀ id c i, p.Has id c i → i.operands ≤ h.before id c
  targets : ∀ id r c i, p.routine? id = some r → r.instruction? c = some i →
    ∀ target ∈ i.operation.targets, target ≤ r.size
  callees : ∀ id c i, p.Has id c i →
    ∀ callee, i.operation.callee? = some callee → (p.routine? callee).isSome
  flow : ∀ id c i, p.Has id c i →
    ∀ c' ∈ i.operation.successors c, h.before id c' ≤ i.operation.heightAfter (h.before id c)
  enter : ∀ id c i, p.Has id c i →
    ∀ callee, i.operation.callee? = some callee →
      h.before callee 0 ≤ h.before id c ∧ h.before id (c + 1) ≤ h.onReturn callee
  leave : ∀ id c i, p.Has id c i → i.operation = .leave → h.onReturn id ≤ h.before id c
  finish : ∀ id r, p.routine? id = some r → h.onReturn id ≤ h.before id r.size

/-! ## Deciding whether heights certify a program -/

/-- The conditions at one place of a routine. -/
def Heights.FitsAt (h : Heights) (p : Program) (id : RoutineId) (r : Routine) (c : Nat)
    (i : Instruction) : Prop :=
  i.operands ≤ h.before id c ∧
  (∀ target ∈ i.operation.targets, target ≤ r.size) ∧
  (∀ c' ∈ i.operation.successors c, h.before id c' ≤ i.operation.heightAfter (h.before id c)) ∧
  (∀ callee ∈ i.operation.callee?, (p.routine? callee).isSome ∧
    h.before callee 0 ≤ h.before id c ∧ h.before id (c + 1) ≤ h.onReturn callee) ∧
  (i.operation = .leave → h.onReturn id ≤ h.before id c)

theorem Heights.certifies_iff {h : Heights} {p : Program} :
    h.Certifies p ↔ h.before .entry 0 = 0 ∧ ∀ id r, p.routine? id = some r →
      h.onReturn id ≤ h.before id r.size ∧
        ∀ c i, r.instruction? c = some i → h.FitsAt p id r c i := by
  constructor
  · intro hc
    refine ⟨hc.entry, fun id r hr => ⟨hc.finish id r hr, fun c i hi => ?_⟩⟩
    have hhas := Program.has_of_instruction? hr hi
    refine ⟨hc.operands id c i hhas, hc.targets id r c i hr hi, hc.flow id c i hhas, ?_,
      hc.leave id c i hhas⟩
    intro callee hcallee
    exact ⟨hc.callees id c i hhas callee hcallee, hc.enter id c i hhas callee hcallee⟩
  · rintro ⟨hentry, hroutines⟩
    -- every place of the program is a place of one of its routines
    have hfits : ∀ id c i, p.Has id c i → ∃ r, h.FitsAt p id r c i := by
      intro id c i hhas
      obtain ⟨r, hr, hi⟩ := Program.has_iff.mp hhas
      exact ⟨r, (hroutines id r hr).2 c i hi⟩
    constructor
    case entry => exact hentry
    case finish => exact fun id r hr => (hroutines id r hr).1
    case targets => exact fun id r c i hr hi => ((hroutines id r hr).2 c i hi).2.1
    case operands =>
      intro id c i hhas
      obtain ⟨r, hoperands, -⟩ := hfits id c i hhas
      exact hoperands
    case flow =>
      intro id c i hhas
      obtain ⟨r, -, -, hflow, -⟩ := hfits id c i hhas
      exact hflow
    case callees =>
      intro id c i hhas callee hcallee
      obtain ⟨r, -, -, -, hcalls, -⟩ := hfits id c i hhas
      exact (hcalls callee hcallee).1
    case enter =>
      intro id c i hhas callee hcallee
      obtain ⟨r, -, -, -, hcalls, -⟩ := hfits id c i hhas
      exact (hcalls callee hcallee).2
    case leave =>
      intro id c i hhas
      obtain ⟨r, -, -, -, -, hleave⟩ := hfits id c i hhas
      exact hleave

instance (op : Operation) : Decidable (op = .leave) :=
  match op with
  | .leave => .isTrue rfl
  | .push _ => .isFalse nofun
  | .pop => .isFalse nofun
  | .dup => .isFalse nofun
  | .arithmetic _ => .isFalse nofun
  | .compare _ => .isFalse nofun
  | .jump _ => .isFalse nofun
  | .jumpIfFalse _ => .isFalse nofun
  | .call _ => .isFalse nofun

instance (h : Heights) (p : Program) (id : RoutineId) (r : Routine) (c : Nat) (i : Instruction) :
    Decidable (h.FitsAt p id r c i) :=
  inferInstanceAs (Decidable (_ ∧ _ ∧ _ ∧ _ ∧ _))

instance (h : Heights) (p : Program) : Decidable (h.Certifies p) :=
  decidable_of_iff
    (h.before .entry 0 = 0 ∧ ∀ k, k < p.size → ∀ r ∈ p.routine? ⟨.ofNat k⟩,
      h.onReturn ⟨.ofNat k⟩ ≤ h.before ⟨.ofNat k⟩ r.size ∧
        ∀ c, c < r.size → ∀ i ∈ r.instruction? c, h.FitsAt p ⟨.ofNat k⟩ r c i)
    (by
      rw [Heights.certifies_iff, Program.forall_routine_iff]
      simp only [Routine.forall_instruction_iff])

end ScriptMachine
