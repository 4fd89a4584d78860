import ScriptMachine.Value.Arithmetic
import ScriptMachine.Value.Comparison

/-!
# Programs

A program is a sequence of routines, each a sequence of instructions; a run starts in routine 0.
Routines are known by their places, instructions by their places in a routine. The places that an
instruction names are not checked when a program is built, but when the instruction is executed.

* `Operation`, `Instruction`, `Routine`, `Program`: the parts of a program.
* `Operation.operands`: how many values an operation needs on the stack.
* `Program.add?`, `Program.addAll`: further routines, as long as there are ids.
-/

namespace ScriptMachine

/-- The place of a routine in its program. -/
structure RoutineId where
  index : UInt32
  deriving DecidableEq, Repr

namespace RoutineId

/-- The routine that a run starts in. -/
def entry : RoutineId := ⟨0⟩

instance : Inhabited RoutineId := ⟨entry⟩

/-- The id of the routine with the given number of routines before it, if that is a number of 32
bits. -/
def ofNat? (n : Nat) : Option RoutineId :=
  if n < UInt32.size then some ⟨.ofNat n⟩ else none

theorem toNat_index_inj {id id' : RoutineId} : id.index.toNat = id'.index.toNat ↔ id = id' := by
  constructor
  · intro h
    exact congrArg RoutineId.mk (UInt32.toNat_inj.mp h)
  · rintro rfl
    rfl

/-- The index does not wrap: it is the number. -/
theorem ofNat?_eq_some_iff {n : Nat} {id : RoutineId} :
    ofNat? n = some id ↔ id.index.toNat = n := by
  unfold ofNat?
  constructor
  · intro h
    split at h
    · next hn =>
      cases h
      exact UInt32.toNat_ofNat_of_lt' hn
    · cases h
  · rintro rfl
    -- the index of any id is a number of 32 bits
    rw [if_pos id.index.toNat_lt, UInt32.ofNat_toNat]

theorem ofNat?_eq_none_iff {n : Nat} : ofNat? n = none ↔ UInt32.size ≤ n := by
  unfold ofNat?
  split <;> simp <;> omega

def text (id : RoutineId) : String :=
  "routine#" ++ toString id.index.toNat

/-- The text that a developer sees. -/
def inspect (id : RoutineId) : String :=
  "RoutineId(" ++ toString id.index.toNat ++ ")"

end RoutineId

/-- What an instruction does. -/
inductive Operation where
  /-- Put a constant on the stack. -/
  | push (value : Value)
  /-- Discard the value on top. -/
  | pop
  /-- Put the value on top there once more. -/
  | dup
  /-- Replace the two values on top by the result of an operator; the right one is on top. -/
  | arithmetic (op : ArithmeticOperator)
  /-- Replace the two values on top by the result of a comparison. -/
  | compare (op : ComparisonOperator)
  /-- Go on at a place of the same routine. -/
  | jump (target : Nat)
  /-- Take the value on top, and go on at a place of the same routine unless it is truthy. -/
  | jumpIfFalse (target : Nat)
  /-- Enter a routine. -/
  | call (callee : RoutineId)
  /-- Leave the routine. -/
  | leave

namespace Operation

/-- The number of values that an operation needs on the stack. -/
def operands : Operation → Nat
  | arithmetic _ => 2
  | compare _ => 2
  | pop => 1
  | dup => 1
  | jumpIfFalse _ => 1
  | push _ => 0
  | jump _ => 0
  | call _ => 0
  | leave => 0

/-- The text that a developer sees. -/
def inspect : Operation → String
  | push v => "Push(" ++ v.inspect ++ ")"
  | pop => "Pop"
  | dup => "Dup"
  | arithmetic op => "Arithmetic(" ++ op.name ++ ")"
  | compare op => "Compare(" ++ op.name ++ ")"
  | jump target => "Jump(" ++ toString target ++ ")"
  | jumpIfFalse target => "JumpIfFalse(" ++ toString target ++ ")"
  | call callee => "Call(" ++ callee.inspect ++ ")"
  | leave => "Return"

end Operation

/-- An operation and the source that it was made from. -/
structure Instruction where
  operation : Operation
  span : Span

namespace Instruction

/-- An instruction without a source. -/
def synthetic (operation : Operation) : Instruction :=
  ⟨operation, .synthetic⟩

def operands (i : Instruction) : Nat :=
  i.operation.operands

end Instruction

structure Routine where
  name : String
  code : Array Instruction

namespace Routine

/-- The number of instructions. -/
def size (r : Routine) : Nat :=
  r.code.size

def instruction? (r : Routine) (counter : Nat) : Option Instruction :=
  r.code[counter]?

theorem forall_instruction_iff {r : Routine} {P : Nat → Instruction → Prop} :
    (∀ c i, r.instruction? c = some i → P c i) ↔
      ∀ c, c < r.size → ∀ i ∈ r.instruction? c, P c i := by
  constructor
  · intro h c _ i hi
    exact h c i hi
  · intro h c i hi
    exact h c (Array.getElem?_eq_some_iff.mp hi).1 i hi

end Routine

structure Program where
  routines : Array Routine

namespace Program

def empty : Program := ⟨#[]⟩

instance : Inhabited Program := ⟨empty⟩

def ofList (routines : List Routine) : Program :=
  ⟨routines.toArray⟩

/-- The program of one routine. -/
def single (code : List Instruction) : Program :=
  ofList [⟨"main", code.toArray⟩]

/-- The number of routines. -/
def size (p : Program) : Nat :=
  p.routines.size

def routine? (p : Program) (id : RoutineId) : Option Routine :=
  p.routines[id.index.toNat]?

/-- The instruction at a place of a routine. -/
def instruction? (p : Program) (id : RoutineId) (counter : Nat) : Option Instruction :=
  (p.routine? id).bind (·.instruction? counter)

/-- One more routine: its id and the program with it, or no id once the ids are used up. -/
def add? (p : Program) (r : Routine) : Option RoutineId × Program :=
  match RoutineId.ofNat? p.size with
  | some id => (some id, ⟨p.routines.push r⟩)
  | none => (none, p)

/-- Further routines, one after the other: the ids that were given, and the program in the end. -/
def addAll (p : Program) : List Routine → List RoutineId × Program
  | [] => ([], p)
  | r :: rs =>
    let added := p.add? r
    let rest := added.2.addAll rs
    (added.1.toList ++ rest.1, rest.2)

/-- The ids of a program are the numbers below its size. -/
theorem forall_routine_iff {p : Program} {P : RoutineId → Routine → Prop} :
    (∀ id r, p.routine? id = some r → P id r) ↔
      ∀ k, k < p.size → ∀ r ∈ p.routine? ⟨.ofNat k⟩, P ⟨.ofNat k⟩ r := by
  constructor
  · intro h k _ r hr
    exact h _ r hr
  · intro h id r hr
    have hk : id.index.toNat < p.size := (Array.getElem?_eq_some_iff.mp hr).1
    -- an id is made of its own index again
    have hid : (⟨.ofNat id.index.toNat⟩ : RoutineId) = id := by rw [UInt32.ofNat_toNat]
    have hP := h id.index.toNat hk
    rw [hid] at hP
    exact hP r hr

theorem routine?_eq_none_of_size {p : Program} {id : RoutineId} (h : p.size = 0) :
    p.routine? id = none := by
  refine Array.getElem?_eq_none_iff.mpr ?_
  show p.size ≤ id.index.toNat
  omega

theorem routine?_entry_isSome {p : Program} (h : p.size ≠ 0) : (p.routine? .entry).isSome :=
  Option.isSome_iff_exists.mpr ⟨_, Array.getElem?_eq_getElem (Nat.pos_of_ne_zero h)⟩

/-- A routine gets an id just if that is the number of routines before it, and is then the last one
of the program. -/
theorem add?_eq_some_iff {p q : Program} {r : Routine} {id : RoutineId} :
    p.add? r = (some id, q) ↔ id.index.toNat = p.size ∧ q = ⟨p.routines.push r⟩ := by
  rw [← RoutineId.ofNat?_eq_some_iff, add?]
  cases RoutineId.ofNat? p.size with
  | none => simp
  | some given => simp [eq_comm]

/-- A routine gets no id just if there is none left, and the program stays as it was. -/
theorem add?_eq_none_iff {p q : Program} {r : Routine} :
    p.add? r = (none, q) ↔ UInt32.size ≤ p.size ∧ q = p := by
  rw [← RoutineId.ofNat?_eq_none_iff, add?]
  cases RoutineId.ofNat? p.size with
  | none => simp [eq_comm]
  | some given => simp

theorem addAll_cons {p q : Program} {r : Routine} {given : Option RoutineId}
    (h : p.add? r = (given, q)) (rs : List Routine) :
    p.addAll (r :: rs) = (given.toList ++ (q.addAll rs).1, (q.addAll rs).2) := by
  rw [addAll, h]

/-- A program with no id left stays as it is, whatever is to be added. -/
theorem addAll_of_full {p : Program} (hfull : UInt32.size ≤ p.size) (rs : List Routine) :
    p.addAll rs = ([], p) := by
  induction rs with
  | nil => rfl
  | cons r rs ih =>
    rw [addAll_cons (add?_eq_none_iff.mpr ⟨hfull, rfl⟩), ih]
    rfl

end Program

end ScriptMachine
