import ScriptMachine.Limits
import ScriptMachine.Program
import ScriptMachine.Stack

/-!
# Machines

A machine runs one program under limits. It holds the evaluation stack, a frame for every routine
that has been entered and not left, the count of instructions charged so far, and whether it still
runs. Once it has stopped it stays so.

* `Machine.start`: a machine that is about to execute the entry routine.
* `Machine.next`: what the machine is about to do.
* `Fault`: what is wrong with a program that cannot go on; unlike a diagnostic it does not stop the
  machine.
* `Outcome`: how a run ends.
-/

namespace ScriptMachine

/-- A routine that has been entered, and the place of its next instruction. -/
structure Frame where
  routine : RoutineId
  counter : Nat
  deriving DecidableEq, Repr

namespace Frame

/-- The start of a routine. -/
def start (id : RoutineId) : Frame :=
  ⟨id, 0⟩

def advance (f : Frame) : Frame :=
  { f with counter := f.counter + 1 }

def jump (f : Frame) (target : Nat) : Frame :=
  { f with counter := target }

end Frame

/-- Whether a machine runs, or how it stopped. -/
inductive Status where
  | running
  | completed
  | terminated (diagnostic : Diagnostic)
  deriving DecidableEq, Repr

structure Machine where
  program : Program
  limits : Limits
  stack : Stack Value
  frames : Stack Frame
  status : Status
  steps : Nat

/-- What makes an instruction impossible to execute, or a frame impossible to continue. -/
inductive Fault where
  /-- The instruction needs more values than the stack has. -/
  | stackUnderflow (routine : RoutineId) (counter : Nat)
  /-- No routine has the id. -/
  | unknownRoutine (routine : RoutineId)
  /-- The target is beyond the end of the routine. -/
  | jumpOutOfBounds (routine : RoutineId) (target : Nat)
  deriving DecidableEq, Repr

namespace Fault

/-- The fault's name. -/
def name : Fault → String
  | stackUnderflow _ _ => "StackUnderflow"
  | unknownRoutine _ => "UnknownRoutine"
  | jumpOutOfBounds _ _ => "JumpOutOfBounds"

def message : Fault → String
  | stackUnderflow routine counter =>
    "evaluation stack underflow in " ++ routine.text ++ " at instruction " ++ toString counter
  | unknownRoutine routine => "call to unknown " ++ routine.text
  | jumpOutOfBounds routine target =>
    "jump target " ++ toString target ++ " is outside " ++ routine.text

/-- The text that a developer sees. -/
def inspect : Fault → String
  | stackUnderflow routine counter =>
    "StackUnderflow \x7b routine: " ++ routine.inspect ++ ", counter: " ++ toString counter ++
      " \x7d"
  | unknownRoutine routine => "UnknownRoutine(" ++ routine.inspect ++ ")"
  | jumpOutOfBounds routine target =>
    "JumpOutOfBounds \x7b routine: " ++ routine.inspect ++ ", target: " ++ toString target ++
      " \x7d"

end Fault

/-- How a run ends: with the values on the stack, or with the report of what stopped it. -/
inductive Outcome where
  | completed (results : Stack Value)
  | terminated (diagnostic : Diagnostic)

namespace Outcome

def isCompleted : Outcome → Bool
  | completed _ => true
  | terminated _ => false

def diagnostic? : Outcome → Option Diagnostic
  | completed _ => none
  | terminated d => some d

end Outcome

/-- What a machine that runs is about to do. -/
inductive Next where
  /-- No frame is left: the run is complete. -/
  | complete
  /-- The routine of the frame on top does not exist. -/
  | lost (routine : RoutineId)
  /-- The frame on top is past its last instruction, and is left. -/
  | leave (frame : Frame)
  /-- An instruction of a routine of the given size is executed. -/
  | execute (frame : Frame) (routineSize : Nat) (instruction : Instruction)

namespace Machine

/-- A machine at the start of a program. -/
def start (program : Program) (limits : Limits) : Machine :=
  { program
    limits
    stack := .empty
    frames := Stack.empty.push (.start .entry)
    status := .running
    steps := 0 }

def isRunning (m : Machine) : Bool :=
  match m.status with
  | .running => true
  | _ => false

theorem isRunning_iff {m : Machine} : m.isRunning = true ↔ m.status = .running := by
  unfold isRunning
  cases m.status <;> simp

/-- The report of what terminated the run. -/
def diagnostic? (m : Machine) : Option Diagnostic :=
  match m.status with
  | .terminated d => some d
  | _ => none

/-- The frame that instructions are executed in. -/
def frame? (m : Machine) : Option Frame :=
  m.frames.top?

/-- What a machine is about to do, if it runs. -/
def next (m : Machine) : Next :=
  match m.frames.top? with
  | none => .complete
  | some frame =>
    match m.program.routine? frame.routine with
    | none => .lost frame.routine
    | some routine =>
      match routine.instruction? frame.counter with
      | none => .leave frame
      | some i => .execute frame routine.size i

/-- The outcome of a machine that has stopped. -/
def outcome (m : Machine) : Outcome :=
  match m.status with
  | .terminated d => .terminated d
  | _ => .completed m.stack

end Machine

end ScriptMachine
