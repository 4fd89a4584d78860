import ScriptMachine.Machine.Basic

/-!
# Events

What a machine reports while it works, for a log: each event has a level and fields of text. Every
call on a machine answers with a reply, which holds the machine after the call and the events of
the call in order.
-/

namespace ScriptMachine

/-- Something that happened to a machine. -/
inductive Event where
  /-- A run of a program of so many routines was asked for. -/
  | runEntered (routines : Nat)
  /-- An instruction was charged, with so many values on the stack, and is executed. -/
  | executed (frame : Frame) (operation : Operation) (depth : Nat)
  /-- The end of a routine was reached, and its frame was left. -/
  | returnedImplicitly (routine : RoutineId)
  /-- A routine was entered; there are so many frames now. -/
  | called (callee : RoutineId) (depth : Nat)
  | completed (results : Nat) (steps : Nat)
  | terminated (code : ErrorCode) (span : Span) (steps : Nat)
  /-- A terminated run was to be terminated once more. -/
  | keptTermination (kept : ErrorCode) (ignored : ErrorCode)
  /-- A completed run was to be terminated. -/
  | keptCompletion (ignored : ErrorCode)

/-- How much a log is told: single instructions are traced. -/
inductive Event.Level where
  | trace
  | debug
  deriving DecidableEq, Repr

namespace Event

def Level.name : Level → String
  | trace => "TRACE"
  | debug => "DEBUG"

def level : Event → Level
  | executed _ _ _ => .trace
  | returnedImplicitly _ => .trace
  | _ => .debug

/-- A run is a span of time, which other events fall into. -/
def isRun : Event → Bool
  | runEntered _ => true
  | _ => false

/-- The fields of an event, each a name and a text. -/
def fields : Event → List (String × String)
  | runEntered routines => [("routines", toString routines)]
  | executed frame operation depth =>
    [("message", "execute"), ("routine", frame.routine.text), ("counter", toString frame.counter),
      ("kind", operation.inspect), ("depth", toString depth)]
  | returnedImplicitly routine => [("message", "implicit return"), ("routine", routine.text)]
  | called callee depth =>
    [("message", "call"), ("callee", callee.text), ("depth", toString depth)]
  | completed results steps =>
    [("message", "run completed"), ("results", toString results), ("steps", toString steps)]
  | terminated code span steps =>
    [("message", "run terminated"), ("code", code.code), ("span", span.text),
      ("steps", toString steps)]
  | keptTermination kept ignored =>
    [("message", "ignoring termination of a stopped run"), ("kept", kept.code),
      ("ignored", ignored.code)]
  | keptCompletion ignored =>
    [("message", "ignoring termination of a completed run"), ("ignored", ignored.code)]

end Event

/-- What a call on a machine answers, the machine after it, and what happened. -/
structure Reply (α : Type) where
  answer : α
  machine : Machine
  events : List Event

namespace Reply

/-- A call at which nothing happens that a log would be told. -/
def silent {α : Type} (answer : α) (m : Machine) : Reply α :=
  ⟨answer, m, []⟩

def map {α β : Type} (f : α → β) (r : Reply α) : Reply β :=
  ⟨f r.answer, r.machine, r.events⟩

/-- The reply with an event in front of all others. -/
def after {α : Type} (r : Reply α) (e : Event) : Reply α :=
  { r with events := e :: r.events }

/-- The reply with earlier events in front. -/
def afterAll {α : Type} (r : Reply α) (es : List Event) : Reply α :=
  { r with events := es ++ r.events }

end Reply

end ScriptMachine
