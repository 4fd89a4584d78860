/-!
# Spans

A span is the range of the program's source that an instruction was made from. The machine reads no
source: it hands the span on to a diagnostic.
-/

namespace ScriptMachine

/-- The bytes of a source from `start` up to, and without, `stop`. -/
structure Span where
  start : UInt32
  stop : UInt32
  deriving DecidableEq, Repr

namespace Span

/-- The span of an instruction that has no source. -/
def synthetic : Span := ⟨0, 0⟩

instance : Inhabited Span := ⟨synthetic⟩

def text (s : Span) : String :=
  toString s.start.toNat ++ ".." ++ toString s.stop.toNat

end Span

end ScriptMachine
