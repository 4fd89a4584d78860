import ScriptMachine.Number.Basic

/-!
# Arithmetic on numbers

Each operation computes its result exactly, in units, and rounds it once. The results on infinities
and zeros are those of the binary64 standard: opposite infinities do not add, zero times infinity
and a quotient of two zeros or two infinities are not numbers.
-/

namespace ScriptMachine.Number

/-- The number of the other sign. -/
def neg : Number → Number
  | nan => nan
  | infinity s => infinity s.flip
  | finite s m => finite s.flip m

/-- The number nearest to a signed count of units; `zeroSign` is the sign of a sum of zero. -/
def ofSum (zeroSign : Sign) (units : Int) : Number :=
  if units = 0 then zero zeroSign
  else ofRatio (if units < 0 then .minus else .plus) units.natAbs 1

/-- The sum. A sum of zero is positive, except that of two negative zeros. -/
def add : Number → Number → Number
  | nan, _ => nan
  | _, nan => nan
  | infinity s, infinity t => if s = t then infinity s else nan
  | infinity s, finite _ _ => infinity s
  | finite _ _, infinity t => infinity t
  | finite s m, finite t n =>
    ofSum (if s = .minus ∧ t = .minus then .minus else .plus) (s.apply m.units + t.apply n.units)

/-- The difference. -/
def sub (a b : Number) : Number :=
  a.add b.neg

/-- The product. -/
def mul : Number → Number → Number
  | nan, _ => nan
  | _, nan => nan
  | infinity s, infinity t => infinity (s.times t)
  | infinity s, finite t n => if n.units = 0 then nan else infinity (s.times t)
  | finite s m, infinity t => if m.units = 0 then nan else infinity (s.times t)
  | finite s m, finite t n => ofRatio (s.times t) (m.units * n.units) unitsPerOne

/-- The quotient. -/
def div : Number → Number → Number
  | nan, _ => nan
  | _, nan => nan
  | infinity _, infinity _ => nan
  | infinity s, finite t _ => infinity (s.times t)
  | finite s _, infinity t => zero (s.times t)
  | finite s m, finite t n =>
    if n.units = 0 then
      if m.units = 0 then nan else infinity (s.times t)
    else ofRatio (s.times t) (m.units * unitsPerOne) n.units

instance : Neg Number := ⟨neg⟩
instance : Add Number := ⟨add⟩
instance : Sub Number := ⟨sub⟩
instance : Mul Number := ⟨mul⟩
instance : Div Number := ⟨div⟩

end ScriptMachine.Number
