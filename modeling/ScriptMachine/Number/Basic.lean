import ScriptMachine.Number.Rounding

/-!
# Numbers

The numbers of the language are the binary64 numbers. A finite one is a sign and a magnitude,
which counts units of `2 ^ -1074`, the smallest positive number: every finite magnitude is a whole
number of units, so sums, products, comparisons and decimal texts can be computed exactly before
they are rounded once.

* `Number`: not a number, an infinity, or a finite number.
* `Number.ofRatio`: the number nearest to an exact quotient.
* `Number.ofBits`, `Number.toBits`: the interchange form of 64 bits.
-/

namespace ScriptMachine

-- A power of a natural number is the core library's, also where other ones are in scope.
attribute [local instance (20000)] instPowNat

inductive Sign where
  | plus
  | minus
  deriving DecidableEq, Repr

namespace Sign

/-- The other sign. -/
def flip : Sign → Sign
  | plus => minus
  | minus => plus

/-- The sign of a product or a quotient. -/
def times : Sign → Sign → Sign
  | plus, s => s
  | minus, s => s.flip

/-- A magnitude as a signed integer. -/
def apply : Sign → Nat → Int
  | plus, n => n
  | minus, n => -n

/-- The sign bit in its place among 64 bits. -/
def bit : Sign → Nat
  | plus => 0
  | minus => 2 ^ (63 : Nat)

end Sign

/-- A unit is one halved this many times. -/
def unitPlaces : Nat := 1074

/-- One, in units. -/
def unitsPerOne : Nat := 2 ^ unitPlaces

/-- `2 ^ 1024` in units, the first magnitude that is too large. -/
def overflowUnits : Nat := 2 ^ (1024 + unitPlaces)

/-- The magnitude of a finite number in units of `2 ^ -1074`. -/
@[ext] structure Magnitude where
  units : Nat
  representable : Representable units
  bounded : units < overflowUnits
  deriving DecidableEq

/-- The exponent and fraction fields of a magnitude. The significand's leading bit, where there is
one, carries into the exponent field. -/
def Magnitude.fields (m : Magnitude) : Nat :=
  let k := m.units.log2 - 52
  k * 2 ^ (52 : Nat) + m.units / 2 ^ k

/-- A binary64 number. All that is not a number is one value: nothing tells two of them apart. -/
inductive Number where
  | nan
  | infinity (sign : Sign)
  | finite (sign : Sign) (magnitude : Magnitude)
  deriving DecidableEq

namespace Number

theorem zero_lt_overflowUnits : 0 < overflowUnits := Nat.two_pow_pos _

theorem zero_lt_unitsPerOne : 0 < unitsPerOne := Nat.two_pow_pos _

/-- The zero of a sign. -/
def zero (sign : Sign) : Number :=
  .finite sign ⟨0, representable_of_lt (by decide), zero_lt_overflowUnits⟩

instance : Inhabited Number := ⟨zero .plus⟩

/-- A count of units with a sign; too large a count is an infinity. -/
def ofUnits (sign : Sign) (units : Nat) (h : Representable units) : Number :=
  if hb : units < overflowUnits then .finite sign ⟨units, h, hb⟩ else .infinity sign

/-- The number nearest to `num / den` units, of two equally near ones the one with the even
significand. -/
def ofRatio (sign : Sign) (num den : Nat) : Number :=
  ofUnits sign (roundUnits num den) (representable_roundUnits num den)

/-- A quotient that is the count of a finite number gives back that number. -/
theorem ofRatio_units_mul (sign : Sign) (m : Magnitude) {den : Nat} (hd : 0 < den) :
    ofRatio sign (m.units * den) den = .finite sign m := by
  simp only [ofRatio, ofUnits, roundUnits_of_representable m.representable hd, m.bounded,
    dif_pos]

/-- The number nearest to an integer. -/
def ofInt (n : Int) : Number :=
  ofRatio (if n < 0 then .minus else .plus) (n.natAbs * unitsPerOne) 1

/-- Either zero. -/
def isZero : Number → Bool
  | .finite _ m => m.units == 0
  | _ => false

/-! ## The interchange form

From the highest bit down: the sign, eleven bits of exponent, 52 bits of fraction. An exponent
field of zero means that the fraction counts units; the highest exponent field is that of the
infinities and of what is not a number. -/

/-- The significand and the place of its last bit, from the fields of a finite number. -/
theorem representable_fields {exponent fraction : Nat} (hf : fraction < 2 ^ (52 : Nat)) :
    Representable (if exponent = 0 then fraction
      else (2 ^ (52 : Nat) + fraction) * 2 ^ (exponent - 1)) := by
  split
  · exact representable_of_lt (by omega)
  · exact ⟨_, _, by omega, rfl⟩

/-- The number with the given bits. -/
def ofBits (bits : UInt64) : Number :=
  let sign : Sign := if bits.toNat / 2 ^ (63 : Nat) = 0 then .plus else .minus
  let exponent := bits.toNat / 2 ^ (52 : Nat) % 2 ^ (11 : Nat)
  let fraction := bits.toNat % 2 ^ (52 : Nat)
  if exponent = 2 ^ (11 : Nat) - 1 then
    if fraction = 0 then .infinity sign else .nan
  else
    ofUnits sign
      (if exponent = 0 then fraction else (2 ^ (52 : Nat) + fraction) * 2 ^ (exponent - 1))
      (representable_fields (Nat.mod_lt _ (by decide)))

/-- The bits of a number. What is not a number is written as the quiet one of fraction `2 ^ 51`. -/
def toBits : Number → UInt64
  | .nan => 0x7ff8000000000000
  | .infinity sign => UInt64.ofNat (sign.bit + (2 ^ (11 : Nat) - 1) * 2 ^ (52 : Nat))
  | .finite sign m => UInt64.ofNat (sign.bit + m.fields)

end Number

end ScriptMachine
