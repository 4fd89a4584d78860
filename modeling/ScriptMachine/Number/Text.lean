import ScriptMachine.Number.Literal.Scan
import ScriptMachine.Number.Shortest
import ScriptMachine.Text.Blank

/-!
# Numbers as texts

A number is rendered as the literal of its shortest decimal, and a text has the number of the
literal that it starts with, blanks apart. Either zero is rendered `0`, and what is not a number is
rendered as a word that is no literal.

* `Number.literal?`: the literal that a number is rendered as.
* `Number.text`: the rendered text.
* `Number.leading?`: the number at the start of a text.
-/

namespace ScriptMachine

-- A power of a natural number is the core library's, also where other ones are in scope.
attribute [local instance (20000)] instPowNat

/-! ## The two layouts of a decimal -/

/-- Digits times a power of ten without an exponent: zeros fill up to the point, on either
side. -/
def Unsigned.positional (ds : Digits) (exponent : Int) : Unsigned :=
  if 0 ≤ exponent then
    .decimal (.whole ⟨ds.head, ds.tail ++ List.replicate exponent.toNat 0⟩) none
  else
    let places := (-exponent).toNat
    if places ≤ ds.tail.length then
      let front := ds.tail.length - places
      .decimal (.pointed ⟨ds.head, ds.tail.take front⟩ (ds.tail.drop front)) none
    else
      .decimal (.pointed ⟨0, []⟩
        (List.replicate (places - ds.toList.length) 0 ++ ds.toList)) none

/-- The exponent of a power of ten, with a small letter and always with a sign. -/
def Exponent.ofInt (power : Int) : Exponent :=
  ⟨false, some (if power < 0 then .minus else .plus), Digits.ofNat power.natAbs⟩

/-- Digits times a power of ten with one digit in front of the point. -/
def Unsigned.exponential (ds : Digits) (exponent : Int) : Unsigned :=
  let mantissa : Mantissa :=
    if ds.tail = [] then .whole ds else .pointed ⟨ds.head, []⟩ ds.tail
  .decimal mantissa (some (.ofInt (exponent + ds.tail.length)))

namespace Magnitude

/-- The least magnitude that is written without an exponent: the number nearest to `0.000001`. -/
def leastPositional : Nat :=
  roundUnits unitsPerOne (10 ^ (6 : Nat))

/-- The least magnitude above the positional ones: `10 ^ 21`. -/
def leastLarge : Nat :=
  10 ^ (21 : Nat) * unitsPerOne

/-- Written without an exponent. -/
def isPositional (m : Magnitude) : Bool :=
  leastPositional ≤ m.units && m.units < leastLarge

/-- The literal of a magnitude other than zero. -/
def literal (m : Magnitude) : Unsigned :=
  let d := Decimal.shortest m
  if m.isPositional then .positional (Digits.ofNat d.digits) d.exponent
  else .exponential (Digits.ofNat d.digits) d.exponent

end Magnitude

/-- Only a negative sign is written. -/
def Sign.written : Sign → Option Sign
  | .plus => none
  | .minus => some .minus

namespace Number

/-- The literal that a number is rendered as. -/
def literal? : Number → Option Literal
  | nan => none
  | infinity s => some ⟨s.written, .infinity⟩
  | finite s m =>
    if m.units = 0 then some ⟨none, .decimal (.whole ⟨0, []⟩) none⟩
    else some ⟨s.written, m.literal⟩

/-- The text of a number as programs see it. -/
def text (n : Number) : String :=
  match n.literal? with
  | some l => String.ofList l.text
  | none => "NaN"

/-- The number of the literal that a text starts with, after any blanks. What follows the literal
does not matter. -/
def leading? (text : String) : Option Number :=
  (Literal.scan (dropBlanks text.toList)).map fun found => found.1.value

end Number

end ScriptMachine
