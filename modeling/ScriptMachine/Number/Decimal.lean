import ScriptMachine.Number.Basic

/-!
# Decimals

A decimal is a whole number of tens to a power. Its number is the binary64 number nearest to it,
found from the exact quotient.

* `Decimal.toNumber`: the nearest number.
* `Decimal.toNumber_eq`: a decimal far outside the range needs no power of ten to be computed, and
  gets the number that the exact quotient would give.
-/

namespace ScriptMachine

-- A power of a natural number is the core library's, also where other ones are in scope.
attribute [local instance (20000)] instPowNat

/-- The value `digits * 10 ^ exponent`. -/
structure Decimal where
  digits : Nat
  exponent : Int
  deriving DecidableEq, Repr

namespace Decimal

/-- The numerator of a decimal in units. -/
def num (d : Decimal) : Nat :=
  d.digits * 10 ^ d.exponent.toNat * unitsPerOne

/-- The denominator of a decimal in units. -/
def den (d : Decimal) : Nat :=
  10 ^ (-d.exponent).toNat

/-- Ten to this power is at least `2 ^ 1024`. -/
def overflowTens : Nat := 309

/-- Ten to the negative of this power is at most a quarter of a unit. -/
def underflowTens : Nat := 325

/-- No digit other than zero, or less than half a unit: the digits are less than twice ten to the
place of their highest bit. -/
def vanishes (d : Decimal) : Bool :=
  d.digits = 0 || d.exponent + d.digits.log2 ≤ -underflowTens

/-- A power of ten that is too large, whatever the digits. -/
def overflows (d : Decimal) : Bool :=
  d.digits ≠ 0 && overflowTens ≤ d.exponent

theorem overflowUnits_le_ten_pow : overflowUnits ≤ 10 ^ overflowTens * unitsPerOne := by
  decide +kernel

theorem four_units_le_ten_pow : 4 * unitsPerOne ≤ 10 ^ underflowTens := by
  decide +kernel

/-- The number of the given sign nearest to a decimal. -/
def toNumber (sign : Sign) (d : Decimal) : Number :=
  if d.vanishes then .zero sign
  else if d.overflows then .infinity sign
  else .ofRatio sign d.num d.den

theorem den_pos (d : Decimal) : 0 < d.den := Nat.pow_pos (by decide)

theorem roundUnits_of_vanishes {d : Decimal} (h : d.vanishes = true) :
    roundUnits d.num d.den = 0 := by
  by_cases hd : d.digits = 0
  · simp [num, hd, roundUnits_zero d.den_pos]
  · have he : d.exponent + d.digits.log2 ≤ -underflowTens := by simpa [vanishes, hd] using h
    have hlt : d.digits < 2 * 2 ^ d.digits.log2 := by
      rw [Nat.mul_comm, ← Nat.pow_succ]
      exact Nat.lt_log2_self
    have hbits : 2 ^ d.digits.log2 ≤ 10 ^ d.digits.log2 := Nat.pow_le_pow_left (by decide) _
    have hden : 10 ^ underflowTens * 10 ^ d.digits.log2 ≤ d.den := by
      rw [den, ← Nat.pow_add]
      exact Nat.pow_le_pow_right (by decide) (by omega)
    have hnum : d.num = d.digits * unitsPerOne := by
      simp [num, Int.toNat_of_nonpos (show d.exponent ≤ 0 by omega)]
    have hunits := Nat.mul_lt_mul_of_pos_right hlt Number.zero_lt_unitsPerOne
    have htens := Nat.mul_le_mul four_units_le_ten_pow hbits
    refine roundUnits_eq_zero ?_
    calc 2 * d.num < 2 * (2 * 2 ^ d.digits.log2 * unitsPerOne) := by omega
      _ = 4 * unitsPerOne * 2 ^ d.digits.log2 := by
          rw [Nat.mul_assoc 2, Nat.mul_comm _ unitsPerOne, ← Nat.mul_assoc, ← Nat.mul_assoc]
      _ ≤ d.den := Nat.le_trans htens hden

theorem overflowUnits_le_of_overflows {d : Decimal} (h : d.overflows = true) :
    overflowUnits ≤ roundUnits d.num d.den := by
  have hd : d.digits ≠ 0 ∧ (overflowTens : Int) ≤ d.exponent := by simpa [overflows] using h
  have hden : d.den = 1 := by
    simp [den, Int.toNat_of_nonpos (show -d.exponent ≤ 0 by omega)]
  refine two_pow_le_roundUnits ?_
  rw [hden, Nat.div_one, num]
  have hpow : 10 ^ overflowTens ≤ 10 ^ d.exponent.toNat :=
    Nat.pow_le_pow_right (by decide) (by omega)
  exact Nat.le_trans overflowUnits_le_ten_pow (Nat.mul_le_mul_right _
    (Nat.le_trans hpow (Nat.le_mul_of_pos_left _ (by omega))))

/-- The number of a decimal is the one nearest to its exact value, however large or small. -/
theorem toNumber_eq (sign : Sign) (d : Decimal) :
    d.toNumber sign = .ofRatio sign d.num d.den := by
  unfold toNumber
  split
  · next h => simp [Number.ofRatio, Number.ofUnits, roundUnits_of_vanishes h, Number.zero,
      Number.zero_lt_overflowUnits]
  · split
    · next h =>
      simp [Number.ofRatio, Number.ofUnits, Nat.not_lt.2 (overflowUnits_le_of_overflows h)]
    · rfl

end Decimal

end ScriptMachine
