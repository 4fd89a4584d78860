import Mathlib.Algebra.Order.Field.Power
import Mathlib.Algebra.Order.Field.Rat
import Mathlib.Tactic.Ring
import ScriptMachine.Number.Shortest
import ScriptMachine.Proofs.Numbers.Nearest

/-!
# Rounding keeps the order

A greater quotient is not rounded to a lesser number. So the decimals that are read as one number
are a range: what lies between two of them is read as that number as well.

* `roundUnits_le_of_le`: rounding keeps the order of quotients.
* `Decimal.value`, `Decimal.units_le`: the exact value of a decimal, and the order of the units that
  decimals are rounded to.
* `Magnitude.isReadFrom_of_between`: what lies between two decimals that are read as a magnitude.
-/

namespace ScriptMachine

/-! ## Quotients -/

/-- Of two numbers, both with 53 significant bits, the one nearest to the greater quotient is not
the lesser. -/
theorem IsNearest.le_of_lt {num num' den u v : Nat} (hd : 0 < den) (hlt : num < num')
    (hu : IsNearest num den u) (hv : IsNearest num' den v) : u ≤ v := by
  by_contra hvu
  have hmul : v * den < u * den := Nat.mul_lt_mul_of_pos_right (Nat.lt_of_not_le hvu) hd
  -- each is nearest to its own quotient, and crossed over they could not both be
  have hnum := hu.nearest v hv.representable
  have hnum' := hv.nearest u hu.representable
  simp only [Nat.dist] at hnum hnum'
  omega

theorem roundUnits_mono {num num' den : Nat} (hd : 0 < den) (h : num ≤ num') :
    roundUnits num den ≤ roundUnits num' den := by
  rcases Nat.eq_or_lt_of_le h with rfl | hlt
  · exact Nat.le_refl _
  · exact (isNearest_roundUnits hd num).le_of_lt hd hlt (isNearest_roundUnits hd num')

/-- A quotient can be written with another denominator. -/
theorem IsNearest.mul_right {num den units c : Nat} (h : IsNearest num den units) (hc : 0 < c) :
    IsNearest (num * c) (den * c) units := by
  -- all distances grow by the same factor
  have hdist : ∀ n, Nat.dist (n * (den * c)) (num * c) = Nat.dist (n * den) num * c := by
    intro n
    rw [← Nat.mul_assoc, Nat.dist_mul_right]
  refine ⟨h.representable, fun n hn => ?_, fun n hn hne heq => h.even n hn hne ?_⟩
  · rw [hdist, hdist]
    exact Nat.mul_le_mul_right c (h.nearest n hn)
  · rw [hdist, hdist] at heq
    exact Nat.eq_of_mul_eq_mul_right hc heq

theorem roundUnits_mul_right {num den c : Nat} (hd : 0 < den) (hc : 0 < c) :
    roundUnits (num * c) (den * c) = roundUnits num den :=
  ((isNearest_iff (Nat.mul_pos hd hc)).mp ((isNearest_roundUnits hd num).mul_right hc)).symm

/-- Rounding keeps the order of quotients. -/
theorem roundUnits_le_of_le {num den num' den' : Nat} (hd : 0 < den) (hd' : 0 < den')
    (h : num * den' ≤ num' * den) : roundUnits num den ≤ roundUnits num' den' := by
  rw [← roundUnits_mul_right hd hd', ← roundUnits_mul_right hd' hd, Nat.mul_comm den' den]
  exact roundUnits_mono (Nat.mul_pos hd hd') h

/-! ## Decimals -/

namespace Decimal

/-- The exact value of a decimal. -/
def value (d : Decimal) : ℚ :=
  d.digits * 10 ^ d.exponent

/-- The units of the number nearest to a decimal, which may be too many for a finite one. -/
def units (d : Decimal) : Nat :=
  roundUnits d.num d.den

/-- The quotient that a decimal is rounded from is its value, in units. -/
theorem num_div_den (d : Decimal) : (d.num : ℚ) / d.den = d.value * unitsPerOne := by
  -- of the two powers of ten one is for each sign of the exponent
  have hten : (10 : ℚ) ^ d.exponent.toNat / 10 ^ (-d.exponent).toNat = 10 ^ d.exponent := by
    rw [← zpow_natCast, ← zpow_natCast, ← zpow_sub₀ (by norm_num)]
    congr 1
    omega
  rw [num, den, value, ← hten]
  push_cast
  ring

theorem units_le {c d : Decimal} (h : c.value ≤ d.value) : c.units ≤ d.units := by
  refine roundUnits_le_of_le c.den_pos d.den_pos ?_
  have hc : (0 : ℚ) < c.den := Nat.cast_pos.mpr c.den_pos
  have hd : (0 : ℚ) < d.den := Nat.cast_pos.mpr d.den_pos
  -- values in the order of quotients, and these over one denominator
  have hquot : (c.num : ℚ) / c.den ≤ d.num / d.den := by
    rw [num_div_den, num_div_den]
    exact mul_le_mul_of_nonneg_right h (Nat.cast_nonneg _)
  rw [div_le_div_iff₀ hc hd] at hquot
  exact_mod_cast hquot

theorem units_eq {c d : Decimal} (h : c.value = d.value) : c.units = d.units :=
  Nat.le_antisymm (units_le (le_of_eq h)) (units_le (le_of_eq h.symm))

end Decimal

namespace Magnitude

variable {m : Magnitude} {b c d : Decimal}

/-- A decimal is read as the magnitude of the units that it is rounded to. -/
theorem isReadFrom_iff_units : m.isReadFrom d = true ↔ d.units = m.units := by
  rw [isReadFrom_iff, d.toNumber_eq, Number.ofRatio, Number.ofUnits]
  constructor
  · intro h
    split at h
    · exact congrArg Magnitude.units (Number.finite.inj h).2
    · cases h
  · intro h
    have hbounded : roundUnits d.num d.den < overflowUnits := lt_of_eq_of_lt h m.bounded
    rw [dif_pos hbounded]
    exact congrArg _ (Magnitude.ext h)

theorem isReadFrom_of_value_eq (hd : m.isReadFrom d = true) (h : c.value = d.value) :
    m.isReadFrom c = true :=
  isReadFrom_iff_units.mpr ((Decimal.units_eq h).trans (isReadFrom_iff_units.mp hd))

/-- The decimals that are read as a magnitude are a range. -/
theorem isReadFrom_of_between (hb : m.isReadFrom b = true) (hd : m.isReadFrom d = true)
    (hbc : b.value ≤ c.value) (hcd : c.value ≤ d.value) : m.isReadFrom c = true := by
  rw [isReadFrom_iff_units] at hb hd ⊢
  have hlow := Decimal.units_le hbc
  have hhigh := Decimal.units_le hcd
  omega

theorem isReadFrom_exact (m : Magnitude) : m.isReadFrom (Decimal.exact m) = true :=
  isReadFrom_iff.mpr (Decimal.toNumber_exact .plus m)

end Magnitude

end ScriptMachine
