import ScriptMachine.Number.Arithmetic
import ScriptMachine.Proofs.Numbers.Monotone

/-!
# Arithmetic on numbers is exact arithmetic, rounded once

A finite number has an exact value, which is a rational number. The sum, the difference, the product
and the quotient of two finite numbers are what the sum, the difference, the product and the
quotient of their exact values are correctly rounded to. How an operation finds its result does not
enter into this: only exact values and the nearest of all numbers do.

* `Number.value?`: the exact value of a finite number.
* `Number.RoundsTo`: a number that an exact value is correctly rounded to.
* `add_roundsTo`, `sub_roundsTo`, `mul_roundsTo`, `div_roundsTo`: the four operations.
-/

namespace ScriptMachine

/-! ## Signs -/

namespace Sign

/-- Zero has no sign. -/
theorem apply_zero (s : Sign) : s.apply 0 = 0 := by
  cases s <;> rfl

/-- An integer is its absolute value with its sign. -/
theorem apply_natAbs (z : Int) : (if z < 0 then minus else plus).apply z.natAbs = z := by
  split <;> simp only [apply] <;> omega

/-- The other sign makes the integer of the other sign. -/
theorem apply_flip (s : Sign) (n : Nat) : s.flip.apply n = -s.apply n := by
  cases s <;> simp [flip, apply]

/-- Signs multiply as the integers do that they are the signs of. -/
theorem apply_times (s t : Sign) (m n : Nat) :
    (s.times t).apply (m * n) = s.apply m * t.apply n := by
  cases s <;> cases t <;> simp [times, flip, apply]

/-- A factor without a sign can be taken out. -/
theorem apply_mul (s : Sign) (m n : Nat) : s.apply (m * n) = s.apply m * n := by
  cases s <;> simp [apply]

/-- A quotient takes the sign of its divisor to the numerator. -/
theorem apply_div_apply (s t : Sign) (m n : Nat) :
    (s.apply m : ℚ) / t.apply n = (s.times t).apply m / n := by
  cases s <;> cases t <;> simp [times, flip, apply, neg_div, div_neg]

end Sign

/-! ## Exact values -/

namespace Number

/-- The exact value of a finite number. -/
def value? : Number → Option ℚ
  | finite s m => some (s.apply m.units / unitsPerOne)
  | _ => none

/-- The number is what the exact value `x` is correctly rounded to: `x`, in units, is a quotient
with a sign, and the quotient is rounded to the number. -/
inductive RoundsTo (x : ℚ) (n : Number) : Prop where
  | intro {sign : Sign} {num den : Nat} (hden : 0 < den)
      (hx : x * unitsPerOne = sign.apply num / den) (h : n.Rounds sign num den)

theorem unitsPerOne_ne_zero : (unitsPerOne : ℚ) ≠ 0 :=
  Nat.cast_ne_zero.mpr (Nat.ne_of_gt zero_lt_unitsPerOne)

variable {a b : Number} {x y : ℚ}

/-- Only finite numbers have an exact value. -/
theorem value?_eq_some_iff :
    a.value? = some x ↔ ∃ s m, a = finite s m ∧ x = s.apply m.units / unitsPerOne := by
  constructor
  · intro h
    cases a with
    | nan | infinity => cases h
    | finite s m => exact ⟨s, m, rfl, (Option.some.inj h).symm⟩
  · rintro ⟨s, m, rfl, rfl⟩
    rfl

theorem value?_neg (h : a.value? = some x) : (-a).value? = some (-x) := by
  obtain ⟨s, m, rfl, rfl⟩ := value?_eq_some_iff.mp h
  refine value?_eq_some_iff.mpr ⟨s.flip, m, rfl, ?_⟩
  rw [Sign.apply_flip, Int.cast_neg, neg_div]

/-! ## Rounding -/

/-- The number nearest to a quotient is what the value of that quotient is rounded to. -/
theorem ofRatio_roundsTo {sign : Sign} {num den : Nat} (hden : 0 < den)
    (hx : x * unitsPerOne = sign.apply num / den) : (ofRatio sign num den).RoundsTo x :=
  .intro hden hx ((rounds_iff hden).mpr rfl)

/-- A sum of units is rounded as the quotient by one; where it is zero its sign does not matter. -/
theorem ofSum_roundsTo (zeroSign : Sign) {z : Int} (hx : x * unitsPerOne = z) :
    (ofSum zeroSign z).RoundsTo x := by
  unfold ofSum
  split
  · next hz =>
    have hnum : x * unitsPerOne = (zeroSign.apply 0 : ℚ) / (1 : Nat) := by
      rw [hx, hz, Sign.apply_zero, Int.cast_zero, zero_div]
    -- nothing is nearer to zero than zero
    exact .intro Nat.one_pos hnum
      (.finite ((isNearest_iff Nat.one_pos).mpr (roundUnits_zero Nat.one_pos).symm))
  · refine ofRatio_roundsTo Nat.one_pos ?_
    rw [Sign.apply_natAbs, hx, Nat.cast_one, div_one]

/-! ## The four operations -/

theorem add_roundsTo (ha : a.value? = some x) (hb : b.value? = some y) :
    (a + b).RoundsTo (x + y) := by
  obtain ⟨s, m, rfl, rfl⟩ := value?_eq_some_iff.mp ha
  obtain ⟨t, n, rfl, rfl⟩ := value?_eq_some_iff.mp hb
  refine ofSum_roundsTo _ ?_
  rw [← add_div, div_mul_cancel₀ _ unitsPerOne_ne_zero, Int.cast_add]

/-- A difference is the sum with the number of the other sign. -/
theorem sub_roundsTo (ha : a.value? = some x) (hb : b.value? = some y) :
    (a - b).RoundsTo (x - y) := by
  rw [sub_eq_add_neg x y]
  exact add_roundsTo ha (value?_neg hb)

/-- A product counts the square of a unit, so it is divided by the units of one. -/
theorem mul_roundsTo (ha : a.value? = some x) (hb : b.value? = some y) :
    (a * b).RoundsTo (x * y) := by
  obtain ⟨s, m, rfl, rfl⟩ := value?_eq_some_iff.mp ha
  obtain ⟨t, n, rfl, rfl⟩ := value?_eq_some_iff.mp hb
  show (mul (finite s m) (finite t n)).RoundsTo _
  rw [mul]
  refine ofRatio_roundsTo zero_lt_unitsPerOne ?_
  rw [Sign.apply_times, Int.cast_mul, mul_assoc, div_mul_cancel₀ _ unitsPerOne_ne_zero,
    div_mul_eq_mul_div]

/-- In a quotient the unit cancels, so it is multiplied by the units of one. -/
theorem div_roundsTo (ha : a.value? = some x) (hb : b.value? = some y) (hy : y ≠ 0) :
    (a / b).RoundsTo (x / y) := by
  obtain ⟨s, m, rfl, rfl⟩ := value?_eq_some_iff.mp ha
  obtain ⟨t, n, rfl, rfl⟩ := value?_eq_some_iff.mp hb
  -- a divisor that is not zero has units
  have hn : n.units ≠ 0 := by
    intro h
    refine hy ?_
    rw [h, Sign.apply_zero, Int.cast_zero, zero_div]
  show (div (finite s m) (finite t n)).RoundsTo _
  rw [div, if_neg hn]
  refine ofRatio_roundsTo (Nat.pos_of_ne_zero hn) ?_
  rw [div_div_div_cancel_right₀ unitsPerOne_ne_zero, Sign.apply_div_apply, div_mul_eq_mul_div,
    Sign.apply_mul, Int.cast_mul, Int.cast_natCast]

end Number

end ScriptMachine
