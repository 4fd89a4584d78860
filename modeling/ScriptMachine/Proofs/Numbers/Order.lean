import ScriptMachine.Number.Order

/-!
# Equality and order of numbers

Positions tell numbers apart, except for the two zeros. So equality of positions is equality of
numbers as the binary64 standard has it.

* `Number.Equal`, `Number.equals_iff`: equal numbers, without positions.
* `Number.order?_eq_some_iff`: the order of two numbers is that of their positions.
-/

namespace ScriptMachine

/-- A signed integer has its magnitude and, unless it is zero, its sign. -/
theorem Sign.apply_inj {s t : Sign} {m n : Nat} :
    s.apply m = t.apply n ↔ m = n ∧ (s = t ∨ m = 0) := by
  cases s <;> cases t <;> simp [apply] <;> omega

namespace Number

theorem isZero_iff {n : Number} : n.isZero = true ↔ ∃ s, n = zero s := by
  constructor
  · intro h
    cases n with
    | nan | infinity => cases h
    | finite s m => exact ⟨s, congrArg (finite s) (Magnitude.ext (beq_iff_eq.mp h))⟩
  · rintro ⟨s, rfl⟩
    rfl

/-- A number equals itself, unless it is `nan`, and either zero equals the other. -/
inductive Equal : Number → Number → Prop where
  | same {n : Number} (h : n ≠ nan) : Equal n n
  | zeros (s t : Sign) : Equal (zero s) (zero t)

variable {a b : Number}

theorem exists_position (h : a ≠ nan) : ∃ x, a.position? = some x :=
  Option.ne_none_iff_exists'.mp (mt position?_eq_none_iff.mp h)

theorem ne_nan_of_position {x : Int} (h : a.position? = some x) : a ≠ nan := by
  rintro rfl
  cases h

theorem position?_zero (s : Sign) : (zero s).position? = some 0 := by
  cases s <;> rfl

/-- Only the zeros share a position. -/
theorem equal_of_position {x : Int} (ha : a.position? = some x) (hb : b.position? = some x) :
    a.Equal b := by
  cases a with
  | nan => cases ha
  | infinity s =>
    cases b with
    | nan => cases hb
    | infinity t =>
      cases ha
      obtain ⟨-, rfl | hzero⟩ := Sign.apply_inj.mp (Option.some.inj hb)
      · exact .same nofun
      · exact absurd hzero (Nat.ne_of_gt zero_lt_overflowUnits)
    | finite t n =>
      cases ha
      -- an infinity is beyond every finite number
      have hunits := (Sign.apply_inj.mp (Option.some.inj hb)).1
      exact absurd hunits (Nat.ne_of_lt n.bounded)
  | finite s m =>
    cases b with
    | nan => cases hb
    | infinity t =>
      cases hb
      have hunits := (Sign.apply_inj.mp (Option.some.inj ha)).1
      exact absurd hunits (Nat.ne_of_lt m.bounded)
    | finite t n =>
      cases ha
      obtain ⟨hunits, hsign⟩ := Sign.apply_inj.mp (Option.some.inj hb)
      obtain rfl : n = m := Magnitude.ext hunits
      -- only at zero may the signs differ
      rcases hsign with rfl | hzero
      · exact .same nofun
      · obtain ⟨s', hs⟩ := isZero_iff.mp (show (finite s n).isZero = true from beq_iff_eq.mpr hzero)
        obtain ⟨t', ht⟩ := isZero_iff.mp (show (finite t n).isZero = true from beq_iff_eq.mpr hzero)
        rw [hs, ht]
        exact .zeros s' t'

theorem equals_iff : a.equals b = true ↔ a.Equal b := by
  rw [equals_eq_true_iff]
  constructor
  · rintro ⟨x, ha, hb⟩
    exact equal_of_position ha hb
  · intro h
    cases h with
    | same h =>
      obtain ⟨x, hx⟩ := exists_position h
      exact ⟨x, hx, hx⟩
    | zeros s t => exact ⟨0, position?_zero s, position?_zero t⟩

variable (a b) in
theorem equals_comm : a.equals b = b.equals a := by
  rw [Bool.eq_iff_iff, equals_eq_true_iff, equals_eq_true_iff]
  exact exists_congr fun _ => and_comm

theorem order?_eq_some_iff {o : Ordering} :
    a.order? b = some o ↔
      ∃ x y, a.position? = some x ∧ b.position? = some y ∧ compare x y = o := by
  unfold order?
  cases a.position? <;> cases b.position? <;> simp

end Number

end ScriptMachine
