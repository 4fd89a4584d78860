import ScriptMachine.Number.Text

/-!
# The layouts of a decimal

Digits times a power of ten are laid out without an exponent in one of three ways, or with an
exponent in one of two. Each layout has the digits that it was made from, but for zeros that its
point accounts for, so its decimal is the one that was to be written.

* `Digits.Plain`, `Digits.plain_positional`: the layouts without an exponent.
* `Digits.Scientific`, `Digits.scientific_exponential`: the layouts with one.
* `Digits.Plain.decimal_eq`, `Digits.Scientific.decimal_eq`: their decimals.
-/

namespace ScriptMachine

-- A power of a natural number is the core library's, also where other ones are in scope.
attribute [local instance (20000)] instPowNat

/-! ## Digits and their zeros -/

theorem digitsValue_append (ds es : List Digit) (n : Nat) :
    digitsValue (ds ++ es) n = digitsValue es (digitsValue ds n) :=
  List.foldl_append

theorem digitsValue_zeros (k n : Nat) : digitsValue (List.replicate k 0) n = n * 10 ^ k := by
  induction k generalizing n with
  | zero => exact (Nat.mul_one n).symm
  | succ k ih =>
    show digitsValue (List.replicate k 0) (10 * n + 0) = n * 10 ^ (k + 1)
    rw [ih, Nat.pow_succ, Nat.add_zero, Nat.mul_comm 10 n, Nat.mul_assoc, Nat.mul_comm 10]

theorem Exponent.value_ofInt (power : Int) : (Exponent.ofInt power).value = power := by
  rw [Exponent.value, ofInt, Digits.value_ofNat]
  by_cases h : power < 0
  · rw [if_pos h]
    show -(power.natAbs : Int) = power
    omega
  · rw [if_neg h]
    show (power.natAbs : Int) = power
    omega

namespace Digits

variable {ds : Digits} {e : Int} {m : Mantissa}

/-! ## Without an exponent -/

/-- The ways to write digits times a power of ten without an exponent. -/
inductive Plain (ds : Digits) (e : Int) : Mantissa → Prop where
  /-- Zeros fill up to the point, which is not written. -/
  | whole (h : 0 ≤ e) : Plain ds e (.whole ⟨ds.head, ds.tail ++ List.replicate e.toNat 0⟩)
  /-- The point stands among the digits. -/
  | among {front back : List Digit} (h : e < 0) (hdigits : front ++ back = ds.tail)
      (hplaces : (back.length : Int) = -e) : Plain ds e (.pointed ⟨ds.head, front⟩ back)
  /-- Zeros stand between the point and the digits. -/
  | behind {zeros : Nat} (h : e < 0) (hplaces : ((zeros + ds.toList.length : Nat) : Int) = -e) :
      Plain ds e (.pointed ⟨0, []⟩ (List.replicate zeros 0 ++ ds.toList))

theorem plain_positional (ds : Digits) (e : Int) :
    ∃ m, Unsigned.positional ds e = .decimal m none ∧ ds.Plain e m := by
  unfold Unsigned.positional
  split
  · next h => exact ⟨_, rfl, .whole h⟩
  · next h =>
    dsimp only
    split
    · next hfront =>
      refine ⟨_, rfl, .among (by omega) (List.take_append_drop _ _) ?_⟩
      rw [List.length_drop]
      omega
    · next hfront =>
      refine ⟨_, rfl, .behind (by omega) ?_⟩
      -- the point is in front of all digits, so there are zeros behind it to make up the places
      have hlength : ds.toList.length = ds.tail.length + 1 := rfl
      omega

/-- The decimal of a layout without an exponent: the zeros that are written are digits. -/
theorem Plain.decimal_eq (h : ds.Plain e m) : m.decimal none =
    if 0 ≤ e then ⟨ds.value * 10 ^ e.toNat, 0⟩ else ⟨ds.value, e⟩ := by
  cases h with
  | whole h =>
    rw [if_pos h]
    show (⟨digitsValue (ds.toList ++ List.replicate e.toNat 0) 0, 0⟩ : Decimal) = _
    rw [digitsValue_append, digitsValue_zeros]
    rfl
  | @among front back h hdigits hplaces =>
    rw [if_neg (Int.not_le.mpr h)]
    show (⟨digitsValue (ds.head :: (front ++ back)) 0, 0 - (back.length : Int)⟩ : Decimal) = _
    rw [hdigits, hplaces, Int.zero_sub, Int.neg_neg]
    rfl
  | @behind zeros h hplaces =>
    rw [if_neg (Int.not_le.mpr h)]
    show (⟨digitsValue (List.replicate zeros 0 ++ ds.toList) 0,
      0 - ((List.replicate zeros (0 : Digit) ++ ds.toList).length : Int)⟩ : Decimal) = _
    rw [List.length_append, List.length_replicate, hplaces, digitsValue_append, digitsValue_zeros,
      Nat.zero_mul, Int.zero_sub, Int.neg_neg]
    rfl

/-! ## With an exponent -/

/-- The ways to write digits with one of them in front of the point. -/
inductive Scientific (ds : Digits) : Mantissa → Prop where
  /-- The only digit, without a point. -/
  | whole (h : ds.tail = []) : Scientific ds (.whole ds)
  | pointed (h : ds.tail ≠ []) : Scientific ds (.pointed ⟨ds.head, []⟩ ds.tail)

theorem scientific_exponential (ds : Digits) (e : Int) :
    ∃ m, Unsigned.exponential ds e = .decimal m (some (.ofInt (e + ds.tail.length))) ∧
      ds.Scientific m := by
  unfold Unsigned.exponential
  dsimp only
  split
  · next h => exact ⟨_, rfl, .whole h⟩
  · next h => exact ⟨_, rfl, .pointed h⟩

/-- The exponent makes up for the digits that are behind the point. -/
theorem Scientific.decimal_eq (h : ds.Scientific m) (e : Int) :
    m.decimal (some (.ofInt (e + ds.tail.length))) = ⟨ds.value, e⟩ := by
  -- in either layout the digits are all of them, and those behind the first one are behind the
  -- point
  have hmantissa : m.digits = ds.toList ∧ m.places = ds.tail.length := by
    cases h with
    | whole h => exact ⟨rfl, (congrArg List.length h).symm⟩
    | pointed h => exact ⟨rfl, rfl⟩
  show (⟨digitsValue m.digits 0, (Exponent.ofInt _).value - m.places⟩ : Decimal) = _
  rw [hmantissa.1, hmantissa.2, Exponent.value_ofInt, Int.add_sub_cancel]
  rfl

end Digits

end ScriptMachine
