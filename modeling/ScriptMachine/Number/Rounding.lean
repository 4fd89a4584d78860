/-!
# Rounding to 53 significant bits

A nonnegative quotient `num / den` is rounded to a natural number with at most 53 significant
bits, to the nearest such number, and of two equally near ones to the one with the even
significand. Numbers below `2 ^ 53` are their own significand, so the rounding of small
quotients is the rounding to a whole number.

* `Representable n`: `n` has at most 53 significant bits.
* `representable_roundUnits`: rounding yields such a number.
* `roundUnits_of_representable`: such a number is left as it is.
-/

namespace ScriptMachine

-- A power of a natural number is the core library's, also where other ones are in scope.
attribute [local instance (20000)] instPowNat

/-- The quotient rounded to the nearest natural number, a half going to the even neighbour. -/
def divNearestEven (num den : Nat) : Nat :=
  let floor := num / den
  let rest := num % den
  if 2 * rest < den then floor
  else if den < 2 * rest then floor + 1
  else if floor % 2 = 0 then floor
  else floor + 1

theorem div_le_divNearestEven (num den : Nat) : num / den ≤ divNearestEven num den := by
  unfold divNearestEven
  dsimp only
  -- rounding adds nothing or one
  split
  · omega
  · split
    · omega
    · split <;> omega

theorem divNearestEven_le (num den : Nat) : divNearestEven num den ≤ num / den + 1 := by
  unfold divNearestEven
  dsimp only
  split
  · omega
  · split
    · omega
    · split <;> omega

/-- A quotient without remainder is left as it is. -/
theorem divNearestEven_mul (n : Nat) {den : Nat} (h : 0 < den) :
    divNearestEven (n * den) den = n := by
  simp [divNearestEven, Nat.mul_div_cancel _ h, h]

/-- A number with at most 53 significant bits. -/
def Representable (n : Nat) : Prop :=
  ∃ significand exponent : Nat, significand < 2 ^ (53 : Nat) ∧ n = significand * 2 ^ exponent

theorem representable_of_lt {n : Nat} (h : n < 2 ^ (53 : Nat)) : Representable n :=
  ⟨n, 0, h, by simp⟩

/-- A significand that was rounded up to `2 ^ 53` still fits: it is `1 * 2 ^ 53`. -/
theorem representable_mul_two_pow {n : Nat} (h : n ≤ 2 ^ (53 : Nat)) (k : Nat) :
    Representable (n * 2 ^ k) := by
  by_cases hn : n = 2 ^ (53 : Nat)
  · exact ⟨1, 53 + k, by decide, by rw [hn, Nat.pow_add, Nat.one_mul]⟩
  · exact ⟨n, k, by omega, rfl⟩

/-- How many low bits a quotient loses when 53 significant bits are kept. -/
def excessBits (num den : Nat) : Nat :=
  (num / den).log2 - 52

theorem div_lt_two_pow_excessBits (num den : Nat) :
    num / den < 2 ^ (53 : Nat) * 2 ^ excessBits num den := by
  have h : num / den < 2 ^ ((num / den).log2 + 1) := Nat.lt_log2_self
  have hle : 2 ^ ((num / den).log2 + 1) ≤ 2 ^ (53 + excessBits num den) :=
    Nat.pow_le_pow_right (by decide) (by unfold excessBits; omega)
  rw [← Nat.pow_add]
  omega

/-- The quotient rounded to the nearest number with 53 significant bits, a tie going to the even
significand. -/
def roundUnits (num den : Nat) : Nat :=
  let k := excessBits num den
  divNearestEven num (den * 2 ^ k) * 2 ^ k

/-- What is kept of a quotient are 53 bits, or a carry out of them. -/
theorem divNearestEven_excessBits_le (num den : Nat) :
    divNearestEven num (den * 2 ^ excessBits num den) ≤ 2 ^ (53 : Nat) := by
  have h := divNearestEven_le num (den * 2 ^ excessBits num den)
  have hlt : num / (den * 2 ^ excessBits num den) < 2 ^ (53 : Nat) := by
    rw [← Nat.div_div_eq_div_mul, Nat.div_lt_iff_lt_mul (Nat.two_pow_pos _)]
    exact div_lt_two_pow_excessBits num den
  omega

theorem representable_roundUnits (num den : Nat) : Representable (roundUnits num den) :=
  representable_mul_two_pow (divNearestEven_excessBits_le num den) _

/-- A representable number is a multiple of the bits that rounding it would drop. -/
theorem two_pow_excessBits_dvd {n : Nat} (h : Representable n) :
    2 ^ excessBits n 1 ∣ n := by
  obtain ⟨s, e, hs, rfl⟩ := h
  by_cases hz : s * 2 ^ e = 0
  · simp [hz]
  · refine Nat.dvd_trans (Nat.pow_dvd_pow 2 ?_) (Nat.dvd_mul_left _ _)
    have hlt : s * 2 ^ e < 2 ^ (53 + e) := by
      rw [Nat.pow_add]
      exact Nat.mul_lt_mul_of_pos_right hs (Nat.two_pow_pos e)
    have := (Nat.log2_lt hz).2 hlt
    simp only [excessBits, Nat.div_one]
    omega

/-- Rounding leaves a quotient alone that is representable already. -/
theorem roundUnits_of_representable {n den : Nat} (hn : Representable n) (hd : 0 < den) :
    roundUnits (n * den) den = n := by
  have hk : excessBits (n * den) den = excessBits n 1 := by
    simp [excessBits, Nat.mul_div_cancel _ hd]
  obtain ⟨m, hm⟩ := two_pow_excessBits_dvd hn
  simp only [roundUnits, hk]
  -- in steps of what is dropped the number is whole, and so it is kept
  have hm' : n * den = m * (den * 2 ^ excessBits n 1) := by
    conv => lhs; rw [hm]
    rw [Nat.mul_comm (2 ^ _) m, Nat.mul_assoc, Nat.mul_comm den]
  rw [hm', divNearestEven_mul _ (Nat.mul_pos hd (Nat.two_pow_pos _)), Nat.mul_comm, ← hm]

theorem roundUnits_zero {den : Nat} (hd : 0 < den) : roundUnits 0 den = 0 := by
  simpa using roundUnits_of_representable (representable_of_lt (n := 0) (by decide)) hd

/-- Less than one half is rounded to zero. -/
theorem roundUnits_eq_zero {num den : Nat} (h : 2 * num < den) : roundUnits num den = 0 := by
  have hq : num / den = 0 := Nat.div_eq_of_lt (by omega)
  have hr : num % den = num := Nat.mod_eq_of_lt (by omega)
  simp [roundUnits, excessBits, divNearestEven, hq, hr, h]

/-- Rounding does not go below a power of two. -/
theorem two_pow_le_roundUnits {num den e : Nat} (h : 2 ^ e ≤ num / den) :
    2 ^ e ≤ roundUnits num den := by
  have hq : num / den ≠ 0 := by have := Nat.two_pow_pos e; omega
  have he : e ≤ (num / den).log2 := (Nat.le_log2 hq).2 h
  have hk : excessBits num den ≤ (num / den).log2 := by unfold excessBits; omega
  have hself : 2 ^ (num / den).log2 ≤ num / den := Nat.log2_self_le hq
  -- what is kept of the quotient has its first bit
  have hfloor : 2 ^ ((num / den).log2 - excessBits num den) ≤
      num / (den * 2 ^ excessBits num den) := by
    rw [← Nat.div_div_eq_div_mul, Nat.le_div_iff_mul_le (Nat.two_pow_pos _), ← Nat.pow_add,
      Nat.sub_add_cancel hk]
    exact hself
  -- and rounding does not go below what is kept
  have hmul := Nat.mul_le_mul_right (2 ^ excessBits num den)
    (Nat.le_trans hfloor (div_le_divNearestEven num (den * 2 ^ excessBits num den)))
  rw [← Nat.pow_add, Nat.sub_add_cancel hk] at hmul
  exact Nat.le_trans (Nat.pow_le_pow_right (by decide) he) hmul

end ScriptMachine
