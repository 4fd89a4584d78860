import Mathlib.Data.Nat.Dist
import ScriptMachine.Number.Decimal

/-!
# Rounding is to the nearest

Rounding is defined by what it computes. What it comes to is known without that: of all numbers with
53 significant bits none is nearer to the quotient, and where another one is as near, it is the one
with the even significand. There is only one such number.

* `IsNearest`: a count of units that a quotient is correctly rounded to.
* `isNearest_iff`: rounding finds it, and there is no other.
* `Number.Rounds`, `Number.rounds_iff`: the same for numbers, which may be too large.
* `Decimal.rounds_toNumber`: the number of a decimal is the correctly rounded one.
-/

namespace ScriptMachine

/-- The last of the 53 bits of a number is zero, or it has fewer of them and is even. -/
def HasEvenSignificand (n : Nat) : Prop :=
  2 ^ (excessBits n 1 + 1) ∣ n

/-- The units that `num / den` is rounded to. Distances are compared times `den`. -/
structure IsNearest (num den units : Nat) : Prop where
  representable : Representable units
  nearest : ∀ n, Representable n → Nat.dist (units * den) num ≤ Nat.dist (n * den) num
  even : ∀ n, Representable n → n ≠ units →
    Nat.dist (n * den) num = Nat.dist (units * den) num → HasEvenSignificand units

/-! ## Whole numbers -/

theorem num_eq_mul_add_mod (num den : Nat) : num = num / den * den + num % den := by
  rw [Nat.mul_comm, Nat.div_add_mod]

/-- A multiple is on one side of a gap between two neighbours. -/
theorem mul_le_or_add_le_mul (n k den : Nat) : n * den ≤ k * den ∨ k * den + den ≤ n * den := by
  rcases Nat.lt_or_ge k n with h | h
  · exact .inr (Nat.succ_mul k den ▸ Nat.mul_le_mul_right den h)
  · exact .inl (Nat.mul_le_mul_right den h)

/-- Two multiples are apart. -/
theorem add_le_mul_or_add_le_mul {n k : Nat} (h : n ≠ k) (den : Nat) :
    n * den + den ≤ k * den ∨ k * den + den ≤ n * den := by
  rcases Nat.lt_or_gt_of_ne h with h | h
  · exact .inl (Nat.succ_mul n den ▸ Nat.mul_le_mul_right den h)
  · exact .inr (Nat.succ_mul k den ▸ Nat.mul_le_mul_right den h)

/-- No whole number is nearer to a quotient than the one it is rounded to. -/
theorem dist_divNearestEven_le {den : Nat} (hd : 0 < den) (num n : Nat) :
    Nat.dist (divNearestEven num den * den) num ≤ Nat.dist (n * den) num := by
  have hnum := num_eq_mul_add_mod num den
  have hrest : num % den < den := Nat.mod_lt num hd
  have hsucc : (num / den + 1) * den = num / den * den + den := Nat.succ_mul _ _
  -- any other number is at or beyond one of the two neighbours
  have hn := mul_le_or_add_le_mul n (num / den) den
  unfold divNearestEven
  dsimp only
  split_ifs <;> simp only [hsucc, Nat.dist] <;> omega

/-- Where another one is as near, the quotient is rounded to an even one. -/
theorem even_divNearestEven {num den n : Nat} (hd : 0 < den) (hne : n ≠ divNearestEven num den)
    (h : Nat.dist (n * den) num = Nat.dist (divNearestEven num den * den) num) :
    divNearestEven num den % 2 = 0 := by
  have hnum := num_eq_mul_add_mod num den
  have hrest : num % den < den := Nat.mod_lt num hd
  have hsucc : (num / den + 1) * den = num / den * den + den := Nat.succ_mul _ _
  have hn := add_le_mul_or_add_le_mul hne den
  unfold divNearestEven at h hn ⊢
  dsimp only at h hn ⊢
  -- unless the remainder is a half, the other one is farther away
  split_ifs at h hn ⊢ <;> simp only [hsucc, Nat.dist] at h hn <;> omega

/-! ## Numbers with 53 significant bits -/

/-- Where bits are dropped, the quotient has a bit in front of the 52 that are kept. -/
theorem two_pow_mul_le_of_excessBits_pos {num den : Nat} (hk : 0 < excessBits num den) :
    2 ^ 52 * (den * 2 ^ excessBits num den) ≤ num := by
  have hlog : 52 + excessBits num den = (num / den).log2 := by
    unfold excessBits at hk ⊢
    omega
  -- a quotient of which bits are dropped has some
  have hq : num / den ≠ 0 := by
    intro h0
    rw [h0] at hlog
    have hzero : Nat.log2 0 = 0 := by decide
    omega
  have hself := Nat.log2_self_le hq
  rw [← hlog, Nat.pow_add] at hself
  calc 2 ^ 52 * (den * 2 ^ excessBits num den)
      = 2 ^ 52 * 2 ^ excessBits num den * den := by
          rw [Nat.mul_comm den, Nat.mul_assoc]
    _ ≤ num / den * den := Nat.mul_le_mul_right den hself
    _ ≤ num := Nat.div_mul_le_self num den

/-- A number with 53 significant bits lies on the grid that a quotient is rounded to, or below all
of the quotients that are rounded to that grid. -/
theorem Representable.dvd_or_lt {n : Nat} (h : Representable n) (k : Nat) :
    2 ^ k ∣ n ∨ 0 < k ∧ n < 2 ^ 52 * 2 ^ k := by
  -- bits that the number does not have are those that the grid drops
  by_cases hk : k ≤ excessBits n 1
  · exact .inl (Nat.dvd_trans (Nat.pow_dvd_pow 2 hk) (two_pow_excessBits_dvd h))
  · refine .inr ⟨by omega, ?_⟩
    rw [← Nat.pow_add]
    by_cases hn : n = 0
    · rw [hn]
      exact Nat.two_pow_pos _
    · refine (Nat.log2_lt hn).mp ?_
      simp only [excessBits, Nat.div_one] at hk
      omega

theorem hasEvenSignificand_mul_two_pow {q : Nat} (hle : q ≤ 2 ^ 53) (heven : q % 2 = 0) (k : Nat) :
    HasEvenSignificand (q * 2 ^ k) := by
  obtain ⟨p, rfl⟩ := Nat.dvd_of_mod_eq_zero heven
  by_cases hp : 2 * p * 2 ^ k = 0
  · rw [HasEvenSignificand, hp]
    exact Nat.dvd_zero _
  · by_cases hcarry : 2 * p = 2 ^ 53
    · -- rounded up to a power of two, it has one bit more in front
      rw [HasEvenSignificand, hcarry, ← Nat.pow_add]
      refine Nat.pow_dvd_pow 2 ?_
      rw [excessBits, Nat.div_one, Nat.log2_two_pow]
      omega
    · -- with 53 bits in all, the last one is that of `q`
      have hlt : 2 * p * 2 ^ k < 2 ^ (53 + k) := by
        rw [Nat.pow_add]
        exact Nat.mul_lt_mul_of_pos_right (by omega) (Nat.two_pow_pos k)
      have hlog := (Nat.log2_lt hp).mpr hlt
      have hexcess : excessBits (2 * p * 2 ^ k) 1 + 1 ≤ k + 1 := by
        rw [excessBits, Nat.div_one]
        omega
      refine Nat.dvd_trans (Nat.pow_dvd_pow 2 hexcess) ⟨p, ?_⟩
      rw [Nat.pow_succ, Nat.mul_comm 2 p, Nat.mul_assoc, Nat.mul_comm p, Nat.mul_comm 2]

/-- Rounding finds a number that is nearest. -/
theorem isNearest_roundUnits {den : Nat} (hd : 0 < den) (num : Nat) :
    IsNearest num den (roundUnits num den) := by
  -- in steps of what is dropped, the quotient is rounded to a whole number
  have hgrid : 0 < den * 2 ^ excessBits num den := Nat.mul_pos hd (Nat.two_pow_pos _)
  have hmul : ∀ q, q * 2 ^ excessBits num den * den = q * (den * 2 ^ excessBits num den) := by
    intro q
    rw [Nat.mul_assoc, Nat.mul_comm den]
  have hnearest := dist_divNearestEven_le hgrid num
  -- a number below the grid is farther away than the least number of it
  have hbelow : ∀ n, 0 < excessBits num den → n < 2 ^ 52 * 2 ^ excessBits num den →
      Nat.dist (divNearestEven num (den * 2 ^ excessBits num den) *
        (den * 2 ^ excessBits num den)) num < Nat.dist (n * den) num := by
    intro n hk hn
    have hleast := two_pow_mul_le_of_excessBits_pos hk
    have hfarther : n * den < 2 ^ 52 * (den * 2 ^ excessBits num den) := by
      rw [← hmul]
      exact Nat.mul_lt_mul_of_pos_right hn hd
    have hle := hnearest (2 ^ 52)
    simp only [Nat.dist] at hle ⊢
    omega
  refine ⟨representable_roundUnits num den, fun n hn => ?_, fun n hn hne heq => ?_⟩
  · rw [roundUnits, hmul]
    -- on the grid whole numbers are compared, and below it nothing is near
    rcases hn.dvd_or_lt (excessBits num den) with ⟨q, rfl⟩ | ⟨hk, hlt⟩
    · rw [Nat.mul_comm (2 ^ _) q, hmul]
      exact hnearest q
    · exact Nat.le_of_lt (hbelow n hk hlt)
  · rw [roundUnits] at hne heq ⊢
    rw [hmul] at heq
    rcases hn.dvd_or_lt (excessBits num den) with ⟨q, rfl⟩ | ⟨hk, hlt⟩
    · rw [Nat.mul_comm (2 ^ _) q] at hne heq
      rw [hmul] at heq
      refine hasEvenSignificand_mul_two_pow (divNearestEven_excessBits_le num den) ?_ _
      exact even_divNearestEven hgrid (fun h => hne (h ▸ rfl)) heq
    · exact absurd heq (Nat.ne_of_gt (hbelow n hk hlt))

/-! ## There is only one -/

theorem excessBits_mono {u v : Nat} (h : u ≤ v) : excessBits u 1 ≤ excessBits v 1 := by
  simp only [excessBits, Nat.div_one]
  by_cases hu : u = 0
  · rw [hu, Nat.log2_zero]
    omega
  · have hv : v ≠ 0 := by omega
    have hlog : u.log2 ≤ v.log2 := (Nat.le_log2 hv).mpr (Nat.le_trans (Nat.log2_self_le hu) h)
    omega

/-- Between two numbers with even significands there is another one, with an odd significand. -/
theorem exists_representable_between {u v : Nat} (h : u < v) (hu : HasEvenSignificand u)
    (hv : HasEvenSignificand v) : ∃ w, Representable w ∧ u < w ∧ w < v := by
  have hpos : 0 < 2 ^ excessBits u 1 := Nat.two_pow_pos _
  have hv' : 2 ^ (excessBits u 1 + 1) ∣ v :=
    Nat.dvd_trans (Nat.pow_dvd_pow 2 (Nat.succ_le_succ (excessBits_mono (Nat.le_of_lt h)))) hv
  obtain ⟨a, ha⟩ := hu
  have ha' : u = 2 * a * 2 ^ excessBits u 1 := by
    rw [Nat.pow_succ, Nat.mul_comm _ 2, Nat.mul_right_comm] at ha
    exact ha
  -- two even significands are two steps apart
  have hgap : u + 2 ^ (excessBits u 1 + 1) ≤ v := by
    obtain ⟨d, hd⟩ := Nat.dvd_sub hv' ⟨a, ha⟩
    have hd0 : d ≠ 0 := by
      rintro rfl
      omega
    have hle := Nat.le_mul_of_pos_right (2 ^ (excessBits u 1 + 1)) (Nat.pos_of_ne_zero hd0)
    omega
  have hsize : 2 * a < 2 ^ 53 := by
    have hlt : 2 * a * 2 ^ excessBits u 1 < 2 ^ 53 * 2 ^ excessBits u 1 := by
      have hlt := div_lt_two_pow_excessBits u 1
      rw [Nat.div_one] at hlt
      rwa [← ha']
    exact Nat.lt_of_mul_lt_mul_right hlt
  -- the next number above the lesser one
  refine ⟨u + 2 ^ excessBits u 1, ⟨2 * a + 1, excessBits u 1, by omega, ?_⟩, by omega, ?_⟩
  · rw [Nat.succ_mul, ← ha']
  · rw [Nat.pow_succ] at hgap
    omega

/-- If two numbers were nearest to a quotient, both would be even, and one between them nearer. -/
theorem IsNearest.not_lt {num den u v : Nat} (hd : 0 < den) (hu : IsNearest num den u)
    (hv : IsNearest num den v) : ¬ u < v := by
  intro h
  have heq : Nat.dist (u * den) num = Nat.dist (v * den) num :=
    Nat.le_antisymm (hu.nearest v hv.representable) (hv.nearest u hu.representable)
  -- two nearest numbers are equally near, so both are even
  obtain ⟨w, hw, huw, hwv⟩ := exists_representable_between h
    (hu.even v hv.representable (Nat.ne_of_gt h) heq.symm)
    (hv.even u hu.representable (Nat.ne_of_lt h) heq)
  have hfarther := hu.nearest w hw
  have huw' : u * den < w * den := Nat.mul_lt_mul_of_pos_right huw hd
  have hwv' : w * den < v * den := Nat.mul_lt_mul_of_pos_right hwv hd
  simp only [Nat.dist] at heq hfarther
  omega

/-- Rounding finds the one number that is nearest. -/
theorem isNearest_iff {num den units : Nat} (hd : 0 < den) :
    IsNearest num den units ↔ units = roundUnits num den := by
  constructor
  · intro h
    have hround := isNearest_roundUnits hd num
    exact Nat.le_antisymm (Nat.le_of_not_lt (hround.not_lt hd h))
      (Nat.le_of_not_lt (h.not_lt hd hround))
  · rintro rfl
    exact isNearest_roundUnits hd num

/-! ## Numbers -/

/-- The quotient `num / den` of units, with a sign, is correctly rounded to a number: to the nearest
magnitude, or to an infinity if that is too large for a finite number. -/
inductive Number.Rounds (sign : Sign) (num den : Nat) : Number → Prop where
  | finite {m : Magnitude} (h : IsNearest num den m.units) : Rounds sign num den (.finite sign m)
  | infinity {units : Nat} (h : IsNearest num den units) (hover : overflowUnits ≤ units) :
      Rounds sign num den (.infinity sign)

theorem Number.rounds_iff {sign : Sign} {num den : Nat} (hd : 0 < den) {n : Number} :
    n.Rounds sign num den ↔ n = ofRatio sign num den := by
  unfold ofRatio ofUnits
  constructor
  · intro h
    cases h with
    | @finite m h =>
      have hunits := (isNearest_iff hd).mp h
      -- a magnitude is bounded, so its number is finite
      have hlt : roundUnits num den < overflowUnits := by
        rw [← hunits]
        exact m.bounded
      rw [dif_pos hlt]
      exact congrArg _ (Magnitude.ext hunits)
    | infinity h hover =>
      rw [(isNearest_iff hd).mp h] at hover
      rw [dif_neg (Nat.not_lt_of_le hover)]
  · intro h
    have hround := isNearest_roundUnits hd num
    rw [h]
    split
    · exact .finite hround
    · next hover => exact .infinity hround (Nat.le_of_not_lt hover)

/-- The number of a decimal is the correctly rounded one. -/
theorem Decimal.rounds_toNumber (sign : Sign) (d : Decimal) :
    (d.toNumber sign).Rounds sign d.num d.den :=
  (Number.rounds_iff d.den_pos).mpr (d.toNumber_eq sign)

end ScriptMachine
