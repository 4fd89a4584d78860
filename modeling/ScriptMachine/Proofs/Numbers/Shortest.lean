import Mathlib.Tactic.FieldSimp
import Mathlib.Tactic.Linarith
import ScriptMachine.Proofs.Numbers.Monotone

/-!
# The shortest decimal has the fewest digits

The search for the shortest decimal goes over grids of powers of ten and tries two decimals on each.
That is enough: if any decimal of a grid is read as the magnitude, then so is one of the magnitude's
neighbours on it, since the decimals that are read as one number are a range. So a decimal with a
greater exponent than the one that is found is read as the magnitude only where the one that is
found is a power of ten above it, and from that follows all that is said of its digits.

* `Decimal.IsShortest`, `Decimal.isShortest_shortest`: no decimal with fewer digits is read back,
  and none of the same exponent that is nearer.
* `Decimal.digits_shortest_mod_ten`: the last digit is not zero.
* `Decimal.exponent_shortest_nonneg_iff`: the whole numbers are those without digits behind a point.
-/

namespace ScriptMachine

/-! ## The search -/

variable {α : Type}

theorem passing?_ne_none {test : α → Bool} {preferred : Bool} {first second : α}
    (h : test first = true ∨ test second = true) : passing? test preferred first second ≠ none := by
  unfold passing?
  split
  · split <;> nofun
  · next hfirst =>
    rw [if_pos (h.resolve_left hfirst)]
    nofun

/-- A candidate that is found where the other one passes as well is the preferred one. -/
theorem eq_or_eq_of_passing? {test : α → Bool} {preferred : Bool} {first second a : α}
    (h : passing? test preferred first second = some a) :
    a = first ∧ (test second = true → preferred = true) ∨
      a = second ∧ (test first = true → preferred = false) := by
  unfold passing? at h
  split at h
  · split at h
    · next hboth =>
      cases h
      refine .inr ⟨rfl, fun _ => ?_⟩
      simpa using (Bool.and_eq_true_iff.mp hboth).2
    · next hboth =>
      cases h
      refine .inl ⟨rfl, fun hsecond => ?_⟩
      simpa [hsecond] using hboth
  · next hfirst =>
    split at h
    · cases h
      exact .inr ⟨rfl, fun h => absurd h hfirst⟩
    · cases h

/-- The search ends at an index, and no higher one has a value. -/
theorem searchDown_spec (find? : Nat → Option α) (last : α) (n : Nat) :
    ∃ i ≤ n, (find? i = some (searchDown find? last n) ∨ i = 0 ∧ searchDown find? last n = last) ∧
      ∀ j, i < j → j ≤ n → find? j = none := by
  induction n with
  | zero => exact ⟨0, Nat.le_refl 0, .inr ⟨rfl, rfl⟩, fun j _ _ => by omega⟩
  | succ n ih =>
    unfold searchDown
    split
    · next a ha => exact ⟨n + 1, Nat.le_refl _, .inl ha, fun j _ _ => by omega⟩
    · next hnone =>
      -- nothing at this index, so the search ends below it, and nothing is found on the way
      obtain ⟨i, hi, hfound, habove⟩ := ih
      refine ⟨i, Nat.le_succ_of_le hi, hfound, fun j hij hj => ?_⟩
      rcases Nat.le_succ_iff.mp hj with hj | rfl
      · exact habove j hij hj
      · exact hnone

/-- A whole number. -/
def Magnitude.IsWhole (m : Magnitude) : Prop :=
  unitsPerOne ∣ m.units

namespace Decimal

/-! ## Decimals of one exponent -/

/-- A decimal is one of every lesser exponent, with zeros at the end of its digits. -/
theorem value_of_exponent_le {d : Decimal} {e : Int} (h : e ≤ d.exponent) :
    (⟨d.digits * 10 ^ (d.exponent - e).toNat, e⟩ : Decimal).value = d.value := by
  have hten : (10 : ℚ) ^ (d.exponent - e).toNat * 10 ^ e = 10 ^ d.exponent := by
    rw [← zpow_natCast, ← zpow_add₀ (by norm_num)]
    congr 1
    omega
  rw [value, value, ← hten]
  push_cast
  ring

variable {a b : Nat} {e : Int}

theorem value_le_value_iff : (⟨a, e⟩ : Decimal).value ≤ (⟨b, e⟩ : Decimal).value ↔ a ≤ b := by
  rw [value, value, mul_le_mul_iff_of_pos_right (zpow_pos (by norm_num) e)]
  exact Nat.cast_le

theorem value_lt_value_iff : (⟨a, e⟩ : Decimal).value < (⟨b, e⟩ : Decimal).value ↔ a < b := by
  rw [← not_le, value_le_value_iff, Nat.not_le]

/-! ## Powers of ten -/

theorem value_one (e : Int) : (⟨1, e⟩ : Decimal).value = 10 ^ e := by
  rw [value, Nat.cast_one, one_mul]

theorem value_ten_pow (k : Nat) (e : Int) : (⟨10 ^ k, e⟩ : Decimal).value = 10 ^ (e + k) := by
  rw [value, zpow_add₀ (by norm_num), zpow_natCast, mul_comm]
  push_cast
  rfl

variable {d : Decimal} {k : Nat}

theorem value_lt (h : d.digits < 10 ^ k) : d.value < 10 ^ (d.exponent + k) := by
  rw [← value_ten_pow]
  exact value_lt_value_iff.mpr h

theorem le_value (h : 10 ^ k ≤ d.digits) : 10 ^ (d.exponent + k) ≤ d.value := by
  rw [← value_ten_pow]
  exact value_le_value_iff.mpr h

/-! ## Neighbours on a grid -/

variable {m : Magnitude} {c : Decimal} {grid : Nat}

/-- A decimal on a grid, with the exponent of the exact decimal of a magnitude. -/
theorem value_grid (n grid : Nat) :
    (⟨n, grid - unitPlaces⟩ : Decimal).value = (⟨n * 10 ^ grid, -unitPlaces⟩ : Decimal).value := by
  have h := value_of_exponent_le (d := ⟨n, grid - unitPlaces⟩) (e := -unitPlaces) (by simp)
  rw [← h]
  simp

theorem below_le_exact : (below m grid).value ≤ (exact m).value := by
  rw [below, value_grid, exact, value_le_value_iff]
  exact Nat.div_mul_le_self _ _

theorem exact_le_above : (exact m).value ≤ (above m grid).value := by
  rw [above, value_grid, exact, value_le_value_iff]
  have hgrid : 0 < 10 ^ grid := Nat.pow_pos (by decide)
  exact Nat.le_of_lt ((Nat.div_lt_iff_lt_mul hgrid).mp (Nat.lt_succ_self _))

/-- What lies on a grid is not between the neighbours of a magnitude. -/
theorem le_below_or_above_le (hc : c.exponent = grid - unitPlaces) :
    c.value ≤ (below m grid).value ∨ (above m grid).value ≤ c.value := by
  -- both neighbours and the decimal are counts of the same power of ten, and the counts of the
  -- neighbours are one apart
  obtain ⟨n, e⟩ := c
  obtain rfl : e = grid - unitPlaces := hc
  rw [below, above, value_le_value_iff, value_le_value_iff]
  omega

/-- If a decimal of a grid is read as a magnitude, so is a neighbour of the magnitude. -/
theorem onGrid?_ne_none (hc : m.isReadFrom c = true) (hgrid : grid - unitPlaces ≤ c.exponent) :
    onGrid? m grid ≠ none := by
  -- the same decimal with the exponent of the grid
  obtain ⟨d, hexponent, hvalue⟩ : ∃ d : Decimal, d.exponent = grid - unitPlaces ∧
      d.value = c.value := ⟨_, rfl, value_of_exponent_le hgrid⟩
  have hread := Magnitude.isReadFrom_of_value_eq hc hvalue
  refine passing?_ne_none ?_
  -- the neighbour between the decimal and the magnitude is in the range of what is read as it
  rcases le_below_or_above_le (m := m) hexponent with h | h
  · exact .inl (Magnitude.isReadFrom_of_between hread m.isReadFrom_exact h below_le_exact)
  · exact .inr (Magnitude.isReadFrom_of_between m.isReadFrom_exact hread exact_le_above h)

/-! ## What the search finds -/

/-- All powers of ten of the first grid are greater than the magnitude. -/
theorem digits_exact_lt (m : Magnitude) : (exact m).digits < 10 ^ topGrid m := by
  -- ten is more than eight, so a grid for every three bits is coarse enough
  have hlog : (exact m).digits.log2 + 1 ≤ 3 * topGrid m := by
    unfold topGrid
    omega
  calc (exact m).digits < 2 ^ ((exact m).digits.log2 + 1) := Nat.lt_log2_self
    _ ≤ 2 ^ (3 * topGrid m) := Nat.pow_le_pow_right (by decide) hlog
    _ = 8 ^ topGrid m := Nat.pow_mul 2 3 _
    _ ≤ 10 ^ topGrid m := Nat.pow_le_pow_left (by decide) _

/-- On the finest grid, the magnitude itself is found. -/
theorem onGrid?_zero (m : Magnitude) : onGrid? m 0 = some (exact m) := by
  have hbelow : below m 0 = exact m := by
    rw [below, Nat.pow_zero, Nat.div_one]
    rfl
  have hnearer : nearerBelow m 0 = true := by
    simp [nearerBelow, Nat.mod_one]
  simp [onGrid?, passing?, hbelow, hnearer, m.isReadFrom_exact]

/-- The search ends on the coarsest grid that has a neighbour of the magnitude which is read back.
-/
theorem shortest_spec (m : Magnitude) :
    ∃ grid ≤ topGrid m, onGrid? m grid = some (shortest m) ∧
      ∀ j, grid < j → j ≤ topGrid m → onGrid? m j = none := by
  obtain ⟨grid, hle, hfound, hcoarser⟩ := searchDown_spec (onGrid? m) (exact m) (topGrid m)
  refine ⟨grid, hle, ?_, hcoarser⟩
  rcases hfound with hfound | ⟨rfl, hlast⟩
  · exact hfound
  · rw [onGrid?_zero, shortest, hlast]

/-- A decimal with a greater exponent is read as the magnitude only if the shortest one is one times
a power of ten, above the magnitude. -/
theorem shortest_of_coarser (hc : m.isReadFrom c = true)
    (hlt : (shortest m).exponent < c.exponent) :
    (shortest m).digits ≤ 1 ∧ (exact m).value < (⟨1, (shortest m).exponent⟩ : Decimal).value := by
  obtain ⟨grid, hle, hfound, hcoarser⟩ := shortest_spec m
  have hneighbour : (shortest m).exponent = grid - unitPlaces ∧
      (shortest m).digits ≤ (exact m).digits / 10 ^ grid + 1 := by
    rcases eq_or_eq_of_passing? hfound with ⟨h, -⟩ | ⟨h, -⟩
    · rw [h]
      exact ⟨rfl, Nat.le_succ _⟩
    · rw [h]
      exact ⟨rfl, Nat.le_refl _⟩
  rw [hneighbour.1] at hlt ⊢
  -- or else the next coarser grid would have had a decimal to be found
  have hgrid : topGrid m ≤ grid := by
    by_contra h
    have hnext : ((grid + 1 : Nat) : Int) - unitPlaces ≤ c.exponent := by omega
    exact onGrid?_ne_none hc hnext (hcoarser (grid + 1) (by omega) (by omega))
  -- so the grid is the first one, on which the magnitude is less than one
  have hexact : (exact m).digits < 10 ^ grid :=
    Nat.lt_of_lt_of_le (digits_exact_lt m) (Nat.pow_le_pow_right (by decide) hgrid)
  constructor
  · rw [Nat.div_eq_of_lt hexact] at hneighbour
    exact hneighbour.2
  · rw [value_grid, exact, value_lt_value_iff, Nat.one_mul]
    exact hexact

/-! ## The fewest digits -/

/-- What the search finds is read back. -/
theorem isReadFrom_shortest (m : Magnitude) : m.isReadFrom (shortest m) = true :=
  Magnitude.isReadFrom_iff.mpr (toNumber_plus_shortest m)

/-- A magnitude other than zero is read from no decimal without digits. -/
theorem digits_ne_zero (hm : m.units ≠ 0) (hc : m.isReadFrom c = true) : c.digits ≠ 0 := by
  intro h
  have hunits := Magnitude.isReadFrom_iff_units.mp hc
  rw [units, num, h, Nat.zero_mul, Nat.zero_mul, roundUnits_zero c.den_pos] at hunits
  exact hm hunits.symm

/-- If the shortest decimal had more digits than another one, there would be a power of ten between
the two, with a greater exponent. -/
theorem digits_shortest_lt (hm : m.units ≠ 0) (hc : m.isReadFrom c = true) {k : Nat}
    (hk : c.digits < 10 ^ k) : (shortest m).digits < 10 ^ k := by
  by_contra hlong
  have hpos := digits_ne_zero hm hc
  have hk0 : k ≠ 0 := by
    rintro rfl
    omega
  -- the other decimal has the greater exponent already, or the power of ten between the two does
  obtain ⟨d, hd, hlt⟩ : ∃ d, m.isReadFrom d = true ∧ (shortest m).exponent < d.exponent := by
    by_cases h : (shortest m).exponent < c.exponent
    · exact ⟨c, hc, h⟩
    · refine ⟨⟨1, (shortest m).exponent + k⟩, ?_, by show _ < _ + (k : Int); omega⟩
      refine Magnitude.isReadFrom_of_between hc (isReadFrom_shortest m) ?_ ?_
      · rw [value_one]
        have hexp : c.exponent + k ≤ (shortest m).exponent + k := by omega
        exact le_trans (le_of_lt (value_lt hk)) (zpow_le_zpow_right₀ (by norm_num) hexp)
      · rw [value_one]
        exact le_value (Nat.le_of_not_lt hlong)
  have hone := (shortest_of_coarser hd hlt).1
  have hten : 10 ^ 1 ≤ 10 ^ k := Nat.pow_le_pow_right (by decide) (Nat.pos_of_ne_zero hk0)
  omega

/-- Without a zero at its end, the shortest decimal would have a greater exponent. -/
theorem digits_shortest_mod_ten (hm : m.units ≠ 0) : (shortest m).digits % 10 ≠ 0 := by
  intro h
  have hpos := digits_ne_zero hm (isReadFrom_shortest m)
  have hlt : (shortest m).exponent < (shortest m).exponent + 1 := by omega
  -- one zero less at the end, and one more in the exponent
  have hvalue : (⟨(shortest m).digits / 10, (shortest m).exponent + 1⟩ : Decimal).value =
      (shortest m).value := by
    rw [← value_of_exponent_le (Int.le_of_lt hlt)]
    have hdigits : (shortest m).digits / 10 *
        10 ^ ((shortest m).exponent + 1 - (shortest m).exponent).toNat = (shortest m).digits := by
      rw [show (shortest m).exponent + 1 - (shortest m).exponent = 1 by omega]
      exact Nat.div_mul_cancel (Nat.dvd_of_mod_eq_zero h)
    rw [hdigits]
  have hread := Magnitude.isReadFrom_of_value_eq (isReadFrom_shortest m) hvalue
  have hone := (shortest_of_coarser hread hlt).1
  omega

/-! ## The nearest -/

theorem nearerBelow_iff : nearerBelow m grid = true ↔
    (exact m).value - (below m grid).value < (above m grid).value - (exact m).value := by
  have hexact : exact m = ⟨(exact m).digits, -unitPlaces⟩ := rfl
  rw [sub_lt_sub_iff, nearerBelow, below, above, value_grid, value_grid, hexact, decide_eq_true_eq]
  -- distances on the grid are compared by counts of the finest one
  generalize (exact m).digits = n
  simp only [value, ← add_mul, ← Nat.cast_add]
  rw [mul_lt_mul_iff_of_pos_right (zpow_pos (by norm_num) _), Nat.cast_lt]
  have hdiv := Nat.div_add_mod' n (10 ^ grid)
  have hsum : (n / 10 ^ grid + 1 + n / 10 ^ grid) * 10 ^ grid =
      n / 10 ^ grid * 10 ^ grid + 10 ^ grid + n / 10 ^ grid * 10 ^ grid := by
    ring
  omega

/-- The neighbour that is found is at least as near as the rest of its grid that is read back. -/
theorem dist_shortest_le (hc : m.isReadFrom c = true) (hexp : c.exponent = (shortest m).exponent) :
    |(shortest m).value - (exact m).value| ≤ |c.value - (exact m).value| := by
  obtain ⟨grid, -, hfound, -⟩ := shortest_spec m
  have hbelow : (below m grid).value ≤ (exact m).value := below_le_exact
  have habove : (exact m).value ≤ (above m grid).value := exact_le_above
  -- whichever neighbour is found: what lies beyond it is farther, and what lies beyond the other
  -- one is not nearer than that
  rcases eq_or_eq_of_passing? hfound with ⟨h, hother⟩ | ⟨h, hother⟩
  · rw [h] at hexp ⊢
    rw [abs_of_nonpos (by linarith)]
    rcases le_below_or_above_le hexp with hside | hside
    · rw [abs_of_nonpos (by linarith)]
      linarith
    · have hread := Magnitude.isReadFrom_of_between m.isReadFrom_exact hc habove hside
      have hnearer := nearerBelow_iff.mp (hother hread)
      rw [abs_of_nonneg (by linarith)]
      linarith
  · rw [h] at hexp ⊢
    rw [abs_of_nonneg (by linarith)]
    rcases le_below_or_above_le hexp with hside | hside
    · have hread := Magnitude.isReadFrom_of_between hc m.isReadFrom_exact hside hbelow
      have hnearer := mt nearerBelow_iff.mpr (Bool.eq_false_iff.mp (hother hread))
      rw [abs_of_nonpos (by linarith)]
      linarith
    · rw [abs_of_nonneg (by linarith)]
      linarith

/-- The decimal is read as the magnitude. None with fewer digits is, and of those with the same
exponent that are, none is nearer to the magnitude. -/
structure IsShortest (d : Decimal) (m : Magnitude) : Prop where
  read : d.toNumber .plus = .finite .plus m
  fewest : ∀ c : Decimal, c.toNumber .plus = .finite .plus m →
    ∀ k, c.digits < 10 ^ k → d.digits < 10 ^ k
  nearest : ∀ c : Decimal, c.toNumber .plus = .finite .plus m → c.exponent = d.exponent →
    |d.value - (exact m).value| ≤ |c.value - (exact m).value|

/-- What the search finds is the shortest decimal. -/
theorem isShortest_shortest (hm : m.units ≠ 0) : (shortest m).IsShortest m where
  read := toNumber_plus_shortest m
  fewest _ hc _ hk := digits_shortest_lt hm (Magnitude.isReadFrom_iff.mpr hc) hk
  nearest _ hc hexp := dist_shortest_le (Magnitude.isReadFrom_iff.mpr hc) hexp

/-! ## Whole numbers -/

theorem den_eq_one (h : 0 ≤ d.exponent) : d.den = 1 := by
  rw [den, Int.toNat_of_nonpos (by omega), Nat.pow_zero]

/-- A whole number of too many bits loses only bits of whole numbers. -/
theorem unitsPerOne_dvd_roundUnits (n : Nat) : unitsPerOne ∣ roundUnits (n * unitsPerOne) 1 := by
  -- few enough bits are all kept
  by_cases hn : n < 2 ^ 53
  · have hrepresentable : Representable (n * unitsPerOne) := ⟨n, unitPlaces, hn, rfl⟩
    have hround := roundUnits_of_representable hrepresentable Nat.one_pos
    rw [Nat.mul_one] at hround
    rw [hround]
    exact Nat.dvd_mul_left _ _
  · have hle : 2 ^ (53 + unitPlaces) ≤ n * unitsPerOne := by
      rw [Nat.pow_add]
      exact Nat.mul_le_mul_right _ (Nat.le_of_not_lt hn)
    have hne : n * unitsPerOne ≠ 0 := Nat.ne_of_gt (Nat.lt_of_lt_of_le (Nat.two_pow_pos _) hle)
    have hlog := (Nat.le_log2 hne).mpr hle
    -- as many bits are dropped as a unit has places at least, and what is kept is a count of them
    have hexcess : unitPlaces ≤ excessBits (n * unitsPerOne) 1 := by
      rw [excessBits, Nat.div_one]
      omega
    exact Nat.dvd_trans (Nat.pow_dvd_pow 2 hexcess) (Nat.dvd_mul_left _ _)

/-- A magnitude is so many units. -/
theorem value_exact (m : Magnitude) : (exact m).value * unitsPerOne = m.units := by
  rw [value, exact, unitsPerOne]
  generalize unitPlaces = k
  -- the twos of the power of ten are the units of one
  have hten : (10 : ℚ) ^ k = 5 ^ k * 2 ^ k := by
    rw [← mul_pow]
    norm_num
  rw [zpow_neg, zpow_natCast, hten]
  push_cast
  field_simp

/-- The shortest decimal has no digits behind a point just if the magnitude is a whole number. -/
theorem exponent_shortest_nonneg_iff (hm : m.units ≠ 0) :
    0 ≤ (shortest m).exponent ↔ m.IsWhole := by
  constructor
  · intro h
    have hunits := Magnitude.isReadFrom_iff_units.mp (isReadFrom_shortest m)
    rw [Magnitude.IsWhole, ← hunits, units, den_eq_one h, num]
    exact unitsPerOne_dvd_roundUnits _
  · rintro ⟨n, hn⟩
    have hunits : (unitsPerOne : ℚ) ≠ 0 :=
      Nat.cast_ne_zero.mpr (Nat.ne_of_gt Number.zero_lt_unitsPerOne)
    -- the whole number is a decimal without a place behind the point, and it is read back
    have hvalue : (⟨n, 0⟩ : Decimal).value = (exact m).value := by
      rw [← mul_left_inj' hunits, value_exact, hn, value, zpow_zero, mul_one, mul_comm]
      push_cast
      rfl
    have hread := Magnitude.isReadFrom_of_value_eq m.isReadFrom_exact hvalue
    by_contra hneg
    -- one and more is not less than a power of ten that is less than one
    have hlt := (shortest_of_coarser hread (Int.lt_of_not_ge hneg)).2
    have hone : (10 : ℚ) ^ (shortest m).exponent ≤ 10 ^ (0 : Int) :=
      zpow_le_zpow_right₀ (by norm_num) (by omega)
    have hle : (⟨1, 0⟩ : Decimal).value ≤ (⟨n, 0⟩ : Decimal).value :=
      value_le_value_iff.mpr (Nat.pos_of_ne_zero (digits_ne_zero hm hread))
    rw [value_one] at hlt hle
    linarith

end Decimal

end ScriptMachine
