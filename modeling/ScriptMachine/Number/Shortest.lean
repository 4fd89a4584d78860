import ScriptMachine.Number.Decimal

/-!
# The shortest decimal of a magnitude

A magnitude is written with the fewest digits from which it can be read back, and of the decimals
with so few digits the one nearest to it; where two are equally near, the greater. The search goes
over grids of decimals, from powers of ten too large to the exact value: on each grid only the two
neighbours of the magnitude have to be tried.

* `Decimal.shortest`: that decimal.
* `Decimal.toNumber_plus_shortest`: it is read back as the same number.
-/

namespace ScriptMachine

-- A power of a natural number is the core library's, also where other ones are in scope.
attribute [local instance (20000)] instPowNat

/-! ## Two steps of a search -/

/-- The first of two candidates that passes a test; if both do, the first one where it is
`preferred` and otherwise the second. -/
def passing? {α : Type} (test : α → Bool) (preferred : Bool) (first second : α) : Option α :=
  if test first then
    if test second && !preferred then some second else some first
  else if test second then some second
  else none

theorem test_of_passing? {α : Type} {test : α → Bool} {preferred : Bool} {first second a : α}
    (h : passing? test preferred first second = some a) : test a = true := by
  unfold passing? at h
  split at h
  · next hfirst =>
    split at h
    · next hsecond =>
      cases h
      exact (Bool.and_eq_true_iff.1 hsecond).1
    · cases h
      exact hfirst
  · split at h
    · next hsecond =>
      cases h
      exact hsecond
    · cases h

/-- The value at the highest index, from `n` down to one, that has one, and else `last`. -/
def searchDown {α : Type} (find? : Nat → Option α) (last : α) : Nat → α
  | 0 => last
  | n + 1 =>
    match find? (n + 1) with
    | some a => a
    | none => searchDown find? last n

theorem searchDown_induction {α : Type} {find? : Nat → Option α} {last : α} {p : α → Prop}
    (hfind : ∀ n a, find? n = some a → p a) (hlast : p last) (n : Nat) :
    p (searchDown find? last n) := by
  induction n with
  | zero => exact hlast
  | succ n ih =>
    unfold searchDown
    split
    · next a h => exact hfind _ _ h
    · exact ih

/-! ## The search for a decimal -/

/-- Equality with the magnitude that a decimal is read as. -/
def Magnitude.isReadFrom (m : Magnitude) (d : Decimal) : Bool :=
  d.toNumber .plus == .finite .plus m

theorem Magnitude.isReadFrom_iff {m : Magnitude} {d : Decimal} :
    m.isReadFrom d = true ↔ d.toNumber .plus = .finite .plus m := by
  rw [Magnitude.isReadFrom, beq_iff_eq]

namespace Decimal

/-- The decimal that equals a magnitude: a unit is `5 ^ 1074` times ten to the `-1074`. -/
def exact (m : Magnitude) : Decimal :=
  ⟨5 ^ unitPlaces * m.units, -unitPlaces⟩

theorem toNumber_exact (sign : Sign) (m : Magnitude) :
    (exact m).toNumber sign = .finite sign m := by
  have hten : 5 ^ unitPlaces * unitsPerOne = 10 ^ unitPlaces := by
    rw [unitsPerOne, ← Nat.mul_pow]
  -- the fives of the digits and the twos of the units make the power of ten that divides them
  have hnum : (exact m).num = m.units * 10 ^ unitPlaces := by
    have hexp : (exact m).exponent.toNat = 0 := by simp [exact]
    have hdigits : (exact m).digits = 5 ^ unitPlaces * m.units := rfl
    rw [num, hexp, Nat.pow_zero, Nat.mul_one, hdigits, ← hten,
      Nat.mul_comm (5 ^ unitPlaces) m.units, Nat.mul_assoc]
  have hden : (exact m).den = 10 ^ unitPlaces := by
    simp only [den, exact, Int.neg_neg, Int.toNat_natCast]
  rw [toNumber_eq, hnum, hden, Number.ofRatio_units_mul _ _ (Nat.pow_pos (by decide))]

/-- The neighbour of a magnitude on a grid of powers of ten that is not above it. -/
def below (m : Magnitude) (grid : Nat) : Decimal :=
  ⟨(exact m).digits / 10 ^ grid, grid - unitPlaces⟩

/-- The neighbour on a grid that is above. -/
def above (m : Magnitude) (grid : Nat) : Decimal :=
  ⟨(exact m).digits / 10 ^ grid + 1, grid - unitPlaces⟩

/-- Nearer to the neighbour below than to the one above. -/
def nearerBelow (m : Magnitude) (grid : Nat) : Bool :=
  2 * ((exact m).digits % 10 ^ grid) < 10 ^ grid

/-- The neighbour on a grid that is read back as the magnitude: of two the nearer, of two equally
near the one above. -/
def onGrid? (m : Magnitude) (grid : Nat) : Option Decimal :=
  passing? m.isReadFrom (nearerBelow m grid) (below m grid) (above m grid)

/-- A grid coarser than the magnitude, since ten is more than `2 ^ 3`. -/
def topGrid (m : Magnitude) : Nat :=
  (exact m).digits.log2 / 3 + 1

/-- The decimal with the fewest digits that is read back as the magnitude. -/
def shortest (m : Magnitude) : Decimal :=
  searchDown (onGrid? m) (exact m) (topGrid m)

theorem toNumber_plus_shortest (m : Magnitude) :
    (shortest m).toNumber .plus = .finite .plus m := by
  unfold shortest
  exact searchDown_induction (p := fun d => d.toNumber .plus = .finite .plus m)
    (fun _ _ h => Magnitude.isReadFrom_iff.1 (test_of_passing? h)) (toNumber_exact .plus m) _

end Decimal

end ScriptMachine
