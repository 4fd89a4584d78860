import ScriptMachine.Proofs.Numbers.Order
import ScriptMachine.Proofs.Numbers.RoundTrip
import ScriptMachine.Proofs.Numbers.Shortest

/-!
# The canonical form of a rendered number

The text of a finite number other than zero is made of the digits of its shortest decimal, and of no
zero that could be left out. Those digits have none at either end, so the zeros in a layout are
there to fill up to the point; and since the numbers from one to ten are written without an
exponent, an exponent that is written is not zero either.

* `Unsigned.IsCanonical`: the literals that have one form only.
* `Digits.Plain.isPlain`, `Digits.Scientific.isScientific`: each layout of such digits is one.
* `Magnitude.canonical_literal`: so is the literal of a magnitude, which denotes its shortest
  decimal.
* `Number.text_canonical`: the text of a number, with its sign and the range without exponents.
-/

namespace ScriptMachine

-- A power of a natural number is the core library's, also where other ones are in scope.
attribute [local instance (20000)] instPowNat

/-! ## Digits -/

/-- Every digit that follows a number makes it ten times as large. -/
theorem mul_ten_pow_le_digitsValue (ds : List Digit) (n : Nat) :
    n * 10 ^ ds.length ≤ digitsValue ds n := by
  induction ds generalizing n with
  | nil => exact Nat.le_of_eq (Nat.mul_one n)
  | cons d ds ih =>
    calc n * 10 ^ (ds.length + 1) = 10 * n * 10 ^ ds.length := by ring
      _ ≤ (10 * n + d.val) * 10 ^ ds.length := Nat.mul_le_mul_right _ (Nat.le_add_right _ _)
      _ ≤ digitsValue ds (10 * n + d.val) := ih _

/-- Digits that follow a number cannot make it as large as the next number with as many zeros. -/
theorem digitsValue_lt (ds : List Digit) (n : Nat) :
    digitsValue ds n < (n + 1) * 10 ^ ds.length := by
  induction ds generalizing n with
  | nil => exact Nat.lt_of_lt_of_eq (Nat.lt_succ_self n) (Nat.mul_one _).symm
  | cons d ds ih =>
    have hd : 10 * n + d.val + 1 ≤ 10 * (n + 1) := by omega
    calc digitsValue ds (10 * n + d.val) < (10 * n + d.val + 1) * 10 ^ ds.length := ih _
      _ ≤ 10 * (n + 1) * 10 ^ ds.length := Nat.mul_le_mul_right _ hd
      _ = (n + 1) * 10 ^ (ds.length + 1) := by ring

namespace Digits

variable {n : Nat}

/-- The digits of a number start with none that could be left out. -/
theorem head_ofNat_ne_zero (hn : n ≠ 0) : (ofNat n).head ≠ 0 := by
  -- the first digit is the last to be split off
  induction n using ofNat.induct with
  | case1 n h =>
    rw [ofNat, dif_pos h]
    exact fun h0 => hn (congrArg Fin.val h0)
  | case2 n h ih =>
    rw [ofNat, dif_neg h]
    exact ih (by omega)

/-- The last digit of a number is what is left of it by tens. -/
theorem getLast?_ofNat (n : Nat) :
    (ofNat n).toList.getLast? = some ⟨n % 10, Nat.mod_lt n (by decide)⟩ := by
  rw [ofNat]
  split
  · next h =>
    have hmod : n % 10 = n := Nat.mod_eq_of_lt h
    simp [toList, hmod]
  · next h =>
    show ((ofNat (n / 10)).head :: ((ofNat (n / 10)).tail ++ [_])).getLast? = _
    rw [← List.cons_append, List.getLast?_concat]

/-- The first digit is the number that the others follow. -/
theorem value_eq (ds : Digits) : ds.value = digitsValue ds.tail ds.head.val := by
  show digitsValue ds.tail (10 * 0 + ds.head.val) = _
  rw [Nat.mul_zero, Nat.zero_add]

/-- The digits of a number are as many as it takes. -/
theorem ten_pow_le (hn : n ≠ 0) : 10 ^ (ofNat n).tail.length ≤ n := by
  have hhead : 0 < (ofNat n).head.val :=
    Nat.pos_of_ne_zero fun h => head_ofNat_ne_zero hn (Fin.ext h)
  calc 10 ^ (ofNat n).tail.length ≤ (ofNat n).head.val * 10 ^ (ofNat n).tail.length :=
        Nat.le_mul_of_pos_left _ hhead
    _ ≤ digitsValue (ofNat n).tail (ofNat n).head.val := mul_ten_pow_le_digitsValue _ _
    _ = n := by rw [← value_eq, value_ofNat]

/-- The digits of a number are no fewer than it takes. -/
theorem lt_ten_pow (n : Nat) : n < 10 ^ ((ofNat n).tail.length + 1) := by
  calc n = digitsValue (ofNat n).tail (ofNat n).head.val := by rw [← value_eq, value_ofNat]
    _ < ((ofNat n).head.val + 1) * 10 ^ (ofNat n).tail.length := digitsValue_lt _ _
    _ ≤ 10 * 10 ^ (ofNat n).tail.length := Nat.mul_le_mul_right _ (ofNat n).head.isLt
    _ = 10 ^ ((ofNat n).tail.length + 1) := by rw [Nat.pow_succ, Nat.mul_comm]

end Digits

/-! ## Canonical literals -/

/-- Digits that may stand behind a point: at least one, and no zero at the end. -/
def IsFraction (ds : List Digit) : Prop :=
  ∃ d ∈ ds.getLast?, d.val ≠ 0

/-- The end of a run of digits ends as the run does. -/
theorem isFraction_append_iff {front back : List Digit} (h : back ≠ []) :
    IsFraction (front ++ back) ↔ IsFraction back := by
  rw [IsFraction, IsFraction, List.getLast?_append_of_ne_nil front h]

/-- A mantissa that needs no exponent. In front of the point stands no zero that could be left out;
the point and a fraction are there if the number is not whole. -/
inductive Mantissa.IsPlain (whole : Prop) : Mantissa → Prop where
  | whole {ds : Digits} (hwhole : whole) (hhead : ds.head ≠ 0) : IsPlain whole (.whole ds)
  | pointed {ds : Digits} {fraction : List Digit} (hwhole : ¬ whole)
      (hhead : ds.head ≠ 0 ∨ ds.tail = []) (hfraction : IsFraction fraction) :
      IsPlain whole (.pointed ds fraction)

/-- A mantissa that goes with an exponent: one digit, and a fraction if there are more. -/
inductive Mantissa.IsScientific : Mantissa → Prop where
  | whole {d : Digit} (hhead : d ≠ 0) : IsScientific (.whole ⟨d, []⟩)
  | pointed {d : Digit} {fraction : List Digit} (hhead : d ≠ 0)
      (hfraction : IsFraction fraction) : IsScientific (.pointed ⟨d, []⟩ fraction)

/-- An exponent with a small letter, a sign and no zero in front. -/
structure Exponent.IsCanonical (e : Exponent) : Prop where
  small : e.capital = false
  signed : e.sign ≠ none
  head : e.digits.head ≠ 0

/-- The literals that numbers are rendered as, apart from signs. -/
inductive Unsigned.IsCanonical (whole : Prop) : Unsigned → Prop where
  | plain {m : Mantissa} (h : m.IsPlain whole) : IsCanonical whole (.decimal m none)
  | scientific {m : Mantissa} {e : Exponent} (h : m.IsScientific) (he : e.IsCanonical) :
      IsCanonical whole (.decimal m (some e))

/-! ## Their texts -/

/-- Among digits there is no other character. -/
theorem not_mem_digitChars {c : Char} (hc : c.isDigit = false) (ds : List Digit) :
    c ∉ digitChars ds := by
  intro h
  obtain ⟨d, -, hd⟩ := List.mem_map.mp h
  exact d.char_ne hc hd

/-- A mantissa is made of digits and a point. -/
theorem Mantissa.not_mem_text {c : Char} (hc : c.isDigit = false) (hpoint : c ≠ '.')
    (m : Mantissa) : c ∉ m.text := by
  cases m <;> simp [text, not_mem_digitChars hc, hpoint]

namespace Unsigned

variable {whole : Prop} {mantissa : Mantissa} {exponent : Option Exponent}

/-- The letter marks an exponent, and stands nowhere else. -/
theorem IsCanonical.mem_text_iff (h : (decimal mantissa exponent).IsCanonical whole) :
    'e' ∈ (decimal mantissa exponent).text ↔ exponent ≠ none := by
  have hmantissa : 'e' ∉ mantissa.text := mantissa.not_mem_text (by decide) (by decide)
  cases h with
  | plain h => simp [text, exponentText, hmantissa]
  | scientific h he => simp [text, exponentText, Exponent.text, Exponent.mark, he.small]

/-- A digit comes first. -/
theorem IsCanonical.head?_text {u : Unsigned} (h : u.IsCanonical whole) :
    ∃ d : Digit, u.text.head? = some d.char := by
  cases h with
  | plain h =>
    cases h with
    | @whole ds => exact ⟨ds.head, rfl⟩
    | @pointed ds => exact ⟨ds.head, rfl⟩
  | scientific h he =>
    cases h with
    | @whole d => exact ⟨d, rfl⟩
    | @pointed d => exact ⟨d, rfl⟩

end Unsigned

/-! ## The layouts are canonical -/

namespace Digits

variable {ds : Digits} {e : Int} {m : Mantissa} {whole : Prop}

/-- A layout without an exponent leaves no zero that could be left out, since its digits have none
at either end. -/
theorem Plain.isPlain (h : ds.Plain e m) (hwhole : 0 ≤ e ↔ whole) (hhead : ds.head ≠ 0)
    (hlast : IsFraction ds.toList) : m.IsPlain whole := by
  cases h with
  | whole h => exact .whole (hwhole.mp h) hhead
  | @among front back h hdigits hplaces =>
    refine .pointed (fun hw => absurd (hwhole.mpr hw) (by omega)) (.inl hhead) ?_
    -- if nothing stood behind the point, the number would be whole
    have hback : back ≠ [] := by
      rintro rfl
      rw [List.length_nil] at hplaces
      omega
    rw [toList, ← hdigits, ← List.cons_append] at hlast
    exact (isFraction_append_iff hback).mp hlast
  | behind h hplaces =>
    refine .pointed (fun hw => absurd (hwhole.mpr hw) (by omega)) (.inr rfl) ?_
    -- zeros fill up to the point, and behind them stand all the digits
    exact (isFraction_append_iff (List.cons_ne_nil _ _)).mpr hlast

/-- A layout without an exponent denotes the digits at their power of ten. -/
theorem Plain.value_decimal (h : ds.Plain e m) :
    (m.decimal none).value = (⟨ds.value, e⟩ : Decimal).value := by
  rw [h.decimal_eq]
  split
  · next he =>
    rw [← Decimal.value_of_exponent_le (d := ⟨ds.value, e⟩) he, Int.sub_zero]
  · rfl

/-- A layout with an exponent has one digit in front of the point, and a point only before others.
-/
theorem Scientific.isScientific (h : ds.Scientific m) (hhead : ds.head ≠ 0)
    (hlast : IsFraction ds.toList) : m.IsScientific := by
  obtain ⟨d, tail⟩ := ds
  cases h with
  | whole h =>
    obtain rfl : tail = [] := h
    exact .whole hhead
  | pointed h =>
    have hlast : IsFraction ([d] ++ tail) := hlast
    exact .pointed hhead ((isFraction_append_iff h).mp hlast)

end Digits

/-- An exponent other than zero is written with a sign and no zero in front. -/
theorem Exponent.isCanonical_ofInt {power : Int} (h : power ≠ 0) :
    (Exponent.ofInt power).IsCanonical :=
  ⟨rfl, nofun, Digits.head_ofNat_ne_zero (by omega)⟩

/-! ## The range without exponents -/

namespace Decimal

/-- A whole number that can be represented is its own nearest number. -/
theorem units_of_representable {n k : Nat} (h : Representable (n * 10 ^ k * unitsPerOne)) :
    (⟨n, k⟩ : Decimal).units = n * 10 ^ k * unitsPerOne := by
  have hround := roundUnits_of_representable h Nat.one_pos
  rw [Nat.mul_one] at hround
  rw [units, den_eq_one (Int.natCast_nonneg k)]
  exact hround

end Decimal

namespace Magnitude

variable {m : Magnitude}

/-- The lower threshold is the number that is nearest to `0.000001`. -/
theorem units_leastPositional : (⟨1, -6⟩ : Decimal).units = leastPositional := by
  have hnum : (⟨1, -6⟩ : Decimal).num = unitsPerOne := by
    rw [Decimal.num, Int.toNat_of_nonpos (by decide), Nat.pow_zero, Nat.mul_one, Nat.one_mul]
  have hden : (⟨1, -6⟩ : Decimal).den = 10 ^ (6 : Nat) := rfl
  rw [Decimal.units, hnum, hden, leastPositional]

/-- The upper threshold is exactly the power of ten. -/
theorem units_leastLarge : (⟨1, 21⟩ : Decimal).units = leastLarge := by
  -- of this power only the fives take up places
  have hrepresentable : Representable (1 * 10 ^ (21 : Nat) * unitsPerOne) :=
    ⟨5 ^ (21 : Nat), 21 + unitPlaces, by decide, by rw [Nat.pow_add, unitsPerOne, ← Nat.mul_assoc]⟩
  have h := Decimal.units_of_representable hrepresentable
  rw [Nat.one_mul] at h
  exact h

/-- From one to ten, magnitudes are written without an exponent. -/
theorem isPositional_of_value (hone : 1 ≤ (Decimal.shortest m).value)
    (hten : (Decimal.shortest m).value ≤ 10) : m.isPositional = true := by
  -- what is read back from the shortest decimal is the magnitude, so bounds of the decimal carry
  -- over
  have hunits := isReadFrom_iff_units.mp (Decimal.isReadFrom_shortest m)
  have hleast : leastPositional ≤ m.units := by
    rw [← units_leastPositional, ← hunits]
    refine Decimal.units_le (le_trans ?_ hone)
    rw [Decimal.value_one]
    exact zpow_le_one_of_nonpos₀ (by norm_num) (by decide)
  have hlarge : m.units < leastLarge := by
    -- ten itself is far below the upper threshold
    have hrepresentable : Representable (1 * 10 ^ (1 : Nat) * unitsPerOne) :=
      ⟨10, unitPlaces, by decide, by rw [Nat.one_mul, Nat.pow_one, unitsPerOne]⟩
    have hle : m.units ≤ (⟨1, 1⟩ : Decimal).units := by
      rw [← hunits]
      refine Decimal.units_le (le_of_le_of_eq hten ?_)
      rw [Decimal.value_one, zpow_one]
    have hexact := Decimal.units_of_representable hrepresentable
    rw [leastLarge]
    calc m.units ≤ (⟨1, 1⟩ : Decimal).units := hle
      _ = 1 * 10 ^ (1 : Nat) * unitsPerOne := hexact
      _ < 10 ^ (21 : Nat) * unitsPerOne :=
        Nat.mul_lt_mul_of_pos_right (by decide) Number.zero_lt_unitsPerOne
  rw [isPositional, Bool.and_eq_true, decide_eq_true_eq, decide_eq_true_eq]
  exact ⟨hleast, hlarge⟩

/-- So the exponent that is written is not zero. -/
theorem exponent_ne_zero (hm : m.units ≠ 0) (h : ¬ m.isPositional = true) :
    (Decimal.shortest m).exponent +
      ((Digits.ofNat (Decimal.shortest m).digits).tail.length : Int) ≠ 0 := by
  -- without the exponent the decimal would be from one to ten, which is in the range that has none
  intro hzero
  have hdigits := Decimal.digits_ne_zero hm (Decimal.isReadFrom_shortest m)
  have hone := Decimal.le_value (Digits.ten_pow_le hdigits)
  have hten := Decimal.value_lt (Digits.lt_ten_pow (Decimal.shortest m).digits)
  rw [hzero, zpow_zero] at hone
  rw [Nat.cast_succ, ← Int.add_assoc, hzero, Int.zero_add, zpow_one] at hten
  exact h (isPositional_of_value hone (le_of_lt hten))

/-- The literal of a magnitude is canonical and denotes the shortest decimal. -/
theorem canonical_literal (hm : m.units ≠ 0) :
    ∃ mantissa exponent, m.literal = .decimal mantissa exponent ∧
      m.literal.IsCanonical m.IsWhole ∧ (exponent ≠ none ↔ ¬ m.isPositional = true) ∧
      (mantissa.decimal exponent).value = (Decimal.shortest m).value := by
  have hdigits := Decimal.digits_ne_zero hm (Decimal.isReadFrom_shortest m)
  have hhead := Digits.head_ofNat_ne_zero hdigits
  have hlast : IsFraction (Digits.ofNat (Decimal.shortest m).digits).toList :=
    ⟨_, Digits.getLast?_ofNat _, Decimal.digits_shortest_mod_ten hm⟩
  have hvalue := Digits.value_ofNat (Decimal.shortest m).digits
  rw [literal]
  -- the two layouts, each with the digits of the shortest decimal
  by_cases hpositional : m.isPositional = true
  · rw [if_pos hpositional]
    obtain ⟨mantissa, hliteral, hplain⟩ :=
      (Digits.ofNat (Decimal.shortest m).digits).plain_positional (Decimal.shortest m).exponent
    refine ⟨mantissa, none, hliteral, ?_, by simp [hpositional], ?_⟩
    · rw [hliteral]
      exact .plain (hplain.isPlain (Decimal.exponent_shortest_nonneg_iff hm) hhead hlast)
    · rw [hplain.value_decimal, hvalue]
  · rw [if_neg hpositional]
    obtain ⟨mantissa, hliteral, hscientific⟩ :=
      (Digits.ofNat (Decimal.shortest m).digits).scientific_exponential
        (Decimal.shortest m).exponent
    refine ⟨mantissa, _, hliteral, ?_, by simp [hpositional], ?_⟩
    · rw [hliteral]
      exact .scientific (hscientific.isScientific hhead hlast)
        (Exponent.isCanonical_ofInt (exponent_ne_zero hm hpositional))
    · rw [hscientific.decimal_eq, hvalue]

end Magnitude

/-! ## Numbers -/

namespace Number

variable {s : Sign} {m : Magnitude}

/-- A number other than zero is less than zero if its sign is a minus. -/
theorem order?_zero_iff (hm : m.units ≠ 0) :
    (finite s m).order? (zero .plus) = some .lt ↔ s = .minus := by
  rw [order?_eq_some_lt_iff]
  simp only [position?_zero, Option.some.injEq]
  cases s with
  | plus => simp [position?, Sign.apply]
  | minus => simp [position?, Sign.apply, Nat.pos_of_ne_zero hm]

/-- The position of a decimal that is not too large is the count of its units. -/
theorem position?_toNumber {d : Decimal} {n : Nat} (h : d.units = n) (hn : n < overflowUnits) :
    (d.toNumber .plus).position? = some (n : Int) := by
  subst h
  rw [d.toNumber_eq, ofRatio, ofUnits, dif_pos (show roundUnits d.num d.den < _ from hn)]
  rfl

/-- The thresholds are numbers, so the comparison of units is one of numbers. -/
theorem isPositional_iff : ¬ m.isPositional = true ↔
    (finite .plus m).order? (Decimal.toNumber .plus ⟨1, -6⟩) = some .lt ∨
      ∃ o ∈ (finite .plus m).order? (Decimal.toNumber .plus ⟨1, 21⟩), o.isGE = true := by
  have hposition : (finite .plus m).position? = some (m.units : Int) := rfl
  have hleast := position?_toNumber Magnitude.units_leastPositional (by decide +kernel)
  have hlarge := position?_toNumber Magnitude.units_leastLarge (by decide +kernel)
  rw [order?, order?, hposition, hleast, hlarge, Magnitude.isPositional]
  simp only [Bool.and_eq_true, decide_eq_true_eq, Option.some.injEq, Option.mem_def,
    exists_eq_left', Int.isGE_compare, Int.compare_eq_lt]
  omega

/-- The text of a number other than zero is a sign and the literal of its magnitude. -/
theorem toList_text_finite (s : Sign) (hm : m.units ≠ 0) :
    (finite s m).text.toList = signText s.written ++ m.literal.text := by
  have hliteral : (finite s m).literal? = some ⟨s.written, m.literal⟩ := if_neg hm
  rw [toList_text_of_some hliteral, Literal.text]

/-- The text of a finite number other than zero is that of its magnitude, behind a minus sign if the
number is less than zero. It has an exponent just if the magnitude is less than the number of
`0.000001` or at least `10 ^ 21`. It is canonical, and what it denotes is the shortest decimal that
is read back. -/
theorem text_canonical (s : Sign) (m : Magnitude) (hm : m.units ≠ 0) :
    (finite s m).text = (if (finite s m).order? (zero .plus) = some .lt then "-" else "") ++
        (finite .plus m).text ∧
      ((finite s m).text.toList.head? = some '-' ↔
        (finite s m).order? (zero .plus) = some .lt) ∧
      ('e' ∈ (finite s m).text.toList ↔
        (finite .plus m).order? (Decimal.toNumber .plus ⟨1, -6⟩) = some .lt ∨
          ∃ o ∈ (finite .plus m).order? (Decimal.toNumber .plus ⟨1, 21⟩), o.isGE = true) ∧
      ∃ mantissa exponent,
        (finite .plus m).text.toList = (Unsigned.decimal mantissa exponent).text ∧
        (Unsigned.decimal mantissa exponent).IsCanonical m.IsWhole ∧
        (exponent ≠ none ↔ 'e' ∈ (finite .plus m).text.toList) ∧
        (mantissa.decimal exponent).value = (Decimal.shortest m).value ∧
        (Decimal.shortest m).IsShortest m := by
  obtain ⟨mantissa, exponent, hliteral, hcanonical, hpositional, hvalue⟩ := m.canonical_literal hm
  rw [hliteral] at hcanonical
  -- the two signs share a literal, so all but the sign is said of the number without one
  have htext : ∀ s : Sign, (finite s m).text.toList =
      signText s.written ++ (Unsigned.decimal mantissa exponent).text := by
    intro s
    rw [toList_text_finite s hm, hliteral]
  have hplus := (htext .plus).trans (List.nil_append _)
  have hmark : exponent ≠ none ↔ 'e' ∈ (finite .plus m).text.toList := by
    rw [hplus, hcanonical.mem_text_iff]
  simp only [order?_zero_iff hm]
  refine ⟨?_, ?_, ?_, mantissa, exponent, hplus, hcanonical, hmark, hvalue,
    Decimal.isShortest_shortest hm⟩
  · apply String.toList_inj.mp
    rw [String.toList_append, htext, hplus]
    cases s <;> rfl
  · obtain ⟨d, hd⟩ := hcanonical.head?_text
    rw [htext]
    cases s with
    | plus => simp [Sign.written, signText, hd, d.char_ne]
    | minus => simp [Sign.written, signText]
  · rw [← isPositional_iff, ← hpositional, hmark, htext, hplus]
    cases s <;> simp [Sign.written, signText]

/-- The greatest magnitude that is written with a negative exponent. -/
def greatestSmall : Magnitude :=
  ⟨4722366482869644 * 2 ^ (1002 : Nat), ⟨_, _, by decide, rfl⟩, by decide +kernel⟩

/-- It differs from the number of `0.000001` in the last bit. -/
theorem text_canonical_greatestSmall :
    greatestSmall.units ≠ 0 ∧ (finite .minus greatestSmall).text = "-9.999999999999997e-7" ∧
      (finite .plus greatestSmall).order? (Decimal.toNumber .plus ⟨1, -6⟩) = some .lt ∧
      ∃ mantissa exponent,
        "9.999999999999997e-7".toList = (Unsigned.decimal mantissa exponent).text ∧
        (Unsigned.decimal mantissa exponent).IsCanonical greatestSmall.IsWhole ∧
        exponent ≠ none ∧
        (mantissa.decimal exponent).value = (⟨9999999999999997, -22⟩ : Decimal).value ∧
        (⟨9999999999999997, -22⟩ : Decimal).IsShortest greatestSmall := by
  have hunits : greatestSmall.units ≠ 0 := by decide +kernel
  obtain ⟨htext, hnegative, hsmall, hshortest⟩ :
      (finite .plus greatestSmall).text = "9.999999999999997e-7" ∧
      (finite .minus greatestSmall).order? (zero .plus) = some .lt ∧
      (finite .plus greatestSmall).order? (Decimal.toNumber .plus ⟨1, -6⟩) = some .lt ∧
      Decimal.shortest greatestSmall = ⟨9999999999999997, -22⟩ := by
    decide +kernel
  obtain ⟨hsign, -, -, mantissa, exponent, hliteral, hcanonical, hexponent, hvalue, hread⟩ :=
    text_canonical .minus greatestSmall hunits
  rw [if_pos hnegative, htext] at hsign
  rw [htext] at hliteral hexponent
  rw [hshortest] at hvalue hread
  exact ⟨hunits, hsign, hsmall, mantissa, exponent, hliteral, hcanonical,
    hexponent.mpr (by decide), hvalue, hread⟩

end Number

end ScriptMachine
