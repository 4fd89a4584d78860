import ScriptMachine.Proofs.Numbers.Layout
import ScriptMachine.Proofs.Numbers.Scan
import ScriptMachine.Value.Basic

/-!
# A rendered number is read back

The literal that a number is rendered as denotes it. Either layout of a decimal has its value, and
the decimal is one that is read as the number; so the text of a number, whatever stands behind it,
starts with that number.

* `Literal.value_positional`, `Literal.value_exponential`: the layouts keep the value of a decimal.
* `Magnitude.value_literal`: a magnitude is what its literal denotes.
* `Number.leading?_text_append`: the number at the start of a rendered number and what follows it.
-/

namespace ScriptMachine

-- A power of a natural number is the core library's, also where other ones are in scope.
attribute [local instance (20000)] instPowNat

/-! ## Decimals -/

namespace Decimal

/-- Zeros at the end of the digits stand for a power of ten. -/
theorem toNumber_zeros (sign : Sign) (n k : Nat) :
    (⟨n * 10 ^ k, 0⟩ : Decimal).toNumber sign = (⟨n, k⟩ : Decimal).toNumber sign := by
  have hnum : (⟨n * 10 ^ k, 0⟩ : Decimal).num = (⟨n, k⟩ : Decimal).num := by
    show n * 10 ^ k * 10 ^ (0 : Nat) * unitsPerOne = n * 10 ^ k * unitsPerOne
    rw [Nat.pow_zero, Nat.mul_one]
  have hden : (⟨n * 10 ^ k, 0⟩ : Decimal).den = (⟨n, k⟩ : Decimal).den := by
    have hk : (-(k : Int)).toNat = 0 := Int.toNat_of_nonpos (by omega)
    rw [den, den, hk]
    rfl
  rw [toNumber_eq, toNumber_eq, hnum, hden]

/-- The sign of a decimal is that of its number. -/
theorem toNumber_of_plus {d : Decimal} {m : Magnitude} (h : d.toNumber .plus = .finite .plus m)
    (sign : Sign) : d.toNumber sign = .finite sign m := by
  rw [toNumber_eq, Number.ofRatio] at h ⊢
  unfold Number.ofUnits at h ⊢
  by_cases hbounded : roundUnits d.num d.den < overflowUnits
  · rw [dif_pos hbounded] at h ⊢
    rw [(Number.finite.inj h).2]
  · rw [dif_neg hbounded] at h
    cases h

end Decimal

/-! ## Layouts -/

theorem Literal.value_positional (s : Option Sign) (ds : Digits) (exponent : Int) :
    (⟨s, .positional ds exponent⟩ : Literal).value =
      (⟨ds.value, exponent⟩ : Decimal).toNumber (signValue s) := by
  obtain ⟨m, hm, hplain⟩ := ds.plain_positional exponent
  rw [hm]
  show (m.decimal none).toNumber (signValue s) = _
  rw [hplain.decimal_eq]
  split
  · next h =>
    -- written zeros are digits, and stand for the power of ten
    obtain ⟨k, rfl⟩ := Int.eq_ofNat_of_zero_le h
    exact Decimal.toNumber_zeros _ _ k
  · rfl

theorem Literal.value_exponential (s : Option Sign) (ds : Digits) (exponent : Int) :
    (⟨s, .exponential ds exponent⟩ : Literal).value =
      (⟨ds.value, exponent⟩ : Decimal).toNumber (signValue s) := by
  obtain ⟨m, hm, hscientific⟩ := ds.scientific_exponential exponent
  rw [hm]
  show (m.decimal _).toNumber (signValue s) = _
  rw [hscientific.decimal_eq]

/-! ## Numbers -/

theorem Magnitude.value_literal (s : Option Sign) (m : Magnitude) :
    (⟨s, m.literal⟩ : Literal).value = .finite (signValue s) m := by
  -- both layouts denote the shortest decimal, which is read as the magnitude
  have hvalue : (⟨(Digits.ofNat (Decimal.shortest m).digits).value, (Decimal.shortest m).exponent⟩
      : Decimal).toNumber (signValue s) = .finite (signValue s) m := by
    rw [Digits.value_ofNat]
    exact Decimal.toNumber_of_plus (Decimal.toNumber_plus_shortest m) (signValue s)
  rw [literal]
  split
  · rw [Literal.value_positional, hvalue]
  · rw [Literal.value_exponential, hvalue]

theorem signValue_written (s : Sign) : signValue s.written = s := by
  cases s <;> rfl

namespace Number

/-- The number, with a zero made positive. -/
def withPlusZero (n : Number) : Number :=
  if n.isZero then .zero .plus else n

theorem literal?_eq_none_iff {n : Number} : n.literal? = none ↔ n = .nan := by
  cases n with
  | nan => exact ⟨fun _ => rfl, fun _ => rfl⟩
  | infinity s => exact ⟨nofun, nofun⟩
  | finite s m =>
    rw [literal?]
    split
    · exact ⟨nofun, nofun⟩
    · exact ⟨nofun, nofun⟩

theorem value_of_literal? {n : Number} {l : Literal} (h : n.literal? = some l) :
    l.value = n.withPlusZero := by
  cases n with
  | nan => cases h
  | infinity s =>
    cases h
    rw [Literal.value, signValue_written]
    rfl
  | finite s m =>
    rw [literal?] at h
    by_cases hzero : m.units = 0
    · rw [if_pos hzero] at h
      cases h
      have hisZero : (finite s m).isZero = true := beq_iff_eq.mpr hzero
      rw [withPlusZero, if_pos hisZero]
      rfl
    · rw [if_neg hzero] at h
      cases h
      have hisZero : ¬ (finite s m).isZero = true := mt beq_iff_eq.mp hzero
      rw [withPlusZero, if_neg hisZero, m.value_literal, signValue_written]

theorem toList_text_of_some {n : Number} {l : Literal} (h : n.literal? = some l) :
    n.text.toList = l.text := by
  rw [text, h, String.toList_ofList]

/-- What is not a number is rendered as a word that no number starts. -/
theorem leading?_nan_text_append (t : String) : leading? (nan.text ++ t) = none := by
  have hword : (nan.text ++ t).toList = 'N' :: 'a' :: 'N' :: t.toList := by
    rw [String.toList_append]
    rfl
  rw [leading?, hword]
  rfl

/-- The text of a number, with whatever text behind it that does not go on with it, starts with
that number, except that a zero has lost its sign. What is not a number is rendered as a text that
starts with none. A value is coerced accordingly. -/
theorem leading?_text_append (n : Number) {t : String}
    (ht : ∀ c ∈ t.toList.head?, c.isDigit = false ∧ c ≠ '.' ∧ c ≠ 'e' ∧ c ≠ 'E') :
    leading? (n.text ++ t) = (if n = .nan then none else some n.withPlusZero) ∧
      (Value.text (n.text ++ t)).coerce =
        if n = .nan then .text (n.text ++ t) else .number n.withPlusZero := by
  by_cases hn : n = .nan
  · have hleading : leading? (n.text ++ t) = none := by
      rw [hn, leading?_nan_text_append]
    rw [if_pos hn, if_pos hn]
    exact ⟨hleading, Value.coerce_text_of_none hleading⟩
  · -- any other number is rendered as a literal, which is scanned back whatever follows
    obtain ⟨l, hl⟩ := Option.ne_none_iff_exists'.mp (mt literal?_eq_none_iff.mp hn)
    have htext : (n.text ++ t).toList = l.text ++ t.toList := by
      rw [String.toList_append, toList_text_of_some hl]
    have hleading : leading? (n.text ++ t) = some n.withPlusZero := by
      rw [leading?_of_literal l htext ht, value_of_literal? hl]
    rw [if_neg hn, if_neg hn]
    exact ⟨hleading, Value.coerce_text_of_some hleading⟩

/-- The greatest negative number, in front of a unit. -/
theorem leading?_text_append_unit :
    (∀ c ∈ "px".toList.head?, c.isDigit = false ∧ c ≠ '.' ∧ c ≠ 'e' ∧ c ≠ 'E') ∧
      (ofBits 0x8000000000000001).text = "-5e-324" ∧
      leading? "-5e-324px" = some (ofBits 0x8000000000000001) ∧
      (Value.text "-5e-324px").coerce = .number (ofBits 0x8000000000000001) := by
  have hunit : ∀ c ∈ "px".toList.head?, c.isDigit = false ∧ c ≠ '.' ∧ c ≠ 'e' ∧ c ≠ 'E' := by
    intro c hc
    obtain rfl : 'p' = c := Option.some.inj hc
    decide
  obtain ⟨htext, hnumber, hzero⟩ : (ofBits 0x8000000000000001).text = "-5e-324" ∧
      ofBits 0x8000000000000001 ≠ nan ∧ (ofBits 0x8000000000000001).isZero = false := by
    decide +kernel
  obtain ⟨hleading, hcoerce⟩ := leading?_text_append (ofBits 0x8000000000000001) hunit
  -- what it is made from is too large to be looked at again
  generalize ofBits 0x8000000000000001 = n at *
  rw [htext, if_neg hnumber, withPlusZero, hzero] at hleading hcoerce
  exact ⟨hunit, htext, hleading, hcoerce⟩

end Number

end ScriptMachine
