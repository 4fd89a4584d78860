import ScriptMachine.Proofs.Numbers.RoundTrip

/-!
# What a value is coerced to

An array stays an array; a number and a text that starts with one become that number; any other text
stays as it is. No text is coerced to `nan`, and `nan` alone is rendered as a text that starts with
no number.

* `Value.IsPlain`: a text that is coerced to no number.
* `Value.coerce_cases`: the three things that can become of a value.
* `Number.leading?_text_eq_none_iff`, `Value.coerce_eq_nan_iff`: the case of `nan`.
-/

namespace ScriptMachine

/-! ## Numbers of texts -/

/-- A quotient is rounded to a number: to a finite one, or to an infinity where it is too large. -/
theorem Number.ofRatio_ne_nan (sign : Sign) (num den : Nat) : ofRatio sign num den ≠ nan := by
  intro h
  unfold ofRatio ofUnits at h
  split at h
  · cases h
  · cases h

/-- Every literal has a number for its value. -/
theorem Literal.value_ne_nan (l : Literal) : l.value ≠ .nan := by
  obtain ⟨s, u⟩ := l
  cases u with
  | infinity => nofun
  | decimal m e =>
    show (m.decimal e).toNumber (signValue s) ≠ .nan
    rw [Decimal.toNumber_eq]
    exact Number.ofRatio_ne_nan _ _ _

/-- No text starts with `nan`. -/
theorem Number.leading?_ne_nan (text : String) : leading? text ≠ some nan := by
  intro h
  obtain ⟨found, -, hvalue⟩ := Option.map_eq_some_iff.mp h
  exact found.1.value_ne_nan hvalue

/-- The text of a number is read back, but for the sign of a zero. -/
theorem Number.leading?_text {n : Number} (hn : n ≠ nan) :
    leading? n.text = some n.withPlusZero := by
  obtain ⟨l, hl⟩ := Option.ne_none_iff_exists'.mp (mt literal?_eq_none_iff.mp hn)
  -- the text is one literal, and nothing stands behind it
  have htext : n.text.toList = l.text ++ [] := by
    rw [text, hl, List.append_nil, String.toList_ofList]
  have hends : EndsNumber [] := by
    intro c hc
    cases hc
  rw [leading?_of_literal l htext hends, value_of_literal? hl]

/-- Every number but `nan` is rendered as a text that starts with a number. -/
theorem Number.leading?_text_eq_none_iff {n : Number} : leading? n.text = none ↔ n = nan := by
  constructor
  · intro h
    by_cases hn : n = nan
    · exact hn
    · rw [leading?_text hn] at h
      cases h
  · rintro rfl
    rfl

/-! ## Values -/

namespace Value

/-- A text that does not start with a number. -/
def IsPlain (v : Value) : Prop :=
  ∃ s, v = text s ∧ Number.leading? s = none

variable {v : Value}

theorem IsPlain.coerce_eq (h : v.IsPlain) : v.coerce = v := by
  obtain ⟨s, rfl, hs⟩ := h
  exact coerce_text_of_none hs

/-- A value is an array, or is coerced to a number, or is a plain text. -/
theorem coerce_cases (v : Value) : v.kind = .array ∨ (∃ n, v.coerce = number n) ∨ v.IsPlain := by
  cases v with
  | number n => exact .inr (.inl ⟨n, rfl⟩)
  | array items => exact .inl rfl
  | text s =>
    cases hs : Number.leading? s with
    | some n => exact .inr (.inl ⟨n, coerce_text_of_some hs⟩)
    | none => exact .inr (.inr ⟨s, rfl, hs⟩)

theorem kind_ne_array_of_coerce {n : Number} (h : v.coerce = number n) : v.kind ≠ .array := by
  cases v with
  | array items => cases h
  | number | text => nofun

theorem eq_array_of_kind (h : v.kind = .array) : ∃ items, v = array items := by
  cases v with
  | array items => exact ⟨items, rfl⟩
  | number | text => cases h

/-- Only arrays are coerced to arrays, so an array among coerced operands was one before. -/
theorem coerce_ne_array (h : v.kind ≠ .array) (items : List Value) : v.coerce ≠ array items := by
  intro hv
  rcases v.coerce_cases with harray | ⟨n, hn⟩ | hplain
  · exact h harray
  · rw [hn] at hv
    cases hv
  · obtain ⟨s, rfl, -⟩ := id hplain
    rw [hplain.coerce_eq] at hv
    cases hv

theorem IsPlain.kind_ne_array (h : v.IsPlain) : v.kind ≠ .array := by
  obtain ⟨s, rfl, -⟩ := h
  nofun

theorem IsPlain.coerce_ne_number (h : v.IsPlain) (n : Number) : v.coerce ≠ number n := by
  rw [h.coerce_eq]
  obtain ⟨s, rfl, -⟩ := h
  nofun

/-- No text is coerced to `nan`. -/
theorem coerce_eq_nan_iff : v.coerce = number .nan ↔ v = number .nan := by
  constructor
  · intro h
    cases v with
    | number n => exact h
    | array items => cases h
    | text s =>
      -- a text either stays what it is or becomes the number it starts with, which is not `nan`
      cases hs : Number.leading? s with
      | none =>
        rw [coerce_text_of_none hs] at h
        cases h
      | some n =>
        rw [coerce_text_of_some hs] at h
        cases h
        exact absurd hs (Number.leading?_ne_nan s)
  · rintro rfl
    rfl

end Value

end ScriptMachine
