import ScriptMachine.Proofs.Numbers.Order
import ScriptMachine.Proofs.Values.Coercion
import ScriptMachine.Proofs.Values.Dispatch

/-!
# Which values are equal

A number and a plain text are equal if the text is what the number is rendered as. But a number is
rendered as a text that starts with a number, and that is not plain: the exception is `nan`. So
beside equal numbers and equal texts there is just one more pair of equal values.

* `Value.Equal`: the three ways in which values are equal.
* `Value.isEqual_number_plain_iff`: a number and a plain text.
* `Value.isEqual_iff`: the three ways are those of `Value.isEqual`.
* `Value.equality_exact`: all of it, and that the rules of the left operand decide no differently.
-/

namespace ScriptMachine.Value

/-- One is `nan`, the other the word that it is rendered as. -/
def NanAndWord (a b : Value) : Prop :=
  a = number .nan ∧ b = text "NaN" ∨ a = text "NaN" ∧ b = number .nan

/-- The ways in which two values are equal. -/
inductive Equal (a b : Value) : Prop where
  | numbers {m n : Number} (ha : a.coerce = number m) (hb : b.coerce = number n) (h : m.Equal n)
  | texts {s : String} (hs : Number.leading? s = none) (ha : a = text s) (hb : b = text s)
  | nan (h : NanAndWord a b)

variable {a b : Value}

/-! ## By what becomes of the operands -/

/-- An array equals nothing, itself included. -/
theorem isEqual_of_array (h : a.kind = .array) : a.isEqual b = false := by
  obtain ⟨items, rfl⟩ := eq_array_of_kind h
  rfl

/-- Operands that are coerced to numbers are compared as numbers. -/
theorem isEqual_of_numbers {m n : Number} (ha : a.coerce = number m) (hb : b.coerce = number n) :
    a.isEqual b = m.equals n := by
  rw [isEqual, ha, hb, isEqualCoerced]

/-- Plain texts are equal if they are the same. -/
theorem isEqual_of_texts {s t : String} (hs : Number.leading? s = none)
    (ht : Number.leading? t = none) : (text s).isEqual (text t) = (s == t) := by
  rw [isEqual, coerce_text_of_none hs, coerce_text_of_none ht, isEqualCoerced]

/-- A number and a plain text are compared by the text of the number. -/
theorem isEqual_of_number_text {n : Number} {t : String} (ha : a.coerce = number n)
    (ht : Number.leading? t = none) : a.isEqual (text t) = (n.text == t) := by
  rw [isEqual, ha, coerce_text_of_none ht, isEqualCoerced]

variable (a b) in
/-- Equality takes its operands in either order. -/
theorem isEqual_comm : a.isEqual b = b.isEqual a := by
  unfold isEqual
  cases a.coerce <;> cases b.coerce <;> simp [isEqualCoerced, Number.equals_comm, Bool.beq_comm]

/-- A number and a plain text are equal only if the number is `nan`. -/
theorem isEqual_number_plain_iff {n : Number} (ha : a.coerce = number n) (hb : b.IsPlain) :
    a.isEqual b = true ↔ a = number .nan ∧ b = text "NaN" := by
  obtain ⟨t, rfl, ht⟩ := hb
  rw [isEqual_of_number_text ha ht, beq_iff_eq]
  constructor
  · rintro rfl
    obtain rfl := Number.leading?_text_eq_none_iff.mp ht
    exact ⟨coerce_eq_nan_iff.mp ha, rfl⟩
  · rintro ⟨rfl, hword⟩
    cases ha
    exact (text.inj hword).symm

/-- The same with the operands exchanged. -/
theorem isEqual_plain_number_iff {n : Number} (ha : a.IsPlain) (hb : b.coerce = number n) :
    a.isEqual b = true ↔ a = text "NaN" ∧ b = number .nan := by
  rw [isEqual_comm, isEqual_number_plain_iff hb ha, and_comm]

/-! ## The three ways -/

/-- Each of the three ways makes values equal. -/
theorem Equal.isEqual (h : a.Equal b) : a.isEqual b = true := by
  cases h with
  | numbers ha hb h => rw [isEqual_of_numbers ha hb, Number.equals_iff.mpr h]
  | texts hs ha hb => rw [ha, hb, isEqual_of_texts hs hs, beq_self_eq_true]
  | nan h =>
    rcases h with ⟨rfl, rfl⟩ | ⟨rfl, rfl⟩
    · rfl
    · rfl

/-- There is no fourth way. -/
theorem equal_of_isEqual (h : a.isEqual b = true) : a.Equal b := by
  -- nine cases, by what becomes of either operand; those with an array are ruled out
  rcases a.coerce_cases with ha | ⟨m, ha⟩ | ha
  · rw [isEqual_of_array ha] at h
    cases h
  · rcases b.coerce_cases with hb | ⟨n, hb⟩ | hb
    · rw [isEqual_comm, isEqual_of_array hb] at h
      cases h
    · rw [isEqual_of_numbers ha hb] at h
      exact .numbers ha hb (Number.equals_iff.mp h)
    · exact .nan (.inl ((isEqual_number_plain_iff ha hb).mp h))
  · rcases b.coerce_cases with hb | ⟨n, hb⟩ | hb
    · rw [isEqual_comm, isEqual_of_array hb] at h
      cases h
    · exact .nan (.inr ((isEqual_plain_number_iff ha hb).mp h))
    · obtain ⟨s, rfl, hs⟩ := ha
      obtain ⟨t, rfl, ht⟩ := hb
      rw [isEqual_of_texts hs ht, beq_iff_eq] at h
      exact .texts hs rfl (congrArg text h.symm)

theorem isEqual_iff : a.isEqual b = true ↔ a.Equal b :=
  ⟨equal_of_isEqual, Equal.isEqual⟩

/-- Two values are equal just if they are coerced to equal numbers, or are the same plain text, or
are `nan` and its word. The last is all that the comparison of a number and a plain text by text
comes to, on either side, since every other number is rendered as a text that starts with a number.
The rules of the left operand come to the same. -/
theorem equality_exact (a b : Value) :
    (a.isEqual b = true ↔ a.Equal b) ∧
      (∀ n, a.coerce = number n → b.IsPlain →
        (a.isEqual b = true ↔ a = number .nan ∧ b = text "NaN")) ∧
      (∀ n, a.IsPlain → b.coerce = number n →
        (a.isEqual b = true ↔ a = text "NaN" ∧ b = number .nan)) ∧
      (∀ n : Number, Number.leading? n.text = none ↔ n = .nan) ∧
      a.isEqualByLeft b = a.isEqual b :=
  ⟨isEqual_iff, fun _ => isEqual_number_plain_iff, fun _ => isEqual_plain_number_iff,
    fun _ => Number.leading?_text_eq_none_iff, isEqualByLeft_eq a b⟩

/-- The word, on either side. -/
theorem equality_exact_word :
    (text "NaN").IsPlain ∧ (number .nan).isEqual (text "NaN") = true ∧
      (text "NaN").isEqual (number .nan) = true := by
  have hplain : (text "NaN").IsPlain := ⟨"NaN", rfl, rfl⟩
  obtain ⟨-, hright, -⟩ := equality_exact (number .nan) (text "NaN")
  obtain ⟨-, -, hleft, -⟩ := equality_exact (text "NaN") (number .nan)
  exact ⟨hplain, (hright .nan rfl hplain).mpr ⟨rfl, rfl⟩, (hleft .nan hplain rfl).mpr ⟨rfl, rfl⟩⟩

end ScriptMachine.Value
