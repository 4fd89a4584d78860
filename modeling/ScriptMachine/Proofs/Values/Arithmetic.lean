import ScriptMachine.Proofs.Numbers.Arithmetic
import ScriptMachine.Proofs.Numbers.Order
import ScriptMachine.Proofs.Values.Coercion
import ScriptMachine.Value.Arithmetic

/-!
# What an arithmetic operator comes to

The result of an operator is told by rules, of which one and only one applies to any two operands.
An array on either side decides; then it matters whether both operands are coerced to numbers. Two
numbers have a rule for each operator, which names its operation.

* `ArithmeticOperator.Gives`: the rules.
* `ArithmeticOperator.evaluate_eq_iff`: they are those of `ArithmeticOperator.evaluate`.
* `ArithmeticOperator.evaluate_determined`: the result, the failures and what they report, and what
  the four operations on numbers come to.
-/

namespace ScriptMachine

/-! ## Rules

They are told by the operands before and after coercion, as a host sees them, and not by the order
in which the cases are looked at. -/

namespace ArithmeticOperator

/-- The rules of an operator on two operands. -/
inductive Gives (op : ArithmeticOperator) (left right : Value) (span : Span) :
    Except Diagnostic Value → Prop where
  | array (h : left.kind = .array ∨ right.kind = .array) :
      Gives op left right span (.error (.arrayOperand span op))
  | sum {a b : Number} (hleft : left.coerce = .number a) (hright : right.coerce = .number b)
      (hop : op = add) : Gives op left right span (.ok (.number (a + b)))
  | difference {a b : Number} (hleft : left.coerce = .number a)
      (hright : right.coerce = .number b) (hop : op = sub) :
      Gives op left right span (.ok (.number (a - b)))
  | product {a b : Number} (hleft : left.coerce = .number a) (hright : right.coerce = .number b)
      (hop : op = mul) : Gives op left right span (.ok (.number (a * b)))
  | quotient {a b : Number} (hleft : left.coerce = .number a) (hright : right.coerce = .number b)
      (hop : op = div) (hdivisor : ∀ s, b ≠ .zero s) :
      Gives op left right span (.ok (.number (a / b)))
  | zeroDivisor {a : Number} {s : Sign} (hleft : left.coerce = .number a)
      (hright : right.coerce = .number (.zero s)) (hop : op = div) :
      Gives op left right span (.error (.divisionByZero span))
  | joined (hleft : left.kind ≠ .array) (hright : right.kind ≠ .array)
      (hplain : left.IsPlain ∨ right.IsPlain) (hop : op = add) :
      Gives op left right span (.ok (.text (left.coerce.display ++ right.display)))
  | text (hleft : left.kind ≠ .array) (hright : right.kind ≠ .array)
      (hplain : left.IsPlain ∨ right.IsPlain) (hop : op ≠ add) :
      Gives op left right span (.error (.textOperand span op))

variable {op : ArithmeticOperator} {left right : Value} {span : Span}

theorem evaluate_of_array (h : left.kind = .array ∨ right.kind = .array) :
    op.evaluate left right span = .error (.arrayOperand span op) := by
  rcases h with h | h
  · obtain ⟨items, rfl⟩ := Value.eq_array_of_kind h
    rfl
  · obtain ⟨items, rfl⟩ := Value.eq_array_of_kind h
    -- an array on the right is seen whatever the left operand is coerced to
    unfold evaluate
    cases left.coerce <;> rfl

theorem evaluate_of_numbers {a b : Number} (hleft : left.coerce = .number a)
    (hright : right.coerce = .number b) :
    op.evaluate left right span = op.onNumbers a b span := by
  rw [evaluate, hleft, hright]

theorem evaluate_of_plain (hleft : left.kind ≠ .array) (hright : right.kind ≠ .array)
    (h : left.IsPlain ∨ right.IsPlain) :
    op.evaluate left right span = op.onTexts left.coerce right span := by
  have hl := Value.coerce_ne_array hleft
  have hr := Value.coerce_ne_array hright
  -- a plain text is no number, so there is not one on either side
  have hnumbers : ∀ a b, left.coerce = .number a → right.coerce ≠ .number b := by
    intro a b ha hb
    rcases h with h | h
    · exact h.coerce_ne_number a ha
    · exact h.coerce_ne_number b hb
  unfold evaluate
  split
  · exact absurd ‹_› (hl _)
  · exact absurd ‹_› (hr _)
  · exact absurd ‹_› (hnumbers _ _ ‹_›)
  · rfl

/-- Only a division looks at its right number before it is computed. -/
theorem onNumbers_of_ne_div {a b : Number} (hop : op ≠ div) :
    op.onNumbers a b span = .ok (.number (op.compute a b)) := by
  rw [onNumbers, if_neg]
  rintro ⟨hdiv, -⟩
  exact hop hdiv

/-- A division by neither zero is computed. -/
theorem onNumbers_div {a b : Number} (hdivisor : ∀ s, b ≠ .zero s) :
    div.onNumbers a b span = .ok (.number (a / b)) := by
  rw [onNumbers, if_neg]
  · rfl
  · rintro ⟨-, hzero⟩
    obtain ⟨s, hs⟩ := Number.isZero_iff.mp hzero
    exact hdivisor s hs

/-- Each rule tells the result. -/
theorem Gives.evaluate_eq {r : Except Diagnostic Value} (h : op.Gives left right span r) :
    op.evaluate left right span = r := by
  cases h with
  | array h => exact evaluate_of_array h
  | sum hleft hright hop | difference hleft hright hop | product hleft hright hop =>
    subst hop
    rw [evaluate_of_numbers hleft hright, onNumbers_of_ne_div (by decide)]
    rfl
  | quotient hleft hright hop hdivisor =>
    subst hop
    rw [evaluate_of_numbers hleft hright, onNumbers_div hdivisor]
  | zeroDivisor hleft hright hop =>
    rw [evaluate_of_numbers hleft hright, onNumbers,
      if_pos ⟨hop, Number.isZero_iff.mpr ⟨_, rfl⟩⟩]
  | joined hleft hright hplain hop =>
    rw [evaluate_of_plain hleft hright hplain, onTexts, if_pos hop]
  | text hleft hright hplain hop =>
    rw [evaluate_of_plain hleft hright hplain, onTexts, if_neg hop]

theorem exists_gives_of_numbers {a b : Number} (hleft : left.coerce = .number a)
    (hright : right.coerce = .number b) : ∃ r, op.Gives left right span r := by
  cases op with
  | add => exact ⟨_, .sum hleft hright rfl⟩
  | sub => exact ⟨_, .difference hleft hright rfl⟩
  | mul => exact ⟨_, .product hleft hright rfl⟩
  | div =>
    by_cases hzero : ∃ s, b = .zero s
    · obtain ⟨s, rfl⟩ := hzero
      exact ⟨_, .zeroDivisor hleft hright rfl⟩
    · exact ⟨_, .quotient hleft hright rfl fun s hs => hzero ⟨s, hs⟩⟩

theorem exists_gives_of_plain (hleft : left.kind ≠ .array) (hright : right.kind ≠ .array)
    (hplain : left.IsPlain ∨ right.IsPlain) : ∃ r, op.Gives left right span r := by
  by_cases hop : op = add
  · exact ⟨_, .joined hleft hright hplain hop⟩
  · exact ⟨_, .text hleft hright hplain hop⟩

variable (op left right span) in
/-- Some rule applies to any two operands. -/
theorem exists_gives : ∃ r, op.Gives left right span r := by
  rcases left.coerce_cases with hleft | ⟨a, hleft⟩ | hleft
  · exact ⟨_, .array (.inl hleft)⟩
  · rcases right.coerce_cases with hright | ⟨b, hright⟩ | hright
    · exact ⟨_, .array (.inr hright)⟩
    · exact exists_gives_of_numbers hleft hright
    · exact exists_gives_of_plain (Value.kind_ne_array_of_coerce hleft) hright.kind_ne_array
        (.inr hright)
  · rcases right.coerce_cases with hright | ⟨b, hright⟩ | hright
    · exact ⟨_, .array (.inr hright)⟩
    · exact exists_gives_of_plain hleft.kind_ne_array (Value.kind_ne_array_of_coerce hright)
        (.inl hleft)
    · exact exists_gives_of_plain hleft.kind_ne_array hright.kind_ne_array (.inl hleft)

/-- The rules are complete, and no two of them give different results. -/
theorem evaluate_eq_iff {r : Except Diagnostic Value} :
    op.evaluate left right span = r ↔ op.Gives left right span r := by
  constructor
  · rintro rfl
    obtain ⟨r, hr⟩ := exists_gives op left right span
    rwa [hr.evaluate_eq]
  · exact Gives.evaluate_eq

/-! ## Failures -/

/-- An operator that failed met an array, or was not a sum and met a text, or divided by zero. -/
theorem evaluate_error {d : Diagnostic} (h : op.evaluate left right span = .error d) :
    d = .arrayOperand span op ∨ (op ≠ add ∧ d = .textOperand span op) ∨
      (op = div ∧ d = .divisionByZero span) := by
  cases evaluate_eq_iff.mp h with
  | array => exact .inl rfl
  | zeroDivisor _ _ hop => exact .inr (.inr ⟨hop, rfl⟩)
  | text _ _ _ hop => exact .inr (.inl ⟨hop, rfl⟩)

theorem evaluate_arrayOperand_iff :
    (∃ d, op.evaluate left right span = .error d ∧ d.code = .arrayOperand) ↔
      left.kind = .array ∨ right.kind = .array := by
  constructor
  · rintro ⟨d, hd, hcode⟩
    cases evaluate_eq_iff.mp hd with
    | array h => exact h
    | zeroDivisor | text => cases hcode
  · intro h
    exact ⟨_, evaluate_of_array h, rfl⟩

theorem evaluate_divisionByZero_iff :
    (∃ d, op.evaluate left right span = .error d ∧ d.code = .divisionByZero) ↔
      op = div ∧ ∃ a s, left.coerce = .number a ∧ right.coerce = .number (.zero s) := by
  constructor
  · rintro ⟨d, hd, hcode⟩
    -- of the rules that fail only one has this code
    cases evaluate_eq_iff.mp hd with
    | zeroDivisor hleft hright hop => exact ⟨hop, _, _, hleft, hright⟩
    | array | text => cases hcode
  · rintro ⟨hop, a, s, hleft, hright⟩
    exact ⟨_, Gives.evaluate_eq (.zeroDivisor hleft hright hop), rfl⟩

theorem evaluate_textOperand_iff :
    (∃ d, op.evaluate left right span = .error d ∧ d.code = .textOperand) ↔
      op ≠ add ∧ left.kind ≠ .array ∧ right.kind ≠ .array ∧ (left.IsPlain ∨ right.IsPlain) := by
  constructor
  · rintro ⟨d, hd, hcode⟩
    -- of the rules that fail only one has this code
    cases evaluate_eq_iff.mp hd with
    | text hleft hright hplain hop => exact ⟨hop, hleft, hright, hplain⟩
    | array | zeroDivisor => cases hcode
  · rintro ⟨hop, hleft, hright, hplain⟩
    exact ⟨_, Gives.evaluate_eq (.text hleft hright hplain hop), rfl⟩

/-- A failure is at the place of the operator. It names the operator's symbol and nothing else,
but a division by zero names nothing. -/
theorem evaluate_error_reports {d : Diagnostic} (h : op.evaluate left right span = .error d) :
    d.span = span ∧ d.args = if d.code = .divisionByZero then [] else [op.symbol] := by
  rcases evaluate_error h with rfl | ⟨-, rfl⟩ | ⟨-, rfl⟩ <;> exact ⟨rfl, rfl⟩

theorem evaluate_ne_array {v : Value} (h : op.evaluate left right span = .ok v) :
    v.kind ≠ .array := by
  cases evaluate_eq_iff.mp h <;> nofun

/-! ## The result -/

/-- The kinds of the operands and what they are coerced to determine the result. It is an array's
failure just when an operand is an array, whatever the other is; a division's just when two numbers
are divided of which the second is a zero; a text's just when an operator other than the sum meets a
text that is no number and no array. The result is never an array. The result on two numbers is
their sum, difference, product or quotient, which is the exact one, rounded once, if both are
finite. -/
theorem evaluate_determined (op : ArithmeticOperator) (left right : Value) (span : Span) :
    (∀ r, op.evaluate left right span = r ↔ op.Gives left right span r) ∧
      ((∃ d, op.evaluate left right span = .error d ∧ d.code = .arrayOperand) ↔
        left.kind = .array ∨ right.kind = .array) ∧
      ((∃ d, op.evaluate left right span = .error d ∧ d.code = .divisionByZero) ↔
        op = div ∧ ∃ a s, left.coerce = .number a ∧ right.coerce = .number (.zero s)) ∧
      ((∃ d, op.evaluate left right span = .error d ∧ d.code = .textOperand) ↔
        op ≠ add ∧ left.kind ≠ .array ∧ right.kind ≠ .array ∧ (left.IsPlain ∨ right.IsPlain)) ∧
      (∀ d, op.evaluate left right span = .error d →
        d.span = span ∧ d.args = if d.code = .divisionByZero then [] else [op.symbol]) ∧
      (∀ v, op.evaluate left right span = .ok v → v.kind ≠ .array) ∧
      ∀ (a b : Number) (x y : ℚ), a.value? = some x → b.value? = some y →
        (a + b).RoundsTo (x + y) ∧ (a - b).RoundsTo (x - y) ∧ (a * b).RoundsTo (x * y) ∧
          (y ≠ 0 → (a / b).RoundsTo (x / y)) :=
  ⟨fun _ => evaluate_eq_iff, evaluate_arrayOperand_iff, evaluate_divisionByZero_iff,
    evaluate_textOperand_iff, fun _ => evaluate_error_reports, fun _ => evaluate_ne_array,
    fun _ _ _ _ ha hb => ⟨Number.add_roundsTo ha hb, Number.sub_roundsTo ha hb,
      Number.mul_roundsTo ha hb, Number.div_roundsTo ha hb⟩⟩

/-- The right operand of a sum of texts is kept as it was written. -/
example (span : Span) :
    add.evaluate (.text "y") (.text "5x") span = .ok (.text "y5x") := by
  rfl

end ArithmeticOperator

end ScriptMachine
