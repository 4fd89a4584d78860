import Mathlib.Data.Int.Order.Basic
import Mathlib.Data.String.Basic
import Mathlib.Data.Sum.Order
import Mathlib.Order.Compare
import ScriptMachine.Proofs.Values.Equality

/-!
# The order of all values

Numbers and plain texts are ordered apart from each other. So comparisons go by the place of a value
in one partial order, in which the line of numbers and the line of texts stand side by side. The
exception is `nan`: it has no place on either line, and yet there is a text that equals it.

* `Value.place?`: the place of a value, if it has one.
* `Value.order?_eq_some_iff`, `Value.isEqual_iff_place`: the comparisons through places.
* `Value.comparisons_mirror`: exchanged operands, and how many of the three relations hold.
* `Value.ordering_consistent`: the laws of an order.
-/

namespace ScriptMachine

/-! ## Places -/

namespace Value

/-- The place of a value in the order: numbers are on one line, by their positions, and plain texts
on the other. Arrays and `nan` have none. -/
def place? (v : Value) : Option (Int ⊕ String) :=
  match v.coerce with
  | number n => n.position?.map .inl
  | text s => some (.inr s)
  | array _ => none

variable {a b c v : Value}

/-- What is coerced to a number has that number's place; only `nan` has none. -/
theorem place?_of_number {n : Number} (h : v.coerce = number n) :
    v.place? = n.position?.map .inl := by
  rw [place?, h]

/-- A plain text is its own place, on the line of texts. -/
theorem place?_of_text {s : String} (h : Number.leading? s = none) :
    (text s).place? = some (.inr s) := by
  rw [place?, coerce_text_of_none h]

/-- Arrays are on neither line. -/
theorem place?_of_array (h : v.kind = .array) : v.place? = none := by
  obtain ⟨items, rfl⟩ := eq_array_of_kind h
  rfl

/-- The values on the line of numbers are numerals as well as numbers. -/
theorem place?_eq_some_inl_iff {x : Int} :
    v.place? = some (.inl x) ↔ ∃ n, v.coerce = number n ∧ n.position? = some x := by
  -- one case for each kind of coerced value; only a number can be on that line
  rcases v.coerce_cases with h | ⟨n, h⟩ | ⟨s, rfl, hs⟩
  · obtain ⟨items, rfl⟩ := eq_array_of_kind h
    simp [place?, coerce]
  · simp [place?_of_number h, h]
  · simp [place?_of_text hs, coerce_text_of_none hs]

/-- On the line of texts there are only plain ones, and each at its own place. -/
theorem place?_eq_some_inr_iff {s : String} :
    v.place? = some (.inr s) ↔ v = text s ∧ Number.leading? s = none := by
  constructor
  · intro hv
    -- an array has no place, and a number is on the other line
    rcases v.coerce_cases with h | ⟨n, h⟩ | ⟨t, rfl, ht⟩
    · rw [place?_of_array h] at hv
      cases hv
    · simp [place?_of_number h] at hv
    · rw [place?_of_text ht] at hv
      cases hv
      exact ⟨rfl, ht⟩
  · rintro ⟨rfl, hs⟩
    exact place?_of_text hs

/-- Of all values but `nan`, the arrays have no place. -/
theorem exists_place_iff (h : v ≠ number .nan) : (∃ p, v.place? = some p) ↔ v.kind ≠ .array := by
  rcases v.coerce_cases with hv | ⟨n, hv⟩ | hv
  · simp [place?_of_array hv, hv]
  · -- a text is never coerced to `nan`, so a coerced `nan` is the value excluded
    have hn : n ≠ .nan := by
      rintro rfl
      exact h (coerce_eq_nan_iff.mp hv)
    obtain ⟨x, hx⟩ := Number.exists_position hn
    simp [place?_of_number hv, hx, kind_ne_array_of_coerce hv]
  · obtain ⟨s, rfl, hs⟩ := id hv
    simp [place?_of_text hs, hv.kind_ne_array]

/-! ## Order through places -/

section Compares

variable {o : Ordering} {x y : Int} {s t : String}

/-- On the line of numbers the order of the sum is the comparison of the integers. -/
theorem compares_inl_iff : o.Compares (.inl x : Int ⊕ String) (.inl y) ↔ compare x y = o := by
  rw [compare_iff]
  cases o <;> simp [Ordering.Compares]

/-- On the line of texts the order of the sum is the one by which the machine compares texts. -/
theorem compares_inr_iff : o.Compares (.inr s : Int ⊕ String) (.inr t) ↔ textOrder s t = o := by
  -- the two orders are defined apart, and agree since that of texts is linear
  have hcompare : textOrder s t = compare s t :=
    (LinearOrder.compare_eq_compareOfLessAndEq s t).symm
  rw [hcompare, compare_iff]
  cases o <;> simp [Ordering.Compares]

/-- The lines stand side by side: no number is before, at or after a text. -/
theorem not_compares_inl_inr : ¬ o.Compares (.inl x : Int ⊕ String) (.inr s) := by
  cases o <;> simp [Ordering.Compares]

/-- The lines stand side by side: no text is before, at or after a number. -/
theorem not_compares_inr_inl : ¬ o.Compares (.inr s : Int ⊕ String) (.inl x) := by
  cases o <;> simp [Ordering.Compares]

end Compares

/-- The order of two values is that of their places, if both have one and these are ordered. -/
theorem order?_eq_some_iff {o : Ordering} :
    a.order? b = some o ↔ ∃ p q, a.place? = some p ∧ b.place? = some q ∧ o.Compares p q := by
  unfold order? place?
  -- both sides go by the coerced operands; where these differ in kind, neither has an order
  cases a.coerce with
  | array items => simp [orderCoerced?]
  | number m =>
    cases b.coerce with
    | array items => simp [orderCoerced?]
    | number n => simp [orderCoerced?, Number.order?_eq_some_iff, compares_inl_iff]
    | text t => simp [orderCoerced?, not_compares_inl_inr]
  | text s =>
    cases b.coerce with
    | array items => simp [orderCoerced?]
    | number n => simp [orderCoerced?, not_compares_inr_inl]
    | text t => simp [orderCoerced?, compares_inr_iff]

/-- One value is less than another if it is before it on one line. -/
theorem isLess_iff :
    a.isLess b = true ↔ ∃ p q, a.place? = some p ∧ b.place? = some q ∧ p < q := by
  rw [isLess, beq_iff_eq, order?_eq_some_iff]
  rfl

/-- One value is greater than another if it is behind it on one line. -/
theorem isGreater_iff :
    a.isGreater b = true ↔ ∃ p q, a.place? = some p ∧ b.place? = some q ∧ q < p := by
  rw [isGreater, beq_iff_eq, order?_eq_some_iff]
  rfl

/-- Values that share a place are equal, and beyond them only `nan` and its word. -/
theorem isEqual_iff_place :
    a.isEqual b = true ↔ (∃ p, a.place? = some p ∧ b.place? = some p) ∨ NanAndWord a b := by
  rw [isEqual_iff]
  constructor
  · intro h
    -- equal operands are on one line, and their places are made of what they share
    cases h with
    | numbers ha hb h =>
      obtain ⟨x, hx, hy⟩ := Number.equals_eq_true_iff.mp (Number.equals_iff.mpr h)
      exact .inl ⟨.inl x, place?_eq_some_inl_iff.mpr ⟨_, ha, hx⟩,
        place?_eq_some_inl_iff.mpr ⟨_, hb, hy⟩⟩
    | texts hs ha hb =>
      exact .inl ⟨.inr _, place?_eq_some_inr_iff.mpr ⟨ha, hs⟩, place?_eq_some_inr_iff.mpr ⟨hb, hs⟩⟩
    | nan h => exact .inr h
  · rintro (⟨p, ha, hb⟩ | h)
    · -- a shared place tells the line, and thereby the way in which the operands are equal
      cases p with
      | inl x =>
        obtain ⟨m, hm, hx⟩ := place?_eq_some_inl_iff.mp ha
        obtain ⟨n, hn, hy⟩ := place?_eq_some_inl_iff.mp hb
        exact .numbers hm hn (Number.equal_of_position hx hy)
      | inr s =>
        obtain ⟨ha, hs⟩ := place?_eq_some_inr_iff.mp ha
        exact .texts hs ha (place?_eq_some_inr_iff.mp hb).1
    · exact .nan h

/-! ## Exchanged operands -/

variable (a b) in
/-- Greater and less are one relation, read from either side. -/
theorem isGreater_eq_isLess : a.isGreater b = b.isLess a := by
  rw [Bool.eq_iff_iff, isGreater_iff, isLess_iff]
  constructor
  · rintro ⟨p, q, ha, hb, hlt⟩
    exact ⟨q, p, hb, ha, hlt⟩
  · rintro ⟨q, p, hb, ha, hlt⟩
    exact ⟨p, q, ha, hb, hlt⟩

end Value

/-- Exchanged operands are related by the converse. The two weak relations are a strict one or
equality, so they follow from the other four. -/
theorem ComparisonOperator.holds_converse (op : ComparisonOperator) (a b : Value) :
    op.converse.holds b a = op.holds a b := by
  cases op with
  | eq => exact Value.isEqual_comm b a
  | ne => exact congrArg not (Value.isEqual_comm b a)
  | lt => exact Value.isGreater_eq_isLess b a
  | gt => exact (Value.isGreater_eq_isLess a b).symm
  | le =>
    show (b.isGreater a || b.isEqual a) = (a.isLess b || a.isEqual b)
    rw [Value.isGreater_eq_isLess b a, Value.isEqual_comm b a]
  | ge =>
    show (b.isLess a || b.isEqual a) = (a.isGreater b || a.isEqual b)
    rw [Value.isGreater_eq_isLess a b, Value.isEqual_comm b a]

/-! ## One relation at most -/

namespace Value

variable {a b c : Value}

/-- Though `nan` equals its word, it is neither before nor behind it. -/
theorem NanAndWord.order?_eq_none (h : NanAndWord a b) : a.order? b = none := by
  rcases h with ⟨rfl, rfl⟩ | ⟨rfl, rfl⟩
  · rfl
  · rfl

/-- Equality is the middle of the order, and beyond the order there are only `nan` and its word. -/
theorem isEqual_iff_order? : a.isEqual b = true ↔ a.order? b = some .eq ∨ NanAndWord a b := by
  rw [isEqual_iff_place, order?_eq_some_iff]
  refine or_congr_left ⟨?_, ?_⟩
  · rintro ⟨p, ha, hb⟩
    exact ⟨p, p, ha, hb, rfl⟩
  · rintro ⟨p, q, ha, hb, hpq⟩
    exact ⟨p, ha, hpq ▸ hb⟩

/-- The operands that one of the three relations holds of. -/
inductive Related (a b : Value) : Prop where
  | numbers {m n : Number} (ha : a.coerce = number m) (hb : b.coerce = number n) (hm : m ≠ .nan)
      (hn : n ≠ .nan)
  | texts (ha : a.IsPlain) (hb : b.IsPlain)
  | nan (h : NanAndWord a b)

/-- Values with an order are both on the line of numbers or both on the line of texts. -/
theorem related_of_order? {o : Ordering} (h : a.order? b = some o) : Related a b := by
  obtain ⟨p, q, ha, hb, hpq⟩ := order?_eq_some_iff.mp h
  -- the two places are on one line, or they could not be compared
  cases p with
  | inl x =>
    obtain ⟨m, hm, hx⟩ := place?_eq_some_inl_iff.mp ha
    cases q with
    | inl y =>
      obtain ⟨n, hn, hy⟩ := place?_eq_some_inl_iff.mp hb
      exact .numbers hm hn (Number.ne_nan_of_position hx) (Number.ne_nan_of_position hy)
    | inr t => exact absurd hpq not_compares_inl_inr
  | inr s =>
    cases q with
    | inl y => exact absurd hpq not_compares_inr_inl
    | inr t => exact .texts ⟨s, place?_eq_some_inr_iff.mp ha⟩ ⟨t, place?_eq_some_inr_iff.mp hb⟩

/-- Two numbers other than `nan` are ordered, and so are two plain texts. -/
theorem Related.order? (h : Related a b) : (∃ o, a.order? b = some o) ∨ NanAndWord a b := by
  cases h with
  | numbers ha hb hm hn =>
    obtain ⟨x, hx⟩ := Number.exists_position hm
    obtain ⟨y, hy⟩ := Number.exists_position hn
    exact .inl ⟨compare x y, order?_eq_some_iff.mpr ⟨.inl x, .inl y,
      place?_eq_some_inl_iff.mpr ⟨_, ha, hx⟩, place?_eq_some_inl_iff.mpr ⟨_, hb, hy⟩,
      compares_inl_iff.mpr rfl⟩⟩
  | texts ha hb =>
    obtain ⟨s, ha⟩ := ha
    obtain ⟨t, hb⟩ := hb
    exact .inl ⟨textOrder s t, order?_eq_some_iff.mpr ⟨.inr s, .inr t,
      place?_eq_some_inr_iff.mpr ha, place?_eq_some_inr_iff.mpr hb, compares_inr_iff.mpr rfl⟩⟩
  | nan h => exact .inr h

/-- The operands that a relation can hold of are those with an order, and `nan` with its word. -/
theorem related_iff : Related a b ↔ (∃ o, a.order? b = some o) ∨ NanAndWord a b := by
  constructor
  · exact Related.order?
  · rintro (⟨o, h⟩ | h)
    · exact related_of_order? h
    · exact .nan h

/-- How many of the three relations hold of two values. -/
def relations (a b : Value) : Nat :=
  [a.isLess b, a.isEqual b, a.isGreater b].count true

/-- Exactly one of the three relations holds of values that have an order: the one that the order
is. -/
theorem relations_of_order? {o : Ordering} (h : a.order? b = some o) : relations a b = 1 := by
  -- operands with an order are not `nan` and its word, so equality goes by the order alone
  have hequal : a.isEqual b = (o == .eq) := by
    rw [Bool.eq_iff_iff, isEqual_iff_order?, h, beq_iff_eq]
    constructor
    · rintro (heq | hword)
      · exact Option.some.inj heq
      · rw [hword.order?_eq_none] at h
        cases h
    · rintro rfl
      exact .inl rfl
  rw [relations, isLess, isGreater, hequal, h]
  cases o <;> rfl

/-- Values without an order are neither less nor greater, so at most equality is left. -/
theorem relations_of_unordered (h : a.order? b = none) :
    relations a b ≤ 1 ∧ (relations a b = 1 ↔ NanAndWord a b) := by
  -- without an order, equality is left to `nan` and its word
  have hequal : a.isEqual b = true ↔ NanAndWord a b := by
    simp [isEqual_iff_order?, h]
  rw [← hequal, relations, isLess, isGreater, h]
  cases a.isEqual b
  · exact ⟨by decide, by decide⟩
  · exact ⟨by decide, by decide⟩

/-- A comparison is its converse with the operands exchanged, also by the rules of the left operand.
At most one of the three relations holds of two values, and one does exactly if both are coerced to
numbers other than `nan`, or both are plain texts, or they are `nan` and its word. -/
theorem comparisons_mirror (a b : Value) :
    (∀ op : ComparisonOperator, op.evaluate a b = op.converse.evaluate b a ∧
      op.evaluateByLeft a b = op.converse.evaluateByLeft b a) ∧
      relations a b ≤ 1 ∧ (relations a b = 1 ↔ Related a b) := by
  have hmirror : ∀ op : ComparisonOperator, op.evaluate a b = op.converse.evaluate b a :=
    fun op => congrArg Value.ofBool (op.holds_converse a b).symm
  refine ⟨fun op => ⟨hmirror op, ?_⟩, ?_⟩
  · rw [op.evaluateByLeft_eq, op.converse.evaluateByLeft_eq, hmirror]
  · -- an order settles both counts; without one, only `nan` and its word are related
    cases h : a.order? b with
    | none =>
      rw [related_iff, h]
      simpa using relations_of_unordered h
    | some o =>
      rw [relations_of_order? h, related_iff]
      exact ⟨Nat.le_refl 1, fun _ => .inl ⟨o, h⟩, fun _ => rfl⟩

/-! ## The laws of an order -/

/-- Nothing is before its own place. -/
theorem isLess_irrefl (a : Value) : a.isLess a = false := by
  rw [Bool.eq_false_iff, Ne, isLess_iff]
  rintro ⟨p, q, hp, hq, hlt⟩
  rw [hp] at hq
  exact lt_irrefl p (Option.some.inj hq ▸ hlt)

/-- The middle value has one place, so both comparisons are made on one line. -/
theorem isLess_trans (hab : a.isLess b = true) (hbc : b.isLess c = true) : a.isLess c = true := by
  obtain ⟨p, q, ha, hb, hpq⟩ := isLess_iff.mp hab
  obtain ⟨q', r, hb', hc, hqr⟩ := isLess_iff.mp hbc
  obtain rfl : q = q' := Option.some.inj (hb.symm.trans hb')
  exact isLess_iff.mpr ⟨p, r, ha, hc, hpq.trans hqr⟩

/-- Without `nan`, equal values are those that share a place. -/
theorem isEqual_iff_of_ne_nan (ha : a ≠ number .nan) (hb : b ≠ number .nan) :
    a.isEqual b = true ↔ ∃ p, a.place? = some p ∧ b.place? = some p := by
  rw [isEqual_iff_place, or_iff_left]
  rintro (⟨h, -⟩ | ⟨-, h⟩)
  · exact ha h
  · exact hb h

/-- Of all values but `nan`, arrays alone are not equal to themselves. -/
theorem isEqual_self_iff (ha : a ≠ number .nan) : a.isEqual a = true ↔ a.kind ≠ .array := by
  rw [isEqual_iff_of_ne_nan ha ha, ← exists_place_iff ha]
  exact exists_congr fun p => and_self_iff

/-- Without `nan`, equal values can stand for each other in every comparison, since these go by
places. -/
theorem place?_eq_of_isEqual (ha : a ≠ number .nan) (hb : b ≠ number .nan)
    (h : a.isEqual b = true) : a.place? = b.place? := by
  obtain ⟨p, hp, hq⟩ := (isEqual_iff_of_ne_nan ha hb).mp h
  rw [hp, hq]

/-- Without `nan`, three values that are equal in turn are all at one place. -/
theorem isEqual_trans (ha : a ≠ number .nan) (hb : b ≠ number .nan) (hc : c ≠ number .nan)
    (hab : a.isEqual b = true) (hbc : b.isEqual c = true) : a.isEqual c = true := by
  rw [isEqual_iff_of_ne_nan ha hc, place?_eq_of_isEqual ha hb hab]
  exact (isEqual_iff_of_ne_nan hb hc).mp hbc

/-- Without `nan`, the left operand of a comparison may be replaced by an equal one. -/
theorem isLess_of_isEqual_of_isLess (ha : a ≠ number .nan) (hb : b ≠ number .nan)
    (hab : a.isEqual b = true) (hbc : b.isLess c = true) : a.isLess c = true := by
  rw [isLess_iff, place?_eq_of_isEqual ha hb hab]
  exact isLess_iff.mp hbc

/-- Without `nan`, the right operand of a comparison may be replaced by an equal one. -/
theorem isLess_of_isLess_of_isEqual (hb : b ≠ number .nan) (hc : c ≠ number .nan)
    (hab : a.isLess b = true) (hbc : b.isEqual c = true) : a.isLess c = true := by
  rw [isLess_iff, ← place?_eq_of_isEqual hb hc hbc]
  exact isLess_iff.mp hab

/-- The two texts that stand for truth values are told apart by being true. -/
theorem ofBool_inj {x y : Bool} : ofBool x = ofBool y ↔ x = y := by
  constructor
  · intro h
    rw [← isTruthy_ofBool x, h, isTruthy_ofBool]
  · rintro rfl
    rfl

/-- The weak order is the strict one or equality. -/
theorem evaluate_le_eq_true_iff :
    ComparisonOperator.le.evaluate a b = .ofBool true ↔
      a.isLess b = true ∨ a.isEqual b = true := by
  rw [ComparisonOperator.evaluate, ofBool_inj, ComparisonOperator.holds, Bool.or_eq_true]

/-- The weak order is transitive: of two comparisons in turn, one strict makes the whole strict. -/
theorem evaluate_le_trans (ha : a ≠ number .nan) (hb : b ≠ number .nan) (hc : c ≠ number .nan)
    (hab : ComparisonOperator.le.evaluate a b = .ofBool true)
    (hbc : ComparisonOperator.le.evaluate b c = .ofBool true) :
    ComparisonOperator.le.evaluate a c = .ofBool true := by
  rw [evaluate_le_eq_true_iff] at hab hbc ⊢
  -- each of the two comparisons is strict or an equality
  rcases hab with hab | hab
  · rcases hbc with hbc | hbc
    · exact .inl (isLess_trans hab hbc)
    · exact .inl (isLess_of_isLess_of_isEqual hb hc hab hbc)
  · rcases hbc with hbc | hbc
    · exact .inl (isLess_of_isEqual_of_isLess ha hb hab hbc)
    · exact .inr (isEqual_trans ha hb hc hab hbc)

/-- The strict order is irreflexive and transitive over values of all kinds. Without `nan`, equality
is transitive, and reflexive except for arrays; equal values are ordered alike, and so the weak
order is transitive. -/
theorem ordering_consistent (a b c : Value) :
    a.isLess a = false ∧
      (a.isLess b = true → b.isLess c = true → a.isLess c = true) ∧
      (a ≠ number .nan → b ≠ number .nan → c ≠ number .nan →
        (a.isEqual b = true → b.isEqual c = true → a.isEqual c = true) ∧
        (a.isEqual a = true ↔ a.kind ≠ .array) ∧
        (a.isEqual b = true → b.isLess c = true → a.isLess c = true) ∧
        (a.isLess b = true → b.isEqual c = true → a.isLess c = true) ∧
        (ComparisonOperator.le.evaluate a b = .ofBool true →
          ComparisonOperator.le.evaluate b c = .ofBool true →
          ComparisonOperator.le.evaluate a c = .ofBool true)) :=
  ⟨isLess_irrefl a, isLess_trans, fun ha hb hc =>
    ⟨isEqual_trans ha hb hc, isEqual_self_iff ha, isLess_of_isEqual_of_isLess ha hb,
      isLess_of_isLess_of_isEqual hb hc, evaluate_le_trans ha hb hc⟩⟩

/-- A number and numerals, where the texts would be ordered the other way round. -/
theorem ordering_consistent_numerals :
    (number (.zero .minus)).isLess (text "5 apples") = true ∧
      (text "5 apples").isLess (text "12") = true ∧
      (text "12").isEqual (text "1.2e1 pears") = true ∧
      (number (.zero .minus)).isLess (text "12") = true ∧
      (text "5 apples").isLess (text "1.2e1 pears") = true ∧
      ComparisonOperator.le.evaluate (text "5 apples") (text "1.2e1 pears") = .ofBool true := by
  have hzero : (number (.zero .minus)).isLess (text "5 apples") = true := by decide +kernel
  have hless : (text "5 apples").isLess (text "12") = true := by decide +kernel
  have hequal : (text "12").isEqual (text "1.2e1 pears") = true := by decide +kernel
  obtain ⟨-, htrans, -⟩ :=
    ordering_consistent (number (.zero .minus)) (text "5 apples") (text "12")
  obtain ⟨-, -, h⟩ := ordering_consistent (text "5 apples") (text "12") (text "1.2e1 pears")
  obtain ⟨-, -, -, hcongr, hle⟩ := h nofun nofun nofun
  exact ⟨hzero, hless, hequal, htrans hzero hless, hcongr hless hequal,
    hle (evaluate_le_eq_true_iff.mpr (.inl hless)) (evaluate_le_eq_true_iff.mpr (.inr hequal))⟩

/-- With `nan`, equality is not transitive. -/
example : (number .nan).isEqual (text "NaN") = true ∧ (text "NaN").isEqual (number .nan) = true ∧
    (number .nan).isEqual (number .nan) = false := by
  decide

end Value

end ScriptMachine
