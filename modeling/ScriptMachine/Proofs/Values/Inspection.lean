import ScriptMachine.Proofs.Numbers.Order
import ScriptMachine.Proofs.Numbers.RoundTrip
import ScriptMachine.Proofs.Texts.Quoted

/-!
# The developer's text of a value

A developer sees values by their texts alone. Two values have the same text just if they are alike:
of the same shape, with the same texts, and with the same numbers but for the signs of zeros. No
text inside a value can pass for a part of it, whatever it consists of.

* `Number.Alike`, `Number.literal?_eq_iff`: numbers that are rendered as one literal.
* `Value.Alike`: values that differ in signs of zeros only.
* `Value.delimited_inspect`: the text of a value ends where it can be told.
* `Value.inspect_eq_iff`: the same text, alike values.
-/

namespace ScriptMachine

/-! ## Numbers -/

namespace Number

/-- The same number, `nan` included, or two zeros. -/
inductive Alike : Number → Number → Prop where
  | same (n : Number) : Alike n n
  | zeros (s t : Sign) : Alike (zero s) (zero t)

variable {m n : Number}

/-- Numbers that are alike are rendered as the same literal, since the sign of a zero is not. -/
theorem Alike.literal?_eq (h : m.Alike n) : m.literal? = n.literal? := by
  cases h with
  | same => rfl
  | zeros => rfl

/-- Numbers that become the same when zeros lose their sign are alike. -/
theorem alike_of_withPlusZero (h : m.withPlusZero = n.withPlusZero) : m.Alike n := by
  unfold withPlusZero at h
  -- whether either of them is a zero, and so may have lost a sign
  by_cases hm : m.isZero = true
  · obtain ⟨s, hs⟩ := isZero_iff.mp hm
    by_cases hn : n.isZero = true
    · obtain ⟨t, ht⟩ := isZero_iff.mp hn
      rw [hs, ht]
      exact .zeros s t
    · rw [if_pos hm, if_neg hn] at h
      rw [hs, ← h]
      exact .zeros s .plus
  · by_cases hn : n.isZero = true
    · obtain ⟨t, ht⟩ := isZero_iff.mp hn
      rw [if_neg hm, if_pos hn] at h
      rw [h, ht]
      exact .zeros .plus t
    · rw [if_neg hm, if_neg hn] at h
      rw [h]
      exact .same n

/-- Numbers are rendered as the same literal, or both as none, just if they are alike. -/
theorem literal?_eq_iff : m.literal? = n.literal? ↔ m.Alike n := by
  refine ⟨fun h => ?_, Alike.literal?_eq⟩
  cases hl : m.literal? with
  | none =>
    obtain rfl := literal?_eq_none_iff.mp hl
    obtain rfl := literal?_eq_none_iff.mp (h ▸ hl)
    exact .same nan
  | some l =>
    refine alike_of_withPlusZero ?_
    rw [← value_of_literal? hl, ← value_of_literal? (h ▸ hl)]

/-- Numbers that are alike have the same text. -/
theorem Alike.text_eq (h : m.Alike n) : m.text = n.text := by
  rw [text, text, h.literal?_eq]

/-- Only `nan` has no literal, and it has a word instead. -/
theorem toList_text_of_none (h : n.literal? = none) : n.text.toList = "NaN".toList := by
  rw [text, h]

/-- What is not a number is written as no literal, whatever stands behind it. -/
theorem scan_nan_append (t : List Char) : Literal.scan ("NaN".toList ++ t) = none := rfl

/-- A closing parenthesis does not go on with a number. -/
theorem endsNumber_paren (t : List Char) : EndsNumber (')' :: t) := by
  intro c hc
  cases hc
  decide

/-- The text of a number in front of a closing parenthesis: the literal is scanned back. -/
theorem delimited_text (n : Number) : Delimited (fun n => n.text.toList ++ [')']) Alike n := by
  intro m t u h
  simp only [List.append_assoc, List.singleton_append] at h
  -- scanning both sides gives the same literal, and then what follows must be the same
  suffices hl : n.literal? = m.literal? by
    have hsame := literal?_eq_iff.mp hl
    rw [hsame.text_eq] at h
    exact ⟨hsame, (List.cons.inj (List.append_cancel_left h)).2⟩
  have hscan := congrArg Literal.scan h
  -- a literal is scanned back, and the word of `nan` is not scanned as any
  cases hn : n.literal? with
  | none =>
    cases hm : m.literal? with
    | none => rfl
    | some l =>
      rw [toList_text_of_none hn, toList_text_of_some hm, scan_nan_append,
        l.scan_text_append (endsNumber_paren u)] at hscan
      cases hscan
  | some k =>
    cases hm : m.literal? with
    | none =>
      rw [toList_text_of_some hn, toList_text_of_none hm, scan_nan_append,
        k.scan_text_append (endsNumber_paren t)] at hscan
      cases hscan
    | some l =>
      rw [toList_text_of_some hn, toList_text_of_some hm, k.scan_text_append (endsNumber_paren t),
        l.scan_text_append (endsNumber_paren u)] at hscan
      exact congrArg some (Prod.mk.inj (Option.some.inj hscan)).1

end Number

/-! ## Values -/

namespace Value

/-- What holds of a value if it holds of its items holds of every value. -/
@[elab_as_elim]
theorem induction {P : Value → Prop} (number : ∀ n, P (.number n)) (text : ∀ s, P (.text s))
    (array : ∀ items, (∀ v ∈ items, P v) → P (.array items)) : ∀ v, P v
  | .number n => number n
  | .text s => text s
  | .array items => array items fun v _ => induction number text array v

/-- Values of the same shape, with the same texts and with numbers that are alike, place by place.
-/
inductive Alike : Value → Value → Prop where
  | number {m n : Number} (h : m.Alike n) : Alike (.number m) (.number n)
  | text (s : String) : Alike (.text s) (.text s)
  | array {vs ws : List Value} (h : List.Forall₂ Alike vs ws) : Alike (.array vs) (.array ws)

/-! ## The texts of values -/

/-- The text of a number is its literal or its word, between parentheses. -/
theorem toList_inspect_number (n : Number) :
    (number n).inspect.toList = "Number(".toList ++ (n.text.toList ++ [')']) := by
  simp [inspect]

/-- The text of a text is quoted, between parentheses. -/
theorem toList_inspect_text (s : String) :
    (text s).inspect.toList = "Str(".toList ++ ((quoted s).toList ++ [')']) := by
  simp [inspect]

/-- The texts of the items of an array that come after the first one. -/
def inspectRest (vs : List Value) : List Char :=
  vs.flatMap (fun v => ',' :: ' ' :: v.inspect.toList) ++ [']']

/-- The texts of all items of an array, and the bracket behind them. -/
def inspectItems : List Value → List Char
  | [] => [']']
  | v :: vs => v.inspect.toList ++ inspectRest vs

/-- Every item but the first has a comma and a blank in front. -/
theorem intercalate_append_eq (v : Value) (vs : List Value) :
    [',', ' '].intercalate (v.inspect.toList :: vs.map (·.inspect.toList)) ++ [']'] =
      v.inspect.toList ++ inspectRest vs := by
  induction vs generalizing v with
  | nil => simp [inspectRest]
  | cons w vs ih =>
    rw [List.map_cons, List.intercalate_cons_cons, List.append_assoc, ih]
    simp [inspectRest]

/-- The text of an array is those of its items, between brackets. -/
theorem toList_inspect_array (vs : List Value) :
    (array vs).inspect.toList = "Array([".toList ++ (inspectItems vs ++ [')']) := by
  have hbracketed : (bracketed (inspectAll vs)).toList = '[' :: inspectItems vs := by
    rw [bracketed, inspectAll_eq_map]
    cases vs with
    | nil => rfl
    | cons v vs =>
      have hitems := intercalate_append_eq v vs
      simp [String.toList_intercalate, inspectItems, ← hitems, Function.comp_def]
  simp [inspect, hbracketed]

/-- The text of a value starts with a capital letter. -/
theorem inspect_starts (v : Value) : ∃ c r, v.inspect.toList = c :: r ∧ c ≠ ']' := by
  cases v with
  | number n => exact ⟨'N', _, toList_inspect_number n, by decide⟩
  | text s => exact ⟨'S', _, toList_inspect_text s, by decide⟩
  | array vs => exact ⟨'A', _, toList_inspect_array vs, by decide⟩

/-! ## Texts whose end is seen -/

/-- If the text of each item ends where it can be told, so do those of all items. -/
theorem delimited_inspectItems {vs : List Value}
    (hvs : ∀ v ∈ vs, Delimited (·.inspect.toList) Alike v) :
    Delimited inspectItems (List.Forall₂ Alike) vs := by
  intro ws t u h
  -- an item does not start with the bracket behind the last one, so both lists end together
  cases vs with
  | nil =>
    cases ws with
    | nil => exact ⟨.nil, (List.cons.inj h).2⟩
    | cons w ws =>
      obtain ⟨c, r, hw, hc⟩ := w.inspect_starts
      simp only [inspectItems, hw, List.cons_append] at h
      exact absurd (List.cons.inj h).1.symm hc
  | cons v vs =>
    cases ws with
    | nil =>
      obtain ⟨c, r, hv, hc⟩ := v.inspect_starts
      simp only [inspectItems, hv, List.cons_append] at h
      exact absurd (List.cons.inj h).1 hc
    | cons w ws =>
      simp only [inspectItems, List.append_assoc] at h
      obtain ⟨hvw, hrest⟩ := hvs v List.mem_cons_self w _ _ h
      -- each further item has a comma and a blank in front
      have hcode : Delimited inspectRest (List.Forall₂ Alike) vs := by
        refine Delimited.flatMap (fun v => ⟨',', _, rfl, by decide⟩) fun v' hv' w' t' u' h' => ?_
        exact hvs v' (List.mem_cons_of_mem v hv') w' t' u'
          (List.cons.inj (List.cons.inj h').2).2
      obtain ⟨hall, htu⟩ := hcode ws t u hrest
      exact ⟨.cons hvw hall, htu⟩

/-- Where the text of a value stands at the start of a longer one, no other value has a text that
stands there, unless the values are alike. -/
theorem delimited_inspect (v : Value) : Delimited (·.inspect.toList) Alike v := by
  -- by induction on the value; the first letters tell the kinds apart
  induction v using induction with
  | number n =>
    intro w t u h
    cases w with
    | number m =>
      simp only [toList_inspect_number, List.append_assoc] at h
      obtain ⟨hsame, htu⟩ := n.delimited_text m t u (by simpa using h)
      exact ⟨.number hsame, htu⟩
    | text => simp [toList_inspect_number, toList_inspect_text] at h
    | array => simp [toList_inspect_number, toList_inspect_array] at h
  | text s =>
    intro w t u h
    cases w with
    | number => simp [toList_inspect_number, toList_inspect_text] at h
    | text s' =>
      simp only [toList_inspect_text, List.append_assoc] at h
      obtain ⟨rfl, htu⟩ := delimited_quoted s s' _ _ (List.append_cancel_left h)
      exact ⟨.text s, (List.cons.inj htu).2⟩
    | array => simp [toList_inspect_text, toList_inspect_array] at h
  | array vs ih =>
    intro w t u h
    cases w with
    | number => simp [toList_inspect_number, toList_inspect_array] at h
    | text => simp [toList_inspect_text, toList_inspect_array] at h
    | array ws =>
      simp only [toList_inspect_array, List.append_assoc] at h
      obtain ⟨hall, htu⟩ := delimited_inspectItems ih ws _ _ (List.append_cancel_left h)
      exact ⟨.array hall, (List.cons.inj htu).2⟩

/-! ## The same text -/

/-- Arrays whose items are alike have items with the same texts. -/
theorem inspectAll_eq_of_alike {vs ws : List Value} (h : List.Forall₂ Alike vs ws)
    (hvs : ∀ v ∈ vs, ∀ w, v.Alike w → v.inspect = w.inspect) : inspectAll vs = inspectAll ws := by
  induction h with
  | nil => rfl
  | @cons v w vs ws hvw _ ih =>
    rw [inspectAll, inspectAll, hvs v List.mem_cons_self w hvw,
      ih fun v' hv' => hvs v' (List.mem_cons_of_mem v hv')]

/-- Values that are alike have the same text, to any depth. -/
theorem Alike.inspect_eq {v w : Value} (h : v.Alike w) : v.inspect = w.inspect := by
  induction v using induction generalizing w with
  | number m =>
    cases h with
    | number h => rw [inspect, inspect, h.text_eq]
  | text s =>
    cases h with
    | text => rfl
  | array vs ih =>
    cases h with
    | array h => rw [inspect, inspect, inspectAll_eq_of_alike h ih]

/-- A developer's text tells what the value is: two values have the same text just if they are of
the same shape, with the same texts and with the same numbers place by place, where either zero may
stand for the other. -/
theorem inspect_eq_iff (v w : Value) : v.inspect = w.inspect ↔ v.Alike w := by
  refine ⟨fun h => ?_, Alike.inspect_eq⟩
  -- the text ends where it can be told, also where nothing follows
  have htext : v.inspect.toList ++ [] = w.inspect.toList ++ [] := by rw [h]
  exact (v.delimited_inspect w [] [] htext).1

end Value

end ScriptMachine
