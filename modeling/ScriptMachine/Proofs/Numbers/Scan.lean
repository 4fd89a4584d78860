import ScriptMachine.Number.Text

/-!
# A literal is scanned back

The text of a literal, with any text behind it that does not go on with the number, is scanned as
that literal, and what is behind is left.

* `EndsMantissa`, `EndsNumber`: a text that does not go on with what is in front of it.
* `Mantissa.scan_whole`, `Literal.scan_decimal` and the others: what each scan finds, by what is
  there.
* `scan_text_append`, for a mantissa, an exponent and a literal: each part is scanned back.
* `Number.leading?_of_literal`: the number at the start of a text that starts with a literal.
-/

namespace ScriptMachine

/-- A text that does not go on with the digits of a mantissa in front of it. -/
def EndsMantissa (cs : List Char) : Prop :=
  ∀ c ∈ cs.head?, c.isDigit = false ∧ c ≠ '.'

/-- A text that does not go on with the number in front of it: no digit, point or mark of an
exponent at its start. -/
def EndsNumber (cs : List Char) : Prop :=
  ∀ c ∈ cs.head?, c.isDigit = false ∧ c ≠ '.' ∧ c ≠ 'e' ∧ c ≠ 'E'

/-- What ends a number ends its mantissa; only the mark of an exponent makes the difference. -/
theorem EndsNumber.endsMantissa {cs : List Char} (h : EndsNumber cs) : EndsMantissa cs :=
  fun c hc => ⟨(h c hc).1, (h c hc).2.1⟩

/-! ## Digits -/

/-- The character of a digit is none that is not a digit. -/
theorem Digit.char_ne (d : Digit) {c : Char} (h : c.isDigit = false) : d.char ≠ c := by
  have hd : ∀ d : Digit, d.char.isDigit = true := by decide
  rintro rfl
  rw [hd d] at h
  cases h

/-- The digits of a mantissa stop at what ends it. -/
theorem EndsMantissa.noDigitAhead {cs : List Char} (h : EndsMantissa cs) : NoDigitAhead cs := by
  rintro c r rfl
  cases hd : Digit.ofChar? c with
  | none => rfl
  | some d => exact absurd (Digit.eq_char_of_ofChar? hd).symm (d.char_ne (h c rfl).1)

/-- The digits of a number are taken back, at least one of them. -/
theorem takeDigits_toList_append {rest : List Char} (h : NoDigitAhead rest) (ds : Digits) :
    takeDigits (digitChars ds.toList ++ rest) = (ds.head :: ds.tail, rest) :=
  takeDigits_append h ds.toList

/-- A point ends a sequence of digits. -/
theorem noDigitAhead_point (cs : List Char) : NoDigitAhead ('.' :: cs) := by
  rintro c r h
  cases h
  rfl

/-! ## The ways of a scan -/

section Scan

variable {cs r r' : List Char} {d : Digit} {ds : List Digit}

/-- Digits and a point: the mantissa goes on with all digits behind the point, maybe none. -/
theorem Mantissa.scan_pointed (h : takeDigits cs = (d :: ds, '.' :: r)) :
    Mantissa.scan cs = some (.pointed ⟨d, ds⟩ (takeDigits r).1, (takeDigits r).2) := by
  simp only [scan, h]

/-- Digits without a point behind them are the whole mantissa. -/
theorem Mantissa.scan_whole (h : takeDigits cs = (d :: ds, r)) (hr : r.head? ≠ some '.') :
    Mantissa.scan cs = some (.whole ⟨d, ds⟩, r) := by
  rw [scan, h]
  cases r with
  | nil => rfl
  | cons c r =>
    have hc : c ≠ '.' := fun hc => hr (hc ▸ rfl)
    simp [hc]

/-- A point without digits in front needs one behind it. -/
theorem Mantissa.scan_fractional (h : takeDigits cs = ([], '.' :: r))
    (hr : takeDigits r = (d :: ds, r')) : Mantissa.scan cs = some (.fractional ⟨d, ds⟩, r') := by
  simp only [scan, h, hr]

/-- A point without any digit next to it is no mantissa. -/
theorem Mantissa.scan_point (h : takeDigits cs = ([], '.' :: r)) (hr : takeDigits r = ([], r')) :
    Mantissa.scan cs = none := by
  simp only [scan, h, hr]

/-- Without a digit or a point there is no mantissa. -/
theorem Mantissa.scan_nothing (h : takeDigits cs = ([], r)) (hr : r.head? ≠ some '.') :
    Mantissa.scan cs = none := by
  rw [scan, h]
  cases r with
  | nil => rfl
  | cons c r =>
    have hc : c ≠ '.' := fun hc => hr (hc ▸ rfl)
    simp [hc]

/-- The mark, maybe a sign, and a digit: the exponent is scanned up to the end of its digits. -/
theorem Exponent.scan_of_mark {c : Char} (hc : c = 'e' ∨ c = 'E')
    (h : takeDigits (scanSign r).2 = (d :: ds, r')) : (Exponent.scan (c :: r)).2 = r' := by
  simp only [scan, hc, if_true, h]

/-- A mark without a digit is left where it is, and so is a sign behind it. -/
theorem Exponent.scan_of_no_digit {c : Char} (h : takeDigits (scanSign r).2 = ([], r')) :
    Exponent.scan (c :: r) = (none, c :: r) := by
  simp only [scan, h, ite_self]

/-- Without the mark nothing is scanned. -/
theorem Exponent.scan_of_no_mark (h : ¬ (cs.head? = some 'e' ∨ cs.head? = some 'E')) :
    Exponent.scan cs = (none, cs) := by
  cases cs with
  | nil => rfl
  | cons c r =>
    simp only [List.head?_cons, Option.some.injEq] at h
    simp only [scan, h, if_false]

/-- Behind the sign the word is tried first. -/
theorem Literal.scan_infinity {rest : List Char}
    (h : dropWord? infinityWord (scanSign cs).2 = some rest) :
    Literal.scan cs = some (⟨(scanSign cs).1, .infinity⟩, rest) := by
  simp only [scan, Unsigned.scan, h]

/-- Where the word is not, a mantissa makes a literal, with or without an exponent. -/
theorem Literal.scan_decimal (h : dropWord? infinityWord (scanSign cs).2 = none) {m : Mantissa}
    {rest : List Char} (hm : Mantissa.scan (scanSign cs).2 = some (m, rest)) :
    Literal.scan cs =
      some (⟨(scanSign cs).1, .decimal m (Exponent.scan rest).1⟩, (Exponent.scan rest).2) := by
  simp only [scan, Unsigned.scan, h, hm]

/-- Neither the word nor a mantissa: there is no literal, whatever the sign. -/
theorem Literal.scan_nothing (h : dropWord? infinityWord (scanSign cs).2 = none)
    (hm : Mantissa.scan (scanSign cs).2 = none) : Literal.scan cs = none := by
  simp only [scan, Unsigned.scan, h, hm]

end Scan

/-! ## Mantissas -/

/-- A mantissa is scanned back. Each of its shapes takes its own way through the scan, and what
follows stops the last of its digits. -/
theorem Mantissa.scan_text_append (m : Mantissa) {rest : List Char} (h : EndsMantissa rest) :
    Mantissa.scan (m.text ++ rest) = some (m, rest) := by
  cases m with
  | whole ds =>
    exact scan_whole (takeDigits_toList_append h.noDigitAhead ds) fun hr => (h '.' hr).2 rfl
  | pointed ds fraction =>
    -- here the first digits stop at the point, and only the second ones at what follows
    have hdigits := takeDigits_toList_append (noDigitAhead_point (digitChars fraction ++ rest)) ds
    rw [text, List.append_assoc, List.cons_append, scan_pointed hdigits,
      takeDigits_append h.noDigitAhead]
  | fractional fraction =>
    exact scan_fractional (takeDigits_of_noDigitAhead (noDigitAhead_point _))
      (takeDigits_toList_append h.noDigitAhead fraction)

/-! ## Signs and exponents -/

/-- A sign is scanned back, if no other sign follows where none is written. -/
theorem scanSign_signText_append (s : Option Sign) {cs : List Char}
    (h : ∀ c ∈ cs.head?, c ≠ '+' ∧ c ≠ '-') : scanSign (signText s ++ cs) = (s, cs) := by
  cases s with
  | some s => cases s <;> rfl
  | none =>
    show scanSign cs = (none, cs)
    unfold scanSign
    split
    · exact absurd rfl (h _ rfl).1
    · exact absurd rfl (h _ rfl).2
    · rfl

/-- A sign in front of digits is scanned back, since no digit is a sign. -/
theorem scanSign_digits (s : Option Sign) (ds : Digits) (rest : List Char) :
    scanSign (signText s ++ (digitChars ds.toList ++ rest)) =
      (s, digitChars ds.toList ++ rest) := by
  refine scanSign_signText_append s fun c hc => ?_
  cases hc
  exact ⟨ds.head.char_ne rfl, ds.head.char_ne rfl⟩

/-- An exponent is marked by one of two letters. -/
theorem Exponent.mark_eq (e : Exponent) : e.mark = 'e' ∨ e.mark = 'E' := by
  unfold mark
  split
  · exact .inr rfl
  · exact .inl rfl

/-- An exponent is scanned back, and where none is written none is found. -/
theorem Exponent.scan_text_append (e : Option Exponent) {rest : List Char} (h : EndsNumber rest) :
    Exponent.scan (exponentText e ++ rest) = (e, rest) := by
  cases e with
  | none =>
    -- what follows must not start with a mark of its own
    refine scan_of_no_mark fun hmark => ?_
    rcases hmark with hmark | hmark
    · exact (h 'e' hmark).2.2.1 rfl
    · exact (h 'E' hmark).2.2.2 rfl
  | some e =>
    obtain ⟨capital, s, ds⟩ := e
    rw [exponentText, text, List.cons_append, List.append_assoc, scan]
    simp only [scanSign_digits, takeDigits_toList_append h.endsMantissa.noDigitAhead]
    cases capital <;> rfl

/-- The mark of an exponent ends the mantissa in front of it. -/
theorem Exponent.endsMantissa_text_append (e : Exponent) (rest : List Char) :
    EndsMantissa (e.text ++ rest) := by
  rintro c hc
  cases hc
  rcases e.mark_eq with hmark | hmark
  · rw [hmark]
    decide
  · rw [hmark]
    decide

/-- With an exponent or without one, what stands behind a mantissa ends it. -/
theorem endsMantissa_exponentText_append (e : Option Exponent) {rest : List Char}
    (h : EndsNumber rest) : EndsMantissa (exponentText e ++ rest) := by
  cases e with
  | none => exact h.endsMantissa
  | some e => exact e.endsMantissa_text_append rest

/-! ## Literals -/

/-- What follows the sign of a literal is there, and starts with no sign of its own and no blank. -/
theorem Unsigned.head_text (u : Unsigned) :
    ∃ c r, u.text = c :: r ∧ (c ≠ '+' ∧ c ≠ '-') ∧ isBlank c = false := by
  have hdigit : ∀ d : Digit, (d.char ≠ '+' ∧ d.char ≠ '-') ∧ isBlank d.char = false := by decide
  cases u with
  | infinity => exact ⟨'I', "nfinity".toList, rfl, by decide⟩
  | decimal m e =>
    cases m with
    | whole ds | pointed ds => exact ⟨_, _, rfl, hdigit ds.head⟩
    | fractional => exact ⟨'.', _, rfl, by decide⟩

/-- A mantissa starts with a digit or a point, so the scan does not take it for the word. -/
theorem Unsigned.dropWord?_decimal (m : Mantissa) (cs : List Char) :
    dropWord? infinityWord (m.text ++ cs) = none := by
  cases m with
  | whole ds | pointed ds =>
    have hne : 'I' ≠ ds.head.char := (ds.head.char_ne rfl).symm
    exact if_neg hne
  | fractional => rfl

/-- What follows the sign of a literal is scanned back. -/
theorem Unsigned.scan_text_append (u : Unsigned) {rest : List Char} (h : EndsNumber rest) :
    Unsigned.scan (u.text ++ rest) = some (u, rest) := by
  cases u with
  | infinity => rfl
  | decimal m e =>
    -- the exponent ends the mantissa, and the rest ends the exponent
    have hmantissa := m.scan_text_append (endsMantissa_exponentText_append e h)
    rw [scan, text, List.append_assoc, dropWord?_decimal]
    simp only [hmantissa, Exponent.scan_text_append e h]

/-- The sign of a literal is scanned back, since the rest of it starts with no sign. -/
theorem Unsigned.scanSign_text_append (s : Option Sign) (u : Unsigned) (rest : List Char) :
    scanSign (signText s ++ (u.text ++ rest)) = (s, u.text ++ rest) := by
  obtain ⟨c, r, hu, hc, -⟩ := u.head_text
  refine scanSign_signText_append s ?_
  rw [hu]
  rintro c' hc'
  cases hc'
  exact hc

/-- A literal is scanned back whole, and nothing of what follows is taken. -/
theorem Literal.scan_text_append (l : Literal) {rest : List Char} (h : EndsNumber rest) :
    Literal.scan (l.text ++ rest) = some (l, rest) := by
  obtain ⟨s, u⟩ := l
  rw [scan, text, List.append_assoc, u.scanSign_text_append]
  simp only [u.scan_text_append h]

/-- A literal does not start with a blank. -/
theorem Literal.dropBlanks_text_append (l : Literal) (rest : List Char) :
    dropBlanks (l.text ++ rest) = l.text ++ rest := by
  obtain ⟨s, u⟩ := l
  obtain ⟨c, r, hu, -, hblank⟩ := u.head_text
  rw [text, hu]
  cases s with
  | none => exact dropBlanks_of_not_isBlank hblank
  | some s =>
    cases s with
    | plus => exact dropBlanks_of_not_isBlank (by decide)
    | minus => exact dropBlanks_of_not_isBlank (by decide)

/-- A text that starts with a literal, and does not go on with the number, starts with that
literal's value. -/
theorem Number.leading?_of_literal (l : Literal) {text : String} {rest : List Char}
    (ht : text.toList = l.text ++ rest) (h : EndsNumber rest) :
    Number.leading? text = some l.value := by
  rw [leading?, ht, l.dropBlanks_text_append, l.scan_text_append h, Option.map_some]

end ScriptMachine
