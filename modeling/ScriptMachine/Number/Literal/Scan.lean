import ScriptMachine.Number.Literal

/-!
# The literal at the start of a text

Each part of a literal is taken from the front of a text, as long as it can be: all digits that
stand there, the point if digits stand on either side of it, the exponent if it has a digit.

* `Literal.scan`: the literal at the start of a text, and the rest.
* `Literal.text_append_of_scan`: its text and the rest are the text that was scanned.
-/

namespace ScriptMachine

/-- The sign at the start of a text, if one is written. -/
def scanSign : List Char → Option Sign × List Char
  | '+' :: rest => (some .plus, rest)
  | '-' :: rest => (some .minus, rest)
  | cs => (none, cs)

/-- The sign and the rest are the text that was scanned. -/
theorem signText_append_scanSign (cs : List Char) :
    signText (scanSign cs).1 ++ (scanSign cs).2 = cs := by
  unfold scanSign
  split <;> rfl

/-- The mantissa at the start of a text. A point belongs to it if a digit stands next to it. -/
def Mantissa.scan (cs : List Char) : Option (Mantissa × List Char) :=
  match takeDigits cs with
  | (d :: ds, '.' :: rest) =>
    let fraction := takeDigits rest
    some (.pointed ⟨d, ds⟩ fraction.1, fraction.2)
  | (d :: ds, rest) => some (.whole ⟨d, ds⟩, rest)
  | ([], '.' :: rest) =>
    match takeDigits rest with
    | (d :: ds, rest) => some (.fractional ⟨d, ds⟩, rest)
    | ([], _) => none
  | ([], _) => none

/-- The mantissa and the rest are the text that was scanned. -/
theorem Mantissa.text_append_of_scan {cs rest : List Char} {m : Mantissa}
    (h : Mantissa.scan cs = some (m, rest)) : cs = m.text ++ rest := by
  unfold Mantissa.scan at h
  split at h
  · next d ds r hd =>
    cases h
    rw [eq_append_of_takeDigits hd, Mantissa.text, Digits.toList, List.append_assoc,
      List.cons_append, digitChars_append_takeDigits]
  · next d ds r _ hd =>
    cases h
    exact eq_append_of_takeDigits hd
  · next r hd =>
    split at h
    · next d ds r' hr =>
      cases h
      rw [eq_append_of_takeDigits hd, eq_append_of_takeDigits hr]
      rfl
    · cases h
  · cases h

/-- The exponent at the start of a text, if a digit follows its letter and sign. -/
def Exponent.scan (cs : List Char) : Option Exponent × List Char :=
  match cs with
  | [] => (none, [])
  | c :: rest =>
    if c = 'e' ∨ c = 'E' then
      match takeDigits (scanSign rest).2 with
      | (d :: ds, rest') => (some ⟨c = 'E', (scanSign rest).1, ⟨d, ds⟩⟩, rest')
      | ([], _) => (none, cs)
    else (none, cs)

/-- The exponent, if there is one, and the rest are the text that was scanned. -/
theorem Exponent.text_append_scan (cs : List Char) :
    exponentText (Exponent.scan cs).1 ++ (Exponent.scan cs).2 = cs := by
  unfold Exponent.scan
  split
  · rfl
  · next c r =>
    split
    · next hc =>
      split
      · next d ds r' hd =>
        -- which of the two letters was read is kept in the exponent
        have hmark : Exponent.mark ⟨c = 'E', (scanSign r).1, ⟨d, ds⟩⟩ = c := by
          rcases hc with rfl | rfl <;> rfl
        show (_ :: (_ ++ digitChars (d :: ds))) ++ r' = c :: r
        rw [hmark, List.cons_append, List.append_assoc, ← eq_append_of_takeDigits hd,
          signText_append_scanSign]
      · rfl
    · rfl

/-- The text after a word that it starts with. -/
def dropWord? : List Char → List Char → Option (List Char)
  | [], cs => some cs
  | _ :: _, [] => none
  | w :: word, c :: cs => if w = c then dropWord? word cs else none

/-- The word is dropped exactly from the texts that start with it. -/
theorem dropWord?_eq_some_iff {word cs rest : List Char} :
    dropWord? word cs = some rest ↔ cs = word ++ rest := by
  induction word generalizing cs with
  | nil => simp [dropWord?]
  | cons w word ih =>
    cases cs with
    | nil => simp [dropWord?]
    | cons c cs =>
      by_cases hw : w = c
      · simp [dropWord?, hw, ih]
      · simp [dropWord?, hw, Ne.symm hw]

/-- What follows the sign, at the start of a text. -/
def Unsigned.scan (cs : List Char) : Option (Unsigned × List Char) :=
  match dropWord? infinityWord cs with
  | some rest => some (.infinity, rest)
  | none =>
    match Mantissa.scan cs with
    | none => none
    | some (m, rest) =>
      let exponent := Exponent.scan rest
      some (.decimal m exponent.1, exponent.2)

/-- What was found behind the sign and the rest are the text that was scanned. -/
theorem Unsigned.text_append_of_scan {cs rest : List Char} {u : Unsigned}
    (h : Unsigned.scan cs = some (u, rest)) : cs = u.text ++ rest := by
  unfold Unsigned.scan at h
  split at h
  · next r hw =>
    cases h
    exact dropWord?_eq_some_iff.1 hw
  · split at h
    · cases h
    · next m r hm =>
      cases h
      rw [Unsigned.text, List.append_assoc, Exponent.text_append_scan]
      exact Mantissa.text_append_of_scan hm

/-- The literal at the start of a text, and the rest of the text. -/
def Literal.scan (cs : List Char) : Option (Literal × List Char) :=
  match Unsigned.scan (scanSign cs).2 with
  | none => none
  | some (body, rest) => some (⟨(scanSign cs).1, body⟩, rest)

/-- The literal and the rest are the text that was scanned: a scan neither skips nor changes a
character. -/
theorem Literal.text_append_of_scan {cs rest : List Char} {l : Literal}
    (h : Literal.scan cs = some (l, rest)) : cs = l.text ++ rest := by
  unfold Literal.scan at h
  split at h
  · cases h
  · next body r hb =>
    cases h
    rw [Literal.text, List.append_assoc, ← Unsigned.text_append_of_scan hb,
      signText_append_scanSign]

end ScriptMachine
