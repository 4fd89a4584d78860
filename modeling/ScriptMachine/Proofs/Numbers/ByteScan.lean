import ScriptMachine.Number.Literal.Bytes
import ScriptMachine.Proofs.Numbers.Scan

/-!
# Scanning bytes is scanning characters

All characters that a literal is made of are single bytes, and no byte of another character is one
of these. So a scan by places in the bytes stops where the scan of the characters stops, always
between two characters.

* `Before cs i rest`: the place `i` in the bytes of `cs` is the one in front of `rest`.
* `Before.afterSign`, `Before.afterMantissa`, `Before.afterExponent`: each part of a literal ends at
  the same place for both.
* `leadingByBytes_eq`: nothing goes wrong, and the number is the one of `Literal.scan`.
-/

namespace ScriptMachine

/-! ## Bytes of a character -/

/-- A character is one byte, or the first of its bytes is none of a character that is one. -/
theorem utf8EncodeChar_cases (c : Char) :
    c.toNat < 128 ∧ String.utf8EncodeChar c = [c.toUInt8] ∨
      128 ≤ c.toNat ∧ ∃ b bs, String.utf8EncodeChar c = b :: bs ∧ 128 ≤ b.toNat := by
  by_cases hc : c.toNat < 128
  · refine .inl ⟨hc, String.utf8EncodeChar_eq_singleton ?_⟩
    rw [Char.utf8Size_eq_one_iff, UInt32.le_iff_toNat_le]
    exact Nat.le_of_lt_succ hc
  · refine .inr ⟨Nat.le_of_not_lt hc, ?_⟩
    have hv : ¬ c.val.toNat ≤ 127 := fun h => hc (Nat.lt_succ_of_le h)
    unfold String.utf8EncodeChar
    simp only [hv, if_false]
    -- the first byte says how many there are, by its highest bits
    split
    · exact ⟨_, _, rfl, by rw [UInt8.toNat_ofNat']; omega⟩
    · split
      · exact ⟨_, _, rfl, by rw [UInt8.toNat_ofNat']; omega⟩
      · exact ⟨_, _, rfl, by rw [UInt8.toNat_ofNat']; omega⟩

/-- A character of a single byte is that byte. -/
theorem toNat_toUInt8 {c : Char} (hc : c.toNat < 128) : c.toUInt8.toNat = c.toNat := by
  show c.toNat % 256 = c.toNat
  omega

/-- Characters of a single byte are told apart by it. -/
theorem toUInt8_inj {a c : Char} (ha : a.toNat < 128) (hc : c.toNat < 128) :
    a.toUInt8 = c.toUInt8 ↔ a = c := by
  constructor
  · intro h
    have hnat := congrArg UInt8.toNat h
    rw [toNat_toUInt8 ha, toNat_toUInt8 hc] at hnat
    exact Char.toNat_inj.mp hnat
  · rintro rfl
    rfl

/-- The first byte of a text tells whether its first character is a given one of a single byte. -/
theorem head?_utf8 {a : Char} (ha : a.toNat < 128) (cs : List Char) :
    (utf8 cs).head? = some a.toUInt8 ↔ cs.head? = some a := by
  cases cs with
  | nil => simp [utf8]
  | cons c cs =>
    -- a longer character starts with a byte that is too large to be `a`
    rcases utf8EncodeChar_cases c with ⟨hc, hbytes⟩ | ⟨hc, b, bs, hbytes, hb⟩
    · simp only [utf8, List.flatMap_cons, hbytes, List.singleton_append, List.head?_cons,
        Option.some.injEq]
      exact toUInt8_inj hc ha
    · simp only [utf8, List.flatMap_cons, hbytes, List.cons_append, List.head?_cons,
        Option.some.injEq]
      constructor
      · rintro rfl
        rw [toNat_toUInt8 ha] at hb
        omega
      · rintro rfl
        omega

/-- The bytes of digits are a range, as the digits are. -/
theorem isDigitByte_iff {b : UInt8} : isDigitByte b = true ↔ 48 ≤ b.toNat ∧ b.toNat ≤ 57 := by
  rw [isDigitByte, Bool.and_eq_true, decide_eq_true_eq, decide_eq_true_eq, UInt8.le_iff_toNat_le,
    UInt8.le_iff_toNat_le]
  rfl

/-- The byte of a digit is in that range. -/
theorem isDigitByte_char : ∀ d : Digit, isDigitByte d.char.toUInt8 = true := by decide

/-- A digit is a character of a single byte. -/
theorem Digit.toNat_char_lt (d : Digit) : d.char.toNat < 128 := by
  rw [d.toNat_char]
  omega

/-- A character of a single byte makes one byte in front of the others. -/
theorem utf8_cons_of_lt {c : Char} (hc : c.toNat < 128) (cs : List Char) :
    utf8 (c :: cs) = c.toUInt8 :: utf8 cs := by
  rcases utf8EncodeChar_cases c with ⟨-, hbytes⟩ | ⟨hc', -⟩
  · rw [utf8, List.flatMap_cons, hbytes]
    rfl
  · omega

/-- A text without a digit at its start has no byte of a digit there either. -/
theorem isDigitByte_head_utf8 {cs : List Char} (h : NoDigitAhead cs) :
    ∀ b ∈ (utf8 cs).head?, isDigitByte b = false := by
  intro b hb
  cases cs with
  | nil => cases hb
  | cons c cs =>
    refine Bool.eq_false_iff.mpr fun hdigit => ?_
    rw [isDigitByte_iff] at hdigit
    -- a single byte of a digit would be a digit; a longer character starts above all digits
    rcases utf8EncodeChar_cases c with ⟨hc, hbytes⟩ | ⟨hc, b', bs, hbytes, hb'⟩
    · rw [utf8, List.flatMap_cons, hbytes] at hb
      cases hb
      rw [toNat_toUInt8 hc] at hdigit
      have hrange : '0' ≤ c ∧ c ≤ '9' := hdigit
      have hnone := h c cs rfl
      rw [Digit.ofChar?, dif_pos hrange] at hnone
      cases hnone
    · rw [utf8, List.flatMap_cons, hbytes] at hb
      cases hb
      omega

/-- Nothing is taken from a list whose first element does not belong. -/
theorem takeWhile_of_head? {α : Type} {p : α → Bool} {as : List α}
    (h : ∀ a ∈ as.head?, p a = false) : as.takeWhile p = [] := by
  cases as with
  | nil => rfl
  | cons a as => simp [h a rfl]

/-- There are as many bytes of digits at the start of a text as there are digits. -/
theorem length_takeWhile_utf8 (cs : List Char) :
    ((utf8 cs).takeWhile isDigitByte).length = (takeDigits cs).1.length := by
  conv => lhs; rw [← digitChars_append_takeDigits cs]
  have hrest := isDigitByte_head_utf8 (noDigitAhead_takeDigits cs)
  -- the text is its digits and a rest without one at its start; by induction on the digits
  induction (takeDigits cs).1 with
  | nil => exact congrArg List.length (takeWhile_of_head? hrest)
  | cons d ds ih =>
    show ((utf8 (d.char :: (digitChars ds ++ _))).takeWhile isDigitByte).length = _
    rw [utf8_cons_of_lt d.toNat_char_lt, List.takeWhile_cons, if_pos (isDigitByte_char d)]
    exact congrArg Nat.succ ih

/-! ## Places -/

/-- The place `i` in the bytes of `cs` is between two of its characters, and `rest` follows. -/
def Before (cs : List Char) (i : Nat) (rest : List Char) : Prop :=
  ∃ front, cs = front ++ rest ∧ i = (utf8 front).length

variable {cs rest : List Char} {i : Nat}

/-- The place in front of all bytes is in front of the whole text. -/
theorem Before.start (cs : List Char) : Before cs 0 cs :=
  ⟨[], rfl, rfl⟩

/-- The bytes of two texts are those of the one and then of the other. -/
theorem utf8_append (cs ds : List Char) : utf8 (cs ++ ds) = utf8 cs ++ utf8 ds :=
  List.flatMap_append

/-- From a place between two characters on, the bytes are those of what follows. -/
theorem Before.drop (h : Before cs i rest) : (utf8 cs).drop i = utf8 rest := by
  obtain ⟨front, rfl, rfl⟩ := h
  rw [utf8_append, List.drop_left]

/-- The byte at a place tells whether a given character of a single byte follows. -/
theorem Before.getElem?_iff (h : Before cs i rest) {a : Char} (ha : a.toNat < 128) :
    (utf8 cs)[i]? = some a.toUInt8 ↔ rest.head? = some a := by
  rw [← head?_utf8 ha, ← h.drop, List.head?_drop]

/-- A character of a single byte is passed by one place. -/
theorem Before.succ {c : Char} (h : Before cs i (c :: rest)) (hc : c.toNat < 128) :
    Before cs (i + 1) rest := by
  obtain ⟨front, rfl, rfl⟩ := h
  refine ⟨front ++ [c], by rw [List.append_assoc]; rfl, ?_⟩
  rw [utf8_append, utf8_cons_of_lt hc, List.length_append]
  rfl

/-- Digits are passed by as many places as there are of them. -/
theorem Before.digits {ds : List Digit} (h : Before cs i (digitChars ds ++ rest)) :
    Before cs (i + ds.length) rest := by
  induction ds generalizing i with
  | nil => exact h
  | cons d ds ih =>
    have hsucc := ih (h.succ d.toNat_char_lt)
    rwa [Nat.add_assoc, Nat.add_comm 1] at hsucc

/-- Both scans see as many digits ahead. -/
theorem Before.digitsAt_eq (h : Before cs i rest) :
    digitsAt (utf8 cs) i = (takeDigits rest).1.length := by
  rw [digitsAt, h.drop, length_takeWhile_utf8]

/-- Past their digits, both scans are at the same place. -/
theorem Before.afterDigits (h : Before cs i rest) :
    Before cs (i + (takeDigits rest).1.length) (takeDigits rest).2 := by
  refine Before.digits ?_
  rwa [digitChars_append_takeDigits]

/-- Past a sign, if there is one, both scans are at the same place. -/
theorem Before.afterSign (h : Before cs i rest) :
    Before cs (signEnd (utf8 cs) i) (scanSign rest).2 := by
  have hplus := h.getElem?_iff (a := '+') (by decide)
  have hminus := h.getElem?_iff (a := '-') (by decide)
  rw [signEnd]
  -- the byte is one of the two signs exactly if the character is
  by_cases hsign : rest.head? = some '+' ∨ rest.head? = some '-'
  · rw [if_pos (hsign.imp hplus.mpr hminus.mpr)]
    rcases hsign with hsign | hsign
    · obtain ⟨r, rfl⟩ := List.head?_eq_some_iff.mp hsign
      exact h.succ (by decide)
    · obtain ⟨r, rfl⟩ := List.head?_eq_some_iff.mp hsign
      exact h.succ (by decide)
  · have hnone : scanSign rest = (none, rest) := by
      refine scanSign_signText_append none fun c hc => ⟨?_, ?_⟩
      · rintro rfl
        exact hsign (.inl hc)
      · rintro rfl
        exact hsign (.inr hc)
    rw [if_neg (mt (Or.imp hplus.mp hminus.mp) hsign), hnone]
    exact h

/-- A mantissa is found at a place where there is one, and ends where it does. -/
theorem Before.afterMantissa (h : Before cs i rest) :
    Option.Rel (fun j found => Before cs j found.2) (mantissaEnd? (utf8 cs) i)
      (Mantissa.scan rest) := by
  obtain ⟨ds, r, htake⟩ : ∃ ds r, takeDigits rest = (ds, r) := ⟨_, _, rfl⟩
  have hpoint : Before cs (i + ds.length) r := by
    have hafter := h.afterDigits
    rwa [htake] at hafter
  -- the byte behind the first digits is a point exactly if the character is
  have hbyte := hpoint.getElem?_iff (a := '.') (by decide)
  rw [mantissaEnd?, h.digitsAt_eq, htake]
  dsimp only
  by_cases hr : r.head? = some '.'
  · obtain ⟨r, rfl⟩ := List.head?_eq_some_iff.mp hr
    have hfraction := hpoint.succ (by decide)
    have hend := hfraction.afterDigits
    rw [if_pos (hbyte.mpr hr), hfraction.digitsAt_eq]
    -- with a point: digits in front of it suffice, or else there must be some behind it
    cases ds with
    | cons d ds =>
      have hpos : 0 < (d :: ds).length := Nat.succ_pos ds.length
      rw [Mantissa.scan_pointed htake, if_pos (Nat.add_pos_left hpos _)]
      exact .some hend
    | nil =>
      obtain ⟨es, r', hdigits⟩ : ∃ es r', takeDigits r = (es, r') := ⟨_, _, rfl⟩
      rw [hdigits] at hend ⊢
      cases es with
      | nil =>
        rw [Mantissa.scan_point htake hdigits]
        exact .none
      | cons e es =>
        rw [Mantissa.scan_fractional htake hdigits]
        exact .some hend
  · rw [if_neg (mt hbyte.mp hr)]
    -- without a point: the digits are the whole mantissa, if there are any
    cases ds with
    | nil =>
      rw [Mantissa.scan_nothing htake hr]
      exact .none
    | cons d ds =>
      rw [Mantissa.scan_whole htake hr]
      exact .some hpoint

/-- Where there is no mantissa, none is found in the bytes. -/
theorem Before.mantissaEnd?_of_none (h : Before cs i rest) (hm : Mantissa.scan rest = none) :
    mantissaEnd? (utf8 cs) i = none := by
  have hrel := h.afterMantissa
  rw [hm] at hrel
  cases hend : mantissaEnd? (utf8 cs) i with
  | none => rfl
  | some j =>
    rw [hend] at hrel
    cases hrel

/-- Where there is a mantissa, its end is found in the bytes. -/
theorem Before.mantissaEnd?_of_some (h : Before cs i rest) {m : Mantissa} {after : List Char}
    (hm : Mantissa.scan rest = some (m, after)) :
    ∃ j, mantissaEnd? (utf8 cs) i = some j ∧ Before cs j after := by
  have hrel := h.afterMantissa
  rw [hm] at hrel
  cases hend : mantissaEnd? (utf8 cs) i with
  | none =>
    rw [hend] at hrel
    cases hrel
  | some j =>
    rw [hend] at hrel
    cases hrel with
    | some hj => exact ⟨j, rfl, hj⟩

/-- Past an exponent, if there is one, both scans are at the same place. -/
theorem Before.afterExponent (h : Before cs i rest) :
    Before cs (exponentEnd (utf8 cs) i) (Exponent.scan rest).2 := by
  have hsmall := h.getElem?_iff (a := 'e') (by decide)
  have hcapital := h.getElem?_iff (a := 'E') (by decide)
  rw [exponentEnd]
  by_cases hmark : rest.head? = some 'e' ∨ rest.head? = some 'E'
  · rw [if_pos (hmark.imp hsmall.mpr hcapital.mpr)]
    obtain ⟨c, r, rfl, hc⟩ : ∃ c r, rest = c :: r ∧ (c = 'e' ∨ c = 'E') := by
      rcases hmark with hmark | hmark
      · obtain ⟨r, rfl⟩ := List.head?_eq_some_iff.mp hmark
        exact ⟨_, r, rfl, .inl rfl⟩
      · obtain ⟨r, rfl⟩ := List.head?_eq_some_iff.mp hmark
        exact ⟨_, r, rfl, .inr rfl⟩
    have hlt : c.toNat < 128 := by
      rcases hc with rfl | rfl <;> decide
    -- behind the mark both scans pass a sign and then digits
    have hstart := (h.succ hlt).afterSign
    have hend := hstart.afterDigits
    dsimp only
    rw [hstart.digitsAt_eq]
    obtain ⟨ds, r', htake⟩ : ∃ ds r', takeDigits (scanSign r).2 = (ds, r') := ⟨_, _, rfl⟩
    rw [htake] at hend ⊢
    cases ds with
    | nil =>
      -- a mark without a digit is not passed, so both are still in front of it
      rw [Exponent.scan_of_no_digit htake]
      exact h
    | cons d ds =>
      have hpos : 0 < (d :: ds).length := Nat.succ_pos ds.length
      rw [Exponent.scan_of_mark hc htake, if_pos hpos]
      exact hend
  · rw [if_neg (mt (Or.imp hsmall.mp hcapital.mp) hmark), Exponent.scan_of_no_mark hmark]
    exact h

/-! ## Cutting a text off -/

/-- A text can be cut where two of its parts meet, since no character is cut there. -/
theorem splitAtByte?_append (front rest : List Char) :
    splitAtByte? (front ++ rest) (utf8 front).length = some (front, rest) := by
  induction front with
  | nil => cases rest <;> rfl
  | cons c front ih =>
    have hpos : 0 < c.utf8Size := c.utf8Size_pos
    -- by induction on the front: the first character takes as many places as it has bytes
    have hlength : (utf8 (c :: front)).length = (utf8 front).length + c.utf8Size - 1 + 1 := by
      rw [utf8, List.flatMap_cons, List.length_append, String.length_utf8EncodeChar]
      show c.utf8Size + (utf8 front).length = _
      omega
    have hle : c.utf8Size ≤ (utf8 front).length + c.utf8Size - 1 + 1 := by omega
    have hrest : (utf8 front).length + c.utf8Size - 1 + 1 - c.utf8Size = (utf8 front).length := by
      omega
    rw [List.cons_append, hlength, splitAtByte?, if_pos hle, hrest, ih]
    rfl

/-- At a place between two characters a text is cut into what is in front and what follows. -/
theorem Before.split (h : Before cs i rest) :
    ∃ front, cs = front ++ rest ∧ splitAtByte? cs i = some (front, rest) := by
  obtain ⟨front, rfl, rfl⟩ := h
  exact ⟨front, rfl, splitAtByte?_append front rest⟩

/-! ## The whole scan -/

/-- Only a minus makes the value negative; a plus says nothing. -/
theorem signValue_scanSign (cs : List Char) :
    signValue (scanSign cs).1 = if cs.head? = some '-' then .minus else .plus := by
  unfold scanSign
  split
  · rfl
  · rfl
  · next hminus =>
    rw [if_neg]
    · rfl
    · intro hhead
      obtain ⟨r, rfl⟩ := List.head?_eq_some_iff.mp hhead
      exact hminus r rfl

/-- A scan by bytes that may read any decimal literal goes well on every text, and gives the number
that the scan of its characters gives. -/
theorem leadingByBytes_eq {read? : List Char → Option Number}
    (hread : ∀ s m e, read? (Literal.text ⟨s, .decimal m e⟩) =
      some (Literal.value ⟨s, .decimal m e⟩)) (cs : List Char) :
    leadingByBytes read? cs = .ok ((Literal.scan cs).map fun found => found.1.value) := by
  have hstart := (Before.start cs).afterSign
  obtain ⟨sign, -, hbody⟩ := hstart.split
  have hminus := (Before.start cs).getElem?_iff (a := '-') (by decide)
  simp only [leadingByBytes, hbody]
  -- the word of infinity is looked for before digits are
  cases hword : dropWord? infinityWord (scanSign cs).2 with
  | some rest =>
    have hstarts : infinityWord.isPrefixOf (scanSign cs).2 = true :=
      List.isPrefixOf_iff_prefix.mpr ⟨rest, (dropWord?_eq_some_iff.mp hword).symm⟩
    rw [if_pos hstarts, Literal.scan_infinity hword, Option.map_some, Literal.value,
      signValue_scanSign]
    simp only [hminus]
  | none =>
    have hstarts : ¬ infinityWord.isPrefixOf (scanSign cs).2 = true := by
      intro hstarts
      obtain ⟨rest, hrest⟩ := List.isPrefixOf_iff_prefix.mp hstarts
      rw [dropWord?_eq_some_iff.mpr hrest.symm] at hword
      cases hword
    rw [if_neg hstarts]
    cases hm : Mantissa.scan (scanSign cs).2 with
    | none =>
      rw [hstart.mantissaEnd?_of_none hm, Literal.scan_nothing hword hm]
      rfl
    | some found =>
      have hscan := Literal.scan_decimal hword hm
      obtain ⟨stop, hstop, hbefore⟩ := hstart.mantissaEnd?_of_some hm
      obtain ⟨front, hfront, hsplit⟩ := hbefore.afterExponent.split
      -- what is cut off is the literal
      rw [Literal.text_append_of_scan hscan] at hfront
      cases List.append_cancel_right hfront
      simp only [hstop, hsplit, hread, hscan, Option.map_some]

end ScriptMachine
