import ScriptMachine.Proofs.Numbers.ByteScan
import ScriptMachine.Proofs.Numbers.Nearest

/-!
# The longest literal

A scan takes each part of a literal as soon as it is there. What it finds is nevertheless the
longest literal that a text starts with: where a literal stands at the start of a text, the scan
leaves no more than what follows it.

* `Literal.IsLongestIn`: the longest literal that a text starts with.
* `Literal.exists_scan`: a scan goes at least as far as a literal that is there.
* `Literal.scan_eq_none_iff`, `Literal.scan_eq_some_iff`: what a scan finds, without its steps.
* `Literal.Denotes`: the number of a literal, correctly rounded.
* `Number.leading?_longest`: the number at the start of a text.
-/

namespace ScriptMachine

/-- The literal stands at the start of a text, and no longer one does. -/
structure Literal.IsLongestIn (l : Literal) (cs : List Char) : Prop where
  starts : l.text <+: cs
  longest : ∀ l' : Literal, l'.text <+: cs → l'.text.length ≤ l.text.length

/-! ## A scan goes as far as a literal does -/

/-- Where a mantissa stands, the scan finds one that goes at least as far; it may go on with digits
that follow, or with a point. -/
theorem Mantissa.exists_scan (m : Mantissa) (rest : List Char) :
    ∃ m' r, Mantissa.scan (m.text ++ rest) = some (m', r) ∧ r.length ≤ rest.length := by
  have hrest := length_takeDigits_le rest
  cases m with
  | whole ds =>
    have htake := takeDigits_digitChars_append ds.toList rest
    -- behind a whole number there may be further digits, and then a point
    by_cases hpoint : (takeDigits rest).2.head? = some '.'
    · obtain ⟨r, hr⟩ := List.head?_eq_some_iff.mp hpoint
      have hle := length_takeDigits_le r
      rw [hr] at htake hrest
      refine ⟨_, _, scan_pointed htake, ?_⟩
      rw [List.length_cons] at hrest
      omega
    · exact ⟨_, _, scan_whole htake hpoint, hrest⟩
  | pointed ds fraction =>
    have htake := takeDigits_toList_append (noDigitAhead_point (digitChars fraction ++ rest)) ds
    refine ⟨.pointed ds (fraction ++ (takeDigits rest).1), _, ?_, hrest⟩
    rw [text, List.append_assoc, List.cons_append, scan_pointed htake,
      takeDigits_digitChars_append]
  | fractional fraction =>
    exact ⟨_, _, scan_fractional (takeDigits_of_noDigitAhead (noDigitAhead_point _))
      (takeDigits_digitChars_append fraction.toList rest), hrest⟩

/-- A scan for an exponent takes something or nothing. -/
theorem Exponent.length_scan_le (cs : List Char) : (Exponent.scan cs).2.length ≤ cs.length := by
  conv => rhs; rw [← Exponent.text_append_scan cs, List.length_append]
  exact Nat.le_add_left _ _

/-- Where an exponent stands, the scan takes it, and maybe digits that follow. -/
theorem Exponent.length_scan_text_append_le (e : Exponent) (rest : List Char) :
    (Exponent.scan (e.text ++ rest)).2.length ≤ rest.length := by
  have htake := takeDigits_digitChars_append e.digits.toList rest
  have hsign := scanSign_digits e.sign e.digits rest
  rw [text, List.cons_append, List.append_assoc,
    Exponent.scan_of_mark e.mark_eq (by rw [hsign]; exact htake)]
  exact length_takeDigits_le rest

/-- Where a literal without its sign stands, the scan finds one that goes at least as far. -/
theorem Unsigned.exists_scan (u : Unsigned) (rest : List Char) :
    ∃ u' r, Unsigned.scan (u.text ++ rest) = some (u', r) ∧ r.length ≤ rest.length := by
  cases u with
  | infinity => exact ⟨.infinity, rest, rfl, Nat.le_refl _⟩
  | decimal m e =>
    cases e with
    | none =>
      -- the longer mantissa may be followed by an exponent, which is taken as well
      obtain ⟨m', r, hscan, hle⟩ := m.exists_scan rest
      refine ⟨.decimal m' (Exponent.scan r).1, (Exponent.scan r).2, ?_,
        Nat.le_trans (Exponent.length_scan_le r) hle⟩
      rw [scan, text, exponentText, List.append_nil, dropWord?_decimal]
      simp only [hscan]
    | some e =>
      -- the mark of the exponent ends the mantissa
      have hscan := m.scan_text_append (e.endsMantissa_text_append rest)
      refine ⟨.decimal m (Exponent.scan (e.text ++ rest)).1, (Exponent.scan (e.text ++ rest)).2, ?_,
        e.length_scan_text_append_le rest⟩
      rw [scan, text, exponentText, List.append_assoc, dropWord?_decimal]
      simp only [hscan]

/-- Where a literal stands, the scan finds one that goes at least as far. -/
theorem Literal.exists_scan (l : Literal) (rest : List Char) :
    ∃ l' r, Literal.scan (l.text ++ rest) = some (l', r) ∧ r.length ≤ rest.length := by
  obtain ⟨s, u⟩ := l
  obtain ⟨u', r, hscan, hle⟩ := u.exists_scan rest
  refine ⟨⟨s, u'⟩, r, ?_, hle⟩
  rw [scan, text, List.append_assoc, u.scanSign_text_append]
  simp only [hscan]

/-! ## What a scan finds -/

/-- A literal that nothing follows is scanned as a whole. -/
theorem Literal.scan_text (l : Literal) : Literal.scan l.text = some (l, []) := by
  have hends : EndsNumber [] := fun c hc => nomatch hc
  have hscan := l.scan_text_append hends
  rwa [List.append_nil] at hscan

/-- A literal can be told from its text. -/
theorem Literal.text_injective {l l' : Literal} (h : l.text = l'.text) : l = l' := by
  have hscan := l.scan_text
  rw [h, l'.scan_text] at hscan
  exact (Prod.mk.inj (Option.some.inj hscan)).1.symm

/-- A text starts with one longest literal at most. -/
theorem Literal.IsLongestIn.unique {l l' : Literal} {cs : List Char} (h : l.IsLongestIn cs)
    (h' : l'.IsLongestIn cs) : l = l' := by
  -- two prefixes of the same length are the same text, and so the same literal
  have hlength := Nat.le_antisymm (h'.longest l h.starts) (h.longest l' h'.starts)
  exact text_injective ((List.prefix_of_prefix_length_le h.starts h'.starts hlength.le).eq_of_length
    hlength)

/-- What the scan finds is the longest literal, since it goes as far as any that is there. -/
theorem Literal.isLongestIn_of_scan {cs rest : List Char} {l : Literal}
    (h : Literal.scan cs = some (l, rest)) : l.IsLongestIn cs where
  starts := ⟨rest, (text_append_of_scan h).symm⟩
  longest l' hl' := by
    obtain ⟨rest', rfl⟩ := hl'
    obtain ⟨l'', r, hscan, hle⟩ := l'.exists_scan rest'
    rw [h] at hscan
    cases hscan
    -- what is left is no longer than what any other literal leaves
    have hlength := congrArg List.length (text_append_of_scan h)
    rw [List.length_append, List.length_append] at hlength
    omega

/-- The scan finds nothing exactly where no literal stands. -/
theorem Literal.scan_eq_none_iff {cs : List Char} :
    Literal.scan cs = none ↔ ∀ l : Literal, ¬ l.text <+: cs := by
  constructor
  · rintro h l ⟨rest, rfl⟩
    obtain ⟨l', r, hscan, -⟩ := l.exists_scan rest
    rw [h] at hscan
    cases hscan
  · intro h
    cases hscan : Literal.scan cs with
    | none => rfl
    | some found => exact absurd (isLongestIn_of_scan hscan).starts (h found.1)

/-- The scan finds the longest literal, and any longest literal is found. -/
theorem Literal.scan_eq_some_iff {cs : List Char} {l : Literal} :
    (∃ rest, Literal.scan cs = some (l, rest)) ↔ l.IsLongestIn cs := by
  constructor
  · rintro ⟨rest, h⟩
    exact isLongestIn_of_scan h
  · intro h
    cases hscan : Literal.scan cs with
    | none => exact absurd h.starts (scan_eq_none_iff.mp hscan l)
    | some found =>
      rw [h.unique (isLongestIn_of_scan hscan)]
      exact ⟨found.2, rfl⟩

/-! ## The number at the start of a text -/

/-- The literal denotes the number: an infinity, or the number that its decimal is correctly rounded
to. -/
inductive Literal.Denotes : Literal → Number → Prop where
  | infinity (s : Option Sign) : Denotes ⟨s, .infinity⟩ (.infinity (signValue s))
  | decimal {s : Option Sign} {m : Mantissa} {e : Option Exponent} {n : Number}
      (h : n.Rounds (signValue s) (m.decimal e).num (m.decimal e).den) :
      Denotes ⟨s, .decimal m e⟩ n

/-- A literal denotes one number, which is its value. -/
theorem Literal.denotes_iff {l : Literal} {n : Number} : l.Denotes n ↔ n = l.value := by
  constructor
  · intro h
    cases h with
    | infinity => rfl
    | @decimal s m e n h =>
      rw [(Number.rounds_iff (m.decimal e).den_pos).mp h, ← Decimal.toNumber_eq]
      rfl
  · rintro rfl
    obtain ⟨s, u⟩ := l
    cases u with
    | infinity => exact .infinity s
    | decimal m e => exact .decimal ((m.decimal e).rounds_toNumber (signValue s))

/-- The number at the start of a text is the one that the longest literal there denotes, blanks in
front apart, whatever follows; there is none exactly if no literal stands there. A scan by places in
the bytes of the text finds the same, if what it reads the decimal literals with rounds them
correctly: no place is inside of a character, and nothing is read that is not a literal. -/
theorem Number.leading?_longest (text : String) :
    let cs := dropBlanks text.toList
    (Number.leading? text = none ↔ ∀ l : Literal, ¬ l.text <+: cs) ∧
    (∀ n, Number.leading? text = some n ↔ ∃ l : Literal, l.IsLongestIn cs ∧ l.Denotes n) ∧
    ∀ read? : List Char → Option Number,
      (∀ s m e, ∃ n, read? (Literal.text ⟨s, .decimal m e⟩) = some n ∧
        Literal.Denotes ⟨s, .decimal m e⟩ n) →
      leadingByBytes read? cs = .ok (Number.leading? text) := by
  intro cs
  refine ⟨?_, fun n => ?_, fun read? hread => ?_⟩
  · rw [leading?, Option.map_eq_none_iff, Literal.scan_eq_none_iff]
  · rw [leading?, Option.map_eq_some_iff]
    constructor
    · rintro ⟨⟨l, rest⟩, hscan, rfl⟩
      exact ⟨l, Literal.isLongestIn_of_scan hscan, Literal.denotes_iff.mpr rfl⟩
    · rintro ⟨l, hlongest, hdenotes⟩
      obtain ⟨rest, hscan⟩ := Literal.scan_eq_some_iff.mpr hlongest
      exact ⟨(l, rest), hscan, (Literal.denotes_iff.mp hdenotes).symm⟩
  · refine leadingByBytes_eq (fun s m e => ?_) cs
    obtain ⟨n, hn, hdenotes⟩ := hread s m e
    rw [hn, Literal.denotes_iff.mp hdenotes]

/-- A mark and a sign without a digit are no exponent, and the blanks in front and the last
character are of more than one byte. -/
theorem Number.leading?_longest_dangling_exponent :
    let l : Literal := ⟨some .minus, .decimal (.pointed ⟨1, []⟩ [5]) none⟩
    let read? := fun cs => (Literal.scan cs).map fun found => found.1.value
    l.IsLongestIn (dropBlanks "\u3000-1.5e+é".toList) ∧
      (∃ n, Number.leading? "\u3000-1.5e+é" = some n ∧ l.Denotes n) ∧
      leadingByBytes read? (dropBlanks "\u3000-1.5e+é".toList) =
        .ok (Number.leading? "\u3000-1.5e+é") := by
  intro l read?
  obtain ⟨-, hsome, hbytes⟩ := Number.leading?_longest "\u3000-1.5e+é"
  have hlongest : l.IsLongestIn (dropBlanks "\u3000-1.5e+é".toList) :=
    Literal.scan_eq_some_iff.mp ⟨"e+é".toList, rfl⟩
  refine ⟨hlongest, ⟨l.value, (hsome l.value).mpr ⟨l, hlongest, Literal.denotes_iff.mpr rfl⟩,
    Literal.denotes_iff.mpr rfl⟩, hbytes read? fun s m e => ⟨_, ?_, Literal.denotes_iff.mpr rfl⟩⟩
  show (Literal.scan _).map _ = _
  rw [Literal.scan_text, Option.map_some]

end ScriptMachine
