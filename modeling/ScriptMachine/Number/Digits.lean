/-!
# Decimal digits

Runs of the ten ASCII digits: their values, their texts, and the run at the start of a text.

* `takeDigits_append`: a run that no digit follows is taken whole and nothing more.
* `digitChars_append_takeDigits`: what is taken and what is left are the text.
* `Digits.value_ofNat`: a number is the value of its digits.
-/

namespace ScriptMachine

abbrev Digit := Fin 10

namespace Digit

/-- The character of a digit. -/
def char (d : Digit) : Char :=
  Nat.digitChar d.val

/-- The digit of an ASCII digit character. -/
def ofChar? (c : Char) : Option Digit :=
  if h : '0' ≤ c ∧ c ≤ '9' then
    some ⟨c.toNat - '0'.toNat, by
      have hle : c.toNat ≤ '9'.toNat := h.2
      have h0 : '0'.toNat = 48 := rfl
      have h9 : '9'.toNat = 57 := rfl
      omega⟩
  else none

theorem ofChar?_char : ∀ d : Digit, ofChar? d.char = some d := by decide

theorem toNat_char : ∀ d : Digit, d.char.toNat = 48 + d.val := by decide

theorem eq_char_of_ofChar? {c : Char} {d : Digit} (h : ofChar? c = some d) : c = d.char := by
  unfold ofChar? at h
  split at h
  · next hc =>
    cases h
    have hlo : 48 ≤ c.toNat := hc.1
    have h0 : '0'.toNat = 48 := rfl
    apply Char.toNat_inj.1
    rw [toNat_char]
    -- a digit is its distance from the first one
    show c.toNat = 48 + (c.toNat - '0'.toNat)
    omega
  · cases h

end Digit

/-- The characters of a run of digits. -/
def digitChars (ds : List Digit) : List Char :=
  ds.map Digit.char

/-- The number that a run of digits stands for, after a number that is already read. -/
def digitsValue (ds : List Digit) (start : Nat) : Nat :=
  ds.foldl (fun n d => 10 * n + d.val) start

/-- The digits at the start of a text and the rest of it. -/
def takeDigits : List Char → List Digit × List Char
  | [] => ([], [])
  | c :: cs =>
    match Digit.ofChar? c with
    | some d =>
      let taken := takeDigits cs
      (d :: taken.1, taken.2)
    | none => ([], c :: cs)

/-- No digit at the start of a text. -/
def NoDigitAhead (cs : List Char) : Prop :=
  ∀ c r, cs = c :: r → Digit.ofChar? c = none

theorem takeDigits_of_noDigitAhead {cs : List Char} (h : NoDigitAhead cs) :
    takeDigits cs = ([], cs) := by
  cases cs with
  | nil => rfl
  | cons c r => simp [takeDigits, h c r rfl]

/-- Digits in front of a text are taken with those at its start. -/
theorem takeDigits_digitChars_append (ds : List Digit) (rest : List Char) :
    takeDigits (digitChars ds ++ rest) = (ds ++ (takeDigits rest).1, (takeDigits rest).2) := by
  induction ds with
  | nil => rfl
  | cons d ds ih =>
    -- by induction on the digits, each of which is taken by itself
    have hcons : digitChars (d :: ds) ++ rest = d.char :: (digitChars ds ++ rest) := rfl
    simp [hcons, takeDigits, Digit.ofChar?_char, ih]

theorem takeDigits_append {rest : List Char} (h : NoDigitAhead rest) (ds : List Digit) :
    takeDigits (digitChars ds ++ rest) = (ds, rest) := by
  rw [takeDigits_digitChars_append, takeDigits_of_noDigitAhead h, List.append_nil]

/-- What is taken and what is left are the text. -/
theorem digitChars_append_takeDigits (cs : List Char) :
    digitChars (takeDigits cs).1 ++ (takeDigits cs).2 = cs := by
  induction cs with
  | nil => rfl
  | cons c cs ih =>
    unfold takeDigits
    split
    · next d hd =>
      rw [digitChars, List.map_cons, List.cons_append, ← Digit.eq_char_of_ofChar? hd]
      exact congrArg _ ih
    · rfl

theorem length_takeDigits_le (cs : List Char) : (takeDigits cs).2.length ≤ cs.length := by
  conv => rhs; rw [← digitChars_append_takeDigits cs, List.length_append]
  exact Nat.le_add_left _ _

/-- No digit is left at the front. -/
theorem noDigitAhead_takeDigits (cs : List Char) : NoDigitAhead (takeDigits cs).2 := by
  induction cs with
  | nil => intro c r h; cases h
  | cons c cs ih =>
    unfold takeDigits
    split
    · exact ih
    · next hd =>
      intro c' r' h
      cases h
      exact hd

theorem eq_append_of_takeDigits {cs rest : List Char} {ds : List Digit}
    (h : takeDigits cs = (ds, rest)) : cs = digitChars ds ++ rest := by
  rw [← digitChars_append_takeDigits cs, h]

/-- A run of at least one digit. -/
structure Digits where
  head : Digit
  tail : List Digit
  deriving DecidableEq, Repr

namespace Digits

def toList (ds : Digits) : List Digit :=
  ds.head :: ds.tail

/-- The number that the digits stand for. -/
def value (ds : Digits) : Nat :=
  digitsValue ds.toList 0

/-- One more digit at the end. -/
def push (ds : Digits) (d : Digit) : Digits :=
  ⟨ds.head, ds.tail ++ [d]⟩

/-- The digits of a number, without a leading zero unless it is zero. -/
def ofNat (n : Nat) : Digits :=
  if h : n < 10 then ⟨⟨n, h⟩, []⟩
  else (ofNat (n / 10)).push ⟨n % 10, Nat.mod_lt _ (by decide)⟩
termination_by n
decreasing_by omega

theorem value_push (ds : Digits) (d : Digit) : (ds.push d).value = 10 * ds.value + d.val := by
  simp [value, push, toList, digitsValue]

theorem value_ofNat (n : Nat) : (ofNat n).value = n := by
  induction n using ofNat.induct with
  | case1 n h => rw [ofNat, dif_pos h]; simp [value, toList, digitsValue]
  | case2 n h ih =>
    rw [ofNat, dif_neg h, value_push, ih]
    exact Nat.div_add_mod n 10

end Digits

end ScriptMachine
