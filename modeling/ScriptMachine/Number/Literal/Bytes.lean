import ScriptMachine.Number.Literal

/-!
# The literal at the start of a text, by its bytes

A text is stored as the bytes of its UTF-8 form, and the number at its start is found by places in
these bytes, without looking at characters. A place that falls inside of a character cuts no text
off there.

* `utf8`, `splitAtByte?`: the bytes of a text, and its parts in front of a place and from it on.
* `signEnd`, `mantissaEnd?`, `exponentEnd`: the places where the parts of a decimal literal end.
* `leadingByBytes`: the number at the start of a text, or what goes wrong on the way to it.
-/

namespace ScriptMachine

/-- The bytes of a text. -/
def utf8 (cs : List Char) : List UInt8 :=
  cs.flatMap String.utf8EncodeChar

/-- The text in front of a place and the text from it on; nothing if the place is inside of a
character or beyond the end. -/
def splitAtByte? : List Char → Nat → Option (List Char × List Char)
  | cs, 0 => some ([], cs)
  | [], _ + 1 => none
  | c :: cs, i + 1 =>
    if c.utf8Size ≤ i + 1 then
      (splitAtByte? cs (i + 1 - c.utf8Size)).map fun parts => (c :: parts.1, parts.2)
    else none

def isDigitByte (b : UInt8) : Bool :=
  '0'.toUInt8 ≤ b && b ≤ '9'.toUInt8

/-- The number of digits from a place on. -/
def digitsAt (bytes : List UInt8) (i : Nat) : Nat :=
  ((bytes.drop i).takeWhile isDigitByte).length

/-- The place after a sign, if one is there. -/
def signEnd (bytes : List UInt8) (i : Nat) : Nat :=
  if bytes[i]? = some '+'.toUInt8 ∨ bytes[i]? = some '-'.toUInt8 then i + 1 else i

/-- The place after a mantissa, if one is there. A point belongs to it if there are digits at
all. -/
def mantissaEnd? (bytes : List UInt8) (i : Nat) : Option Nat :=
  let whole := digitsAt bytes i
  let point := i + whole
  if bytes[point]? = some '.'.toUInt8 then
    let fraction := digitsAt bytes (point + 1)
    if 0 < whole + fraction then some (point + 1 + fraction) else none
  else if 0 < whole then some point
  else none

/-- The place after an exponent, if one is there with at least one digit. -/
def exponentEnd (bytes : List UInt8) (i : Nat) : Nat :=
  if bytes[i]? = some 'e'.toUInt8 ∨ bytes[i]? = some 'E'.toUInt8 then
    let start := signEnd bytes (i + 1)
    let digits := digitsAt bytes start
    if 0 < digits then start + digits else i
  else i

/-- What can go wrong when a text is cut off at places in its bytes. -/
inductive ByteFailure where
  /-- The place after the sign is inside of a character. -/
  | afterSign
  /-- The place after the literal is inside of a character. -/
  | afterLiteral
  /-- The text up to that place is not accepted as a decimal literal. -/
  | unreadable
  deriving DecidableEq, Repr

/-- The number at the start of a text without blanks in front. A decimal literal is found by its
bytes and then read as a whole by `read?`. -/
def leadingByBytes (read? : List Char → Option Number) (cs : List Char) :
    Except ByteFailure (Option Number) :=
  let bytes := utf8 cs
  let start := signEnd bytes 0
  match splitAtByte? cs start with
  | none => .error .afterSign
  | some (_, body) =>
    if infinityWord.isPrefixOf body then
      .ok (some (.infinity (if bytes[0]? = some '-'.toUInt8 then .minus else .plus)))
    else
      match mantissaEnd? bytes start with
      | none => .ok none
      | some stop =>
        match splitAtByte? cs (exponentEnd bytes stop) with
        | none => .error .afterLiteral
        | some (literal, _) =>
          match read? literal with
          | none => .error .unreadable
          | some n => .ok (some n)

end ScriptMachine
