import ScriptMachine.Number.Decimal
import ScriptMachine.Number.Digits

/-!
# Number literals

The written form of a number: an optional sign, then the word `Infinity` or decimal digits with at
most one point, then an optional exponent. A literal knows its text and its number.

* `Literal`: the grammar, one constructor or field for each of its choices.
* `Literal.text`: what a literal looks like.
* `Literal.value`: the number it denotes.
-/

namespace ScriptMachine

/-- The digits of a decimal literal: `12`, then `12.` or `12.5`, then `.5`. -/
inductive Mantissa where
  | whole (digits : Digits)
  | pointed (digits : Digits) (fraction : List Digit)
  | fractional (fraction : Digits)
  deriving DecidableEq, Repr

/-- The power of ten of a decimal literal, such as `e5`, `E-07` or `e+3`. -/
structure Exponent where
  capital : Bool
  sign : Option Sign
  digits : Digits
  deriving DecidableEq, Repr

/-- What follows the sign of a literal. -/
inductive Unsigned where
  | infinity
  | decimal (mantissa : Mantissa) (exponent : Option Exponent)
  deriving DecidableEq, Repr

/-- A written number. -/
structure Literal where
  sign : Option Sign
  body : Unsigned
  deriving DecidableEq, Repr

/-! ## Texts -/

/-- A written sign; none may be written. -/
def signText : Option Sign → List Char
  | none => []
  | some .plus => ['+']
  | some .minus => ['-']

def Mantissa.text : Mantissa → List Char
  | whole ds => digitChars ds.toList
  | pointed ds fraction => digitChars ds.toList ++ '.' :: digitChars fraction
  | fractional fraction => '.' :: digitChars fraction.toList

/-- The letter in front of an exponent. -/
def Exponent.mark (e : Exponent) : Char :=
  if e.capital then 'E' else 'e'

def Exponent.text (e : Exponent) : List Char :=
  e.mark :: (signText e.sign ++ digitChars e.digits.toList)

/-- An exponent that may not be written. -/
def exponentText : Option Exponent → List Char
  | none => []
  | some e => e.text

/-- The word for an infinity. -/
def infinityWord : List Char := "Infinity".toList

def Unsigned.text : Unsigned → List Char
  | infinity => infinityWord
  | decimal mantissa exponent => mantissa.text ++ exponentText exponent

/-- The text of a literal. -/
def Literal.text (l : Literal) : List Char :=
  signText l.sign ++ l.body.text

/-! ## Values -/

/-- A sign that is not written is positive. -/
def signValue : Option Sign → Sign
  | none => .plus
  | some s => s

/-- All digits of a mantissa, as one run. -/
def Mantissa.digits : Mantissa → List Digit
  | whole ds => ds.toList
  | pointed ds fraction => ds.toList ++ fraction
  | fractional fraction => fraction.toList

/-- The number of digits after the point. -/
def Mantissa.places : Mantissa → Nat
  | whole _ => 0
  | pointed _ fraction => fraction.length
  | fractional fraction => fraction.toList.length

def Exponent.value (e : Exponent) : Int :=
  (signValue e.sign).apply e.digits.value

/-- The power of ten that an exponent adds; none if it is not written. -/
def exponentValue : Option Exponent → Int
  | none => 0
  | some e => e.value

/-- The decimal of a mantissa and an exponent. -/
def Mantissa.decimal (m : Mantissa) (e : Option Exponent) : Decimal :=
  ⟨digitsValue m.digits 0, exponentValue e - m.places⟩

/-- The number that a literal denotes: an infinity, or the number nearest to its decimal. -/
def Literal.value (l : Literal) : Number :=
  match l.body with
  | .infinity => .infinity (signValue l.sign)
  | .decimal mantissa exponent => (mantissa.decimal exponent).toNumber (signValue l.sign)

end ScriptMachine
