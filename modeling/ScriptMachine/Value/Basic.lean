import ScriptMachine.Number.Order
import ScriptMachine.Number.Text
import ScriptMachine.Text.Quoted

/-!
# Values

A value is a number, a text or an array of values. There is no type of booleans: a comparison
yields one of two texts, and truth is a property of texts. A text that starts with a number is
coerced to that number wherever an operator asks for one.

* `Value.coerce`: the number that a text starts with, or the value unchanged.
* `Value.isTruthy`: whether a value counts as true.
* `Value.display`, `Value.inspect`: the texts that programs and developers see.
* `Value.same`: equality of structure, without coercion.
-/

namespace ScriptMachine

inductive Value where
  | number (n : Number)
  | text (s : String)
  | array (items : List Value)

namespace Value

instance : Inhabited Value := ⟨number default⟩

/-- What a value is, apart from its content. -/
inductive Kind where
  | number
  | text
  | array
  deriving DecidableEq, Repr

/-- The name by which programs know a kind. -/
def Kind.name : Kind → String
  | number => "number"
  | text => "string"
  | array => "array"

def kind : Value → Kind
  | number _ => .number
  | text _ => .text
  | array _ => .array

def number? : Value → Option Number
  | number n => some n
  | _ => none

def text? : Value → Option String
  | text s => some s
  | _ => none

def items? : Value → Option (List Value)
  | array items => some items
  | _ => none

/-! ## Truth -/

/-- The text of truth. -/
def trueText : String := "True"

/-- The text of falsehood. -/
def falseText : String := "False"

/-- The text that a comparison yields. -/
def ofBool (b : Bool) : Value :=
  text (if b then trueText else falseText)

/-- A text spelt as that of truth, in capital or small ASCII letters. -/
def spellsTrue (s : String) : Bool :=
  s.toList.map Char.toLower == trueText.toList.map Char.toLower

/-- Only a text can be truthy: no number is, and no array. -/
def isTruthy : Value → Bool
  | text s => spellsTrue s
  | _ => false

theorem isTruthy_ofBool (b : Bool) : (ofBool b).isTruthy = b := by
  cases b <;> decide

/-! ## Coercion -/

/-- The number that a text starts with; any other value is left as it is. -/
def coerce : Value → Value
  | text s =>
    match Number.leading? s with
    | some n => number n
    | none => text s
  | v => v

theorem coerce_text_of_some {s : String} {n : Number} (h : Number.leading? s = some n) :
    (text s).coerce = number n := by
  simp [coerce, h]

theorem coerce_text_of_none {s : String} (h : Number.leading? s = none) :
    (text s).coerce = text s := by
  simp [coerce, h]

theorem coerce_coerce (v : Value) : v.coerce.coerce = v.coerce := by
  cases v with
  | number n => rfl
  | array items => rfl
  | text s =>
    cases h : Number.leading? s with
    | none => rw [coerce_text_of_none h, coerce_text_of_none h]
    | some n =>
      rw [coerce_text_of_some h]
      rfl

/-! ## Texts -/

/-- Texts in brackets, with a comma between any two. -/
def bracketed (texts : List String) : String :=
  "[" ++ ", ".intercalate texts ++ "]"

mutual

/-- The text that a program sees. -/
def display : Value → String
  | number n => n.text
  | text s => s
  | array items => bracketed (displayAll items)

def displayAll : List Value → List String
  | [] => []
  | v :: vs => v.display :: displayAll vs

end

mutual

/-- The text that a developer sees: it names the kind of every value and quotes texts. -/
def inspect : Value → String
  | number n => "Number(" ++ n.text ++ ")"
  | text s => "Str(" ++ quoted s ++ ")"
  | array items => "Array(" ++ bracketed (inspectAll items) ++ ")"

def inspectAll : List Value → List String
  | [] => []
  | v :: vs => v.inspect :: inspectAll vs

end

/-- The developer's text of the content alone; a number has no content apart from itself. -/
def inspectContent? : Value → Option String
  | number _ => none
  | text s => some (quoted s)
  | array items => some (bracketed (inspectAll items))

theorem inspectAll_eq_map (vs : List Value) : inspectAll vs = vs.map inspect := by
  induction vs with
  | nil => rfl
  | cons v vs ih => rw [inspectAll, ih, List.map_cons]

/-! ## Structural equality -/

mutual

/-- The same kind and the same content, without coercion. Numbers are compared as numbers, so that
what is not a number differs from itself and both zeros are the same. -/
def same : Value → Value → Bool
  | number m, number n => m.equals n
  | text s, text t => s == t
  | array vs, array ws => sameAll vs ws
  | _, _ => false

def sameAll : List Value → List Value → Bool
  | [], [] => true
  | v :: vs, w :: ws => same v w && sameAll vs ws
  | _, _ => false

end

end Value

end ScriptMachine
