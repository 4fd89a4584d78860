/-!
# Quoted texts

A text between quotes, in which a quote, a backslash and every control character is written as an
escape that starts with a backslash. All other characters stand for themselves.

* `escape`: how one character is written.
* `quoted`: how a text is.
-/

namespace ScriptMachine

/-- A character of the general category of controls. -/
def isControl (c : Char) : Bool :=
  c.toNat < 0x20 || (0x7F ≤ c.toNat && c.toNat < 0xA0)

/-- A character between quotes: a letter of its own for the common controls, the code in lower-case
hexadecimal digits between braces for the others. -/
def escape (c : Char) : List Char :=
  match c with
  | '"' => ['\\', '"']
  | '\\' => ['\\', '\\']
  | '\n' => ['\\', 'n']
  | '\r' => ['\\', 'r']
  | '\t' => ['\\', 't']
  | '\x00' => ['\\', '0']
  | c =>
    if isControl c then ['\\', 'u', '\x7b'] ++ Nat.toDigits 16 c.toNat ++ ['\x7d']
    else [c]

/-- The text between quotes. -/
def quoted (s : String) : String :=
  String.ofList ('"' :: s.toList.flatMap escape ++ ['"'])

theorem toList_quoted (s : String) :
    (quoted s).toList = '"' :: s.toList.flatMap escape ++ ['"'] := by
  simp [quoted]

end ScriptMachine
