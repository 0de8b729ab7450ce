import OrderFile.Text.Unprintable

/-!
Text in double quotes on one line: quotes, backslashes and unprintable characters are escaped,
so that what stands between the quotes holds no line end and no control character.
-/

set_option autoImplicit false

namespace OrderFile.Quoted

/-- The code point in lowercase hexadecimal digits, without padding. -/
def codePoint (c : Char) : List Char :=
  ['\\', 'u', '\x7b'] ++ Nat.toDigits 16 c.toNat ++ ['\x7d']

/-- How one character is written between the quotes. -/
def escape (c : Char) : List Char :=
  if c = '\x00' then ['\\', '0']
  else if c = '\t' then ['\\', 't']
  else if c = '\r' then ['\\', 'r']
  else if c = '\n' then ['\\', 'n']
  else if c = '\\' ∨ c = '"' then ['\\', c]
  else if isUnprintable c then codePoint c
  else [c]

/-- A text in quotes. -/
def quote (text : String) : String :=
  String.ofList ('"' :: text.toList.flatMap escape ++ ['"'])

end OrderFile.Quoted
