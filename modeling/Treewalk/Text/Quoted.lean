import Treewalk.Text.Printable

/-!
# Quoted text

A text between double quotes in which the quote, the backslash and a few control characters have
short escapes, and every other character that is not printable is written by its code point in
hexadecimal.
-/

set_option autoImplicit false
set_option relaxedAutoImplicit false

namespace Treewalk.Text

/-- The hexadecimal digits of a number. -/
def hex (n : Nat) : List Char :=
  Nat.toDigits 16 n

/-- How a character is written inside quotes. -/
def escape (c : Char) : List Char :=
  if c = '\x00' then ['\\', '0']
  else if c = '\t' then ['\\', 't']
  else if c = '\r' then ['\\', 'r']
  else if c = '\n' then ['\\', 'n']
  else if c = '"' then ['\\', '"']
  else if c = '\\' then ['\\', '\\']
  else if isPrintable c then [c]
  else ['\\', 'u', '\x7b'] ++ hex c.toNat ++ ['\x7d']

/-- A text in double quotes. -/
def quoted (text : String) : String :=
  String.ofList ('"' :: text.toList.flatMap escape ++ ['"'])

end Treewalk.Text
