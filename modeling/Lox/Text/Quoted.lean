import Lox.Text.GraphemeExtend
import Lox.Text.Printable

/-!
# Quoted text

Text in double quotes, with every character made visible. Quotes, backslashes
and the usual control characters are escaped by one character after a
backslash; what cannot be shown, or would be shown as part of the character
before it, is written as its code point.
-/

namespace Lox.Text

/-- A character by its code point in hexadecimal. -/
def codePoint (c : Char) : List Char :=
  ['\\', 'u', '\x7b'] ++ Nat.toDigits 16 c.toNat ++ ['\x7d']

/-- A character between quotes. -/
def escape (c : Char) : List Char :=
  if c = '\x00' then ['\\', '0']
  else if c = '\t' then ['\\', 't']
  else if c = '\r' then ['\\', 'r']
  else if c = '\n' then ['\\', 'n']
  else if c = '"' ∨ c = '\\' then ['\\', c]
  else if graphemeExtend.contains c then codePoint c
  else if printable.contains c then [c]
  else codePoint c

/-- A text in quotes. -/
def quoted (text : String) : String :=
  .ofList ('"' :: text.toList.flatMap escape ++ ['"'])

end Lox.Text
