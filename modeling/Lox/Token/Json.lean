import Lox.Token.Lexer

/-!
# Tokens as JSON

A token list is written as an indented array of objects with the members
`token_type`, `lexeme` and `line`. A kind is its name, or for a literal an
object whose one member is named after the kind and holds the value.
-/

namespace Lox.Json

/-- The lower-case hexadecimal digit of a number below sixteen. -/
def hexDigit (n : Nat) : Char :=
  Nat.digitChar n

/-- A character inside a JSON string. Quotes, backslashes and control
characters are escaped, the latter by a letter where there is one. -/
def escape (c : Char) : List Char :=
  if c = '"' then ['\\', '"']
  else if c = '\\' then ['\\', '\\']
  else if c = '\n' then ['\\', 'n']
  else if c = '\r' then ['\\', 'r']
  else if c = '\t' then ['\\', 't']
  else if c = '\x08' then ['\\', 'b']
  else if c = '\x0c' then ['\\', 'f']
  else if c.toNat < 0x20 then
    ['\\', 'u', '0', '0', hexDigit (c.toNat / 16), hexDigit (c.toNat % 16)]
  else [c]

/-- A JSON string. -/
def quote (s : String) : String :=
  .ofList ('"' :: s.toList.flatMap escape ++ ['"'])

/-- The lines between the brackets of an indented array or object. -/
def joined (items : List String) : String :=
  ",\n".intercalate items

/-- A token kind, as a member of an object that is indented by four blanks. -/
def kind : TokenKind → String
  | .string contents => tagged "STRING" (quote contents)
  | .number value => tagged "NUMBER" (Number.json value)
  | k => quote k.name
where
  tagged (name value : String) : String :=
    "\x7b\n      " ++ quote name ++ ": " ++ value ++ "\n    \x7d"

/-- A token, as an item of the list. -/
def token (t : Token) : String :=
  "  \x7b\n" ++ joined
    [ "    \"token_type\": " ++ kind t.kind
    , "    \"lexeme\": " ++ quote t.lexeme
    , "    \"line\": " ++ toString t.line ] ++ "\n  \x7d"

/-- A token list. -/
def tokens (ts : List Token) : String :=
  if ts.isEmpty then "[]" else "[\n" ++ joined (ts.map token) ++ "\n]"

end Lox.Json
