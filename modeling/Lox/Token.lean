import Lox.Number.Text

/-!
# Tokens

A token is a piece of source text with what it means and the line it ends on.
Symbols and keywords are fixed words, each with a spelling in programs and a
name in listings; identifiers and literals are open classes.
-/

namespace Lox

/-- The punctuation marks and operators of the language. -/
inductive Symbol where
  | leftParen | rightParen | leftBrace | rightBrace
  | comma | dot | minus | plus | semicolon | slash | star
  | bang | bangEqual | equal | equalEqual
  | greater | greaterEqual | less | lessEqual
  deriving Repr, DecidableEq

namespace Symbol

/-- How a symbol is spelled in a program. -/
def text : Symbol → String
  | leftParen => "("
  | rightParen => ")"
  | leftBrace => "\x7b"
  | rightBrace => "\x7d"
  | comma => ","
  | dot => "."
  | minus => "-"
  | plus => "+"
  | semicolon => ";"
  | slash => "/"
  | star => "*"
  | bang => "!"
  | bangEqual => "!="
  | equal => "="
  | equalEqual => "=="
  | greater => ">"
  | greaterEqual => ">="
  | less => "<"
  | lessEqual => "<="

/-- How a symbol is called in a listing. -/
def name : Symbol → String
  | leftParen => "LEFT_PAREN"
  | rightParen => "RIGHT_PAREN"
  | leftBrace => "LEFT_BRACE"
  | rightBrace => "RIGHT_BRACE"
  | comma => "COMMA"
  | dot => "DOT"
  | minus => "MINUS"
  | plus => "PLUS"
  | semicolon => "SEMICOLON"
  | slash => "SLASH"
  | star => "STAR"
  | bang => "BANG"
  | bangEqual => "BANG_EQUAL"
  | equal => "EQUAL"
  | equalEqual => "EQUAL_EQUAL"
  | greater => "GREATER"
  | greaterEqual => "GREATER_EQUAL"
  | less => "LESS"
  | lessEqual => "LESS_EQUAL"

/-- Every symbol. -/
def all : List Symbol :=
  [leftParen, rightParen, leftBrace, rightBrace, comma, dot, minus, plus, semicolon,
    slash, star, bang, bangEqual, equal, equalEqual, greater, greaterEqual, less, lessEqual]

theorem mem_all (s : Symbol) : s ∈ all := by
  cases s <;> decide

end Symbol

/-- The reserved words of the language. -/
inductive Keyword where
  | and | cls | else | false | fun | for | if | nil
  | or | print | return | super | this | true | var | while
  deriving Repr, DecidableEq

namespace Keyword

/-- How a keyword is spelled in a program. -/
def text : Keyword → String
  | .and => "and"
  | .cls => "class"
  | .else => "else"
  | .false => "false"
  | .fun => "fun"
  | .for => "for"
  | .if => "if"
  | .nil => "nil"
  | .or => "or"
  | .print => "print"
  | .return => "return"
  | .super => "super"
  | .this => "this"
  | .true => "true"
  | .var => "var"
  | .while => "while"

/-- How a keyword is called in a listing. -/
def name : Keyword → String
  | .and => "AND"
  | .cls => "CLASS"
  | .else => "ELSE"
  | .false => "FALSE"
  | .fun => "FUN"
  | .for => "FOR"
  | .if => "IF"
  | .nil => "NIL"
  | .or => "OR"
  | .print => "PRINT"
  | .return => "RETURN"
  | .super => "SUPER"
  | .this => "THIS"
  | .true => "TRUE"
  | .var => "VAR"
  | .while => "WHILE"

/-- Every keyword. -/
def all : List Keyword :=
  [.and, .cls, .else, .false, .fun, .for, .if, .nil, .or, .print, .return, .super,
    .this, .true, .var, .while]

theorem mem_all (k : Keyword) : k ∈ all := by
  cases k <;> decide

/-- The keyword with a given spelling. -/
def ofText? (text : String) : Option Keyword :=
  all.find? (·.text == text)

end Keyword

/-- What a token is; the literals carry their values. -/
inductive TokenKind where
  | symbol (s : Symbol)
  | keyword (k : Keyword)
  | identifier
  | string (contents : String)
  | number (value : Float)
  | endOfInput
  deriving Repr

namespace TokenKind

/-- How a kind is called in a listing, its value left out. -/
def name : TokenKind → String
  | symbol s => s.name
  | keyword k => k.name
  | identifier => "IDENTIFIER"
  | string _ => "STRING"
  | number _ => "NUMBER"
  | endOfInput => "EOF"

/-- Whether a kind is a given symbol. -/
def isSymbol (s : Symbol) : TokenKind → Bool
  | symbol s' => s' == s
  | _ => false

/-- Whether a kind is a given keyword. -/
def isKeyword (k : Keyword) : TokenKind → Bool
  | keyword k' => k' == k
  | _ => false

/-- Whether a kind is an identifier. -/
def isIdentifier : TokenKind → Bool
  | identifier => true
  | _ => false

/-- The value of a literal as listings show it, `null` for all other kinds. -/
def literal : TokenKind → String
  | string contents => contents
  | number value => Number.literal value
  | _ => "null"

end TokenKind

/-- A piece of source text, what it means, and the line it ends on. -/
structure Token where
  kind : TokenKind
  lexeme : String
  line : Nat
  deriving Repr

namespace Token

/-- The token that closes a source ending on `line`. -/
def endOfInput (line : Nat) : Token :=
  ⟨.endOfInput, "", line⟩

/-- Whether the token closes its source. -/
def isEnd (t : Token) : Bool :=
  match t.kind with
  | .endOfInput => true
  | _ => false

/-- A token in a listing: its kind, its spelling and its value. -/
def text (t : Token) : String :=
  t.kind.name ++ " " ++ t.lexeme ++ " " ++ t.kind.literal

@[simp] theorem isEnd_endOfInput (line : Nat) : (endOfInput line).isEnd = true := rfl

end Token

end Lox
