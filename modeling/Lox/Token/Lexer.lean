import Lox.Diagnostic

/-!
# Cutting a source into tokens

A source is cut from left to right into chunks: blanks and comments, which
leave no trace, and lexemes, which become tokens. `Chunk.first` decides what
stands at the front of a nonempty source, always taking as many characters as
its rule allows; `lex` cuts until the source ends or nothing matches.

## Implementation notes

A chunk keeps the characters that it consumed, so that line numbers come from
one place, the newlines of the text, and `Chunk.first_fits` can say that
nothing is lost. The classes of characters are ASCII: any other character can
stand only in a string or a comment.
-/

namespace Lox

/-! ## Character classes -/

/-- Characters between tokens that are skipped one by one. -/
def isBlank (c : Char) : Bool :=
  c == ' ' || c == '\t' || c == '\r' || c == '\n'

/-- Characters that an identifier can start with. -/
def isWordStart (c : Char) : Bool :=
  c.isAlpha || c == '_'

/-- Characters that can follow in an identifier. -/
def isWordPart (c : Char) : Bool :=
  c.isAlphanum || c == '_'

/-- The symbol that a character is, when no equals sign can extend it. -/
def Symbol.single? : Char → Option Symbol
  | '(' => some leftParen
  | ')' => some rightParen
  | '\x7b' => some leftBrace
  | '\x7d' => some rightBrace
  | ',' => some comma
  | '.' => some dot
  | '-' => some minus
  | '+' => some plus
  | ';' => some semicolon
  | '*' => some star
  | _ => none

/-- The symbols that a character is alone and before an equals sign. -/
def Symbol.extensible? : Char → Option (Symbol × Symbol)
  | '!' => some (bang, bangEqual)
  | '=' => some (equal, equalEqual)
  | '<' => some (less, lessEqual)
  | '>' => some (greater, greaterEqual)
  | _ => none

/-! ## Chunks -/

/-- What stands at the front of a source. -/
inductive Chunk where
  /-- Skipped characters and the source after them. -/
  | blank (text rest : List Char)
  /-- The characters of a token and the source after them. -/
  | lexeme (kind : TokenKind) (text rest : List Char)
  /-- No token starts here; `text` is what was looked through to find out. -/
  | fault (cause : LexicalCause) (text : List Char)

namespace Chunk

/-- The chunk that starts with a slash: a comment up to the end of its line, or
the division sign. -/
def slash : List Char → Chunk
  | '/' :: rest =>
      .blank ('/' :: '/' :: rest.takeWhile (· != '\n')) (rest.dropWhile (· != '\n'))
  | rest => .lexeme (.symbol .slash) ['/'] rest

/-- The chunk that starts with a quote: a string up to the next quote, which
may be lines away. -/
def quoted (rest : List Char) : Chunk :=
  let contents := rest.takeWhile (· != '"')
  match rest.dropWhile (· != '"') with
  | [] => .fault .unterminatedString ('"' :: rest)
  | close :: rest => .lexeme (.string (.ofList contents)) ('"' :: contents ++ [close]) rest

/-- The chunk that starts with a digit: digits, and a fraction if a digit
follows the point. -/
def number (first : Char) (rest : List Char) : Chunk :=
  let whole := first :: rest.takeWhile Char.isDigit
  match rest.dropWhile Char.isDigit with
  | '.' :: digit :: rest =>
      if digit.isDigit then
        let fraction := digit :: rest.takeWhile Char.isDigit
        .lexeme (.number (Number.ofLiteral whole fraction)) (whole ++ '.' :: fraction)
          (rest.dropWhile Char.isDigit)
      else .lexeme (.number (Number.ofLiteral whole [])) whole ('.' :: digit :: rest)
  | rest => .lexeme (.number (Number.ofLiteral whole [])) whole rest

/-- What a word is: a keyword if it is spelled like one. -/
def wordKind (text : List Char) : TokenKind :=
  match Keyword.ofText? (.ofList text) with
  | some k => .keyword k
  | none => .identifier

/-- The chunk that starts with a letter or an underscore. -/
def word (first : Char) (rest : List Char) : Chunk :=
  let text := first :: rest.takeWhile isWordPart
  .lexeme (wordKind text) text (rest.dropWhile isWordPart)

/-- The chunk that starts with any other character. -/
def mark (first : Char) (rest : List Char) : Chunk :=
  match Symbol.single? first, Symbol.extensible? first with
  | some s, _ => .lexeme (.symbol s) [first] rest
  | none, some (alone, extended) =>
      match rest with
      | '=' :: rest => .lexeme (.symbol extended) [first, '='] rest
      | rest => .lexeme (.symbol alone) [first] rest
  | none, none => .fault (.unexpectedCharacter first) []

/-- The chunk at the front of a nonempty source. -/
def first (c : Char) (rest : List Char) : Chunk :=
  if isBlank c then .blank [c] rest
  else if c == '/' then slash rest
  else if c == '"' then quoted rest
  else if c.isDigit then number c rest
  else if isWordStart c then word c rest
  else mark c rest

/-- The source after a chunk, if the chunk can be passed. -/
def rest? : Chunk → Option (List Char)
  | blank _ rest => some rest
  | lexeme _ _ rest => some rest
  | fault _ _ => none

end Chunk

/-! ## Lexing -/

/-- The tokens of a source, up to the fault that ended it early, if any. -/
structure Lexing where
  tokens : List Token
  fault? : Option LexicalError

namespace Lexing

/-- Put a token in front. -/
def cons (t : Token) (l : Lexing) : Lexing :=
  { l with tokens := t :: l.tokens }

/-- All tokens, or the fault. -/
def toExcept (l : Lexing) : Except LexicalError (List Token) :=
  match l.fault? with
  | none => .ok l.tokens
  | some e => .error e

end Lexing

/-- The number of line ends in a text. -/
def newlines (text : List Char) : Nat :=
  text.count '\n'

theorem Chunk.length_rest_lt {c : Char} {cs rest : List Char}
    (h : (Chunk.first c cs).rest? = some rest) : rest.length < (c :: cs).length := by
  have drop_le (p : Char → Bool) (l : List Char) : (l.dropWhile p).length ≤ l.length :=
    (List.dropWhile_sublist p).length_le
  simp only [Chunk.first] at h
  repeat' split at h
  · simp only [Chunk.rest?, Option.some.injEq] at h
    simp [← h]
  · unfold Chunk.slash at h
    split at h <;> simp only [Chunk.rest?, Option.some.injEq] at h
    · rename_i l
      have := drop_le (· != '\n') l
      simp only [← h, List.length_cons]
      omega
    · simp [← h]
  · unfold Chunk.quoted at h
    have := drop_le (· != '"') cs
    split at h <;> rename_i heq
    · simp [Chunk.rest?] at h
    · simp only [Chunk.rest?, Option.some.injEq] at h
      rw [heq] at this
      simp only [← h, List.length_cons] at this ⊢
      omega
  · unfold Chunk.number at h
    have := drop_le Char.isDigit cs
    split at h <;> rename_i heq
    · rename_i l
      have hl := drop_le Char.isDigit l
      rw [heq] at this
      simp only [List.length_cons] at this
      split at h <;> simp only [Chunk.rest?, Option.some.injEq] at h <;>
        simp only [← h, List.length_cons] <;> omega
    · simp only [Chunk.rest?, Option.some.injEq] at h
      simp only [← h, List.length_cons]
      omega
  · have := drop_le isWordPart cs
    simp only [Chunk.word, Chunk.rest?, Option.some.injEq] at h
    simp only [← h, List.length_cons]
    omega
  · unfold Chunk.mark at h
    split at h
    · simp only [Chunk.rest?, Option.some.injEq] at h
      simp [← h]
    · split at h <;> simp only [Chunk.rest?, Option.some.injEq] at h <;>
        simp only [← h, List.length_cons] <;> omega
    · simp [Chunk.rest?] at h

/-- Cut a source that starts on `line` into tokens. A token is on the line on
which it ends, and so is a fault. -/
def lexFrom (line : Nat) : (source : List Char) → Lexing
  | [] => ⟨[.endOfInput line], none⟩
  | c :: cs =>
      match _h : Chunk.first c cs with
      | .blank text rest => lexFrom (line + newlines text) rest
      | .lexeme kind text rest =>
          let line := line + newlines text
          (lexFrom line rest).cons ⟨kind, .ofList text, line⟩
      | .fault cause text => ⟨[], some ⟨cause, line + newlines text⟩⟩
termination_by source => source.length
decreasing_by
  all_goals exact Chunk.length_rest_lt (by rw [_h]; rfl)

/-- Cut a whole source into tokens. -/
def lex (source : String) : Lexing :=
  lexFrom 1 source.toList

end Lox
