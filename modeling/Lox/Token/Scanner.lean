import Lox.Token.Lexer

/-!
# Scanning the bytes of a source

A scanner cuts a source into tokens as `lex` does, but goes over its bytes and does not
decode them: it knows the byte at which the lexeme starts, the next byte and the line. Text
is only cut out of the source when a lexeme or the contents of a string are complete, or to
name a character that nothing starts with.

## Implementation notes

Whatever could go wrong on the way is a `Defect`: to take a byte behind the end, to cut text
out of bounds or inside a character, to fall back on another value, or to loop for ever.
Bytes are compared as the characters up to 255 that have their codes. Of numbers, only the
forms of literals can be read back.
-/

namespace Lox

/-- What a scanner could do wrong. -/
inductive Defect where
  /-- To take a byte where there are no more. -/
  | pastEnd
  /-- To take bytes from or up to a place that the source does not have. -/
  | outOfBounds
  /-- To cut text where no character ends. -/
  | insideCharacter
  /-- To find no character, and name another one instead. -/
  | noCharacter
  /-- To read a text that is no number, and take zero for it. -/
  | notNumber
  /-- To try again where nothing has been read. -/
  | stalled
  deriving Repr, DecidableEq

/-- The state of a scanner: the source, where the lexeme starts and the next byte is, the
line, the kind of the token that has been recognised, and whether all is read. -/
structure Scanner where
  source : String
  start : Nat
  curr : Nat
  line : Nat
  pending : Option TokenKind
  done : Bool

/-! ## Text and bytes -/

/-- Whether a byte can be the first of a character. -/
def startsCharacter (b : UInt8) : Bool :=
  b < 0x80 || 0xC0 ≤ b

/-- Whether text can be cut at a place among its bytes. -/
def isBoundary (text : String) (i : Nat) : Bool :=
  match text.toUTF8.data[i]? with
  | some b => startsCharacter b
  | none => i == text.toUTF8.size

/-- A part of a text, by the places among its bytes. -/
def slice (text : String) (first last : Nat) : Except Defect String :=
  if last < first || text.toUTF8.size < last then .error .outOfBounds
  else if !isBoundary text first || !isBoundary text last then .error .insideCharacter
  else match String.fromUTF8? (text.toUTF8.extract first last) with
    | some part => .ok part
    | none => .error .insideCharacter

/-- The bytes of a part of a text. -/
def sliceBytes (text : String) (first last : Nat) : Except Defect (List UInt8) :=
  if last < first || text.toUTF8.size < last then .error .outOfBounds
  else .ok (text.toUTF8.extract first last).data.toList

/-- Where a byte is first found. -/
def memchr (b : UInt8) (bytes : List UInt8) : Option Nat :=
  bytes.findIdx? (· == b)

/-- A number as a literal writes it: digits, and more of them behind a point. -/
def decimal? (text : String) : Option Float :=
  let whole := text.toList.takeWhile Char.isDigit
  match text.toList.dropWhile Char.isDigit with
  | [] => if whole.isEmpty then none else some (Number.ofLiteral whole [])
  | point :: fraction =>
      if point == '.' && fraction.all Char.isDigit && !(whole ++ fraction).isEmpty then
        some (Number.ofLiteral whole fraction)
      else none

/-- The keyword whose spelling has given bytes. -/
def Keyword.ofBytes? (bytes : List UInt8) : Option Keyword :=
  Keyword.all.find? (·.text.toUTF8.data.toList == bytes)

namespace Scanner

/-- A scanner before a source. -/
def of (source : String) : Scanner :=
  ⟨source, 0, 0, 1, none, false⟩

/-! ## Single bytes -/

variable (s : Scanner)

/-- The bytes of the source. -/
def bytes : Array UInt8 :=
  s.source.toUTF8.data

/-- Whether no byte is left. -/
def isAtEnd : Bool :=
  s.bytes.size ≤ s.curr

/-- How much is left to do: the bytes, and to find the end. -/
def left : Nat :=
  if s.done then 0 else s.bytes.size - s.curr + 1

/-- Take the next byte. -/
def advance : Except Defect (Char × Scanner) :=
  match s.bytes[s.curr]? with
  | some b => .ok (.ofUInt8 b, { s with curr := s.curr + 1 })
  | none => .error .pastEnd

/-- The next byte, or zero at the end. -/
def peek : Char :=
  .ofUInt8 (s.bytes[s.curr]?.getD 0)

/-- The byte after the next one, or zero at the end. -/
def peekNext : Char :=
  .ofUInt8 (s.bytes[s.curr + 1]?.getD 0)

/-- Take the next byte if it is the expected one. -/
def matchByte (expected : Char) : Except Defect (Bool × Scanner) :=
  if !s.isAtEnd && s.peek == expected then do
    let (_, s) ← s.advance
    return (true, s)
  else return (false, s)

theorem advance_ok {s s' : Scanner} {b : Char} (h : s.advance = .ok (b, s')) :
    s'.bytes.size - s'.curr < s.bytes.size - s.curr := by
  unfold advance at h
  split at h
  · rename_i hb
    cases h
    obtain ⟨hlt, -⟩ := Array.getElem?_eq_some_iff.mp hb
    change s.bytes.size - (s.curr + 1) < _
    omega
  · cases h

/-- Take bytes as long as they pass a test. -/
def advanceWhile (test : Char → Bool) (s : Scanner) : Except Defect Scanner :=
  if test s.peek then
    match _h : s.advance with
    | .ok (_, s') => s'.advanceWhile test
    | .error d => .error d
  else .ok s
termination_by s.bytes.size - s.curr
decreasing_by exact advance_ok _h

/-- Take bytes up to a quote or the end, and count the lines. -/
def advanceToQuote (s : Scanner) : Except Defect Scanner :=
  if !s.isAtEnd && s.peek != '"' then
    match _h : s.advance with
    | .ok (b, s') => { s' with line := s'.line + newlines [b] }.advanceToQuote
    | .error d => .error d
  else .ok s
termination_by s.bytes.size - s.curr
decreasing_by
  have hless := advance_ok _h
  exact hless

/-! ## Lexemes -/

/-- Remember the kind of the token that has been read. -/
def recognise (kind : TokenKind) : Scanner :=
  { s with pending := some kind }

/-- The rest of a symbol that an equals sign extends. -/
def extended (alone extended : Symbol) : Except Defect Scanner := do
  let (doubled, s) ← s.matchByte '='
  return s.recognise (.symbol (if doubled then extended else alone))

/-- The rest of what starts with a slash: a comment, up to the end of its line, or nothing. -/
def slash : Except Defect Scanner := do
  let (comment, s) ← s.matchByte '/'
  if comment then
    let behind ← sliceBytes s.source s.curr s.bytes.size
    match memchr 0x0A behind with
    | some i => return { s with curr := s.curr + i }
    | none => return { s with curr := s.bytes.size }
  else return s.recognise (.symbol .slash)

/-- The rest of a string. -/
def string : Except Defect (Except LexicalError Unit × Scanner) := do
  let s ← s.advanceToQuote
  if s.isAtEnd then return (.error ⟨.unterminatedString, s.line⟩, s)
  else
    let (_, s) ← s.advance
    let contents ← slice s.source (s.start + 1) (s.curr - 1)
    return (.ok (), s.recognise (.string contents))

/-- The rest of a number. -/
def number : Except Defect Scanner := do
  let s ← s.advanceWhile Char.isDigit
  let s ←
    if s.peek == '.' && s.peekNext.isDigit then do
      let (_, s) ← s.advance
      s.advanceWhile Char.isDigit
    else pure s
  let text ← slice s.source s.start s.curr
  match decimal? text with
  | some value => return s.recognise (.number value)
  | none => .error .notNumber

/-- The rest of a word. -/
def word : Except Defect Scanner := do
  let s ← s.advanceWhile isWordPart
  let text ← sliceBytes s.source s.start s.curr
  match Keyword.ofBytes? text with
  | some k => return s.recognise (.keyword k)
  | none => return s.recognise .identifier

/-- Refuse the character at which the lexeme starts. -/
def unexpected : Except Defect (Except LexicalError Unit × Scanner) := do
  let behind ← slice s.source s.start s.bytes.size
  match behind.toList with
  | c :: _ => return (.error ⟨.unexpectedCharacter c, s.line⟩, s)
  | [] => .error .noCharacter

/-- The rest of what starts with a byte that has been taken. A token is remembered, what is
skipped is not. -/
def scanFrom (b : Char) : Except Defect (Except LexicalError Unit × Scanner) := do
  match Symbol.single? b, Symbol.extensible? b with
  | some symbol, _ => return (.ok (), s.recognise (.symbol symbol))
  | none, some (alone, extended) => return (.ok (), ← s.extended alone extended)
  | none, none =>
      if b == ' ' || b == '\r' || b == '\t' then return (.ok (), s)
      else if b == '\n' then return (.ok (), { s with line := s.line + 1 })
      else if b == '/' then return (.ok (), ← s.slash)
      else if b == '"' then s.string
      else if b.isDigit then return (.ok (), ← s.number)
      else if isWordStart b then return (.ok (), ← s.word)
      else s.unexpected

/-- Scan what stands at the next byte. -/
def scanToken : Except Defect (Except LexicalError Unit × Scanner) := do
  let (b, s) ← s.advance
  s.scanFrom b

/-! ## Whole sources -/

/-- The scanner where a lexeme starts. -/
def begun : Scanner :=
  { s with start := s.curr, pending := none }

/-- The next token or the error that ends the scan, if there is more. -/
def next (s : Scanner) : Except Defect (Option (Except LexicalError Token) × Scanner) :=
  if s.done then .ok (none, s)
  else if s.isAtEnd then .ok (some (.ok (.endOfInput s.line)), { s with done := true })
  else
    match s.begun.scanToken with
    | .error d => .error d
    | .ok (.error e, s') => .ok (some (.error e), { s' with done := true })
    | .ok (.ok (), s') =>
        match s'.pending with
        | some kind => do
            let lexeme ← slice s'.source s'.start s'.curr
            return (some (.ok ⟨kind, lexeme, s'.line⟩), { s' with pending := none })
        | none => if s'.left < s.left then s'.next else .error .stalled
termination_by s.left

/-- All tokens, and the error that ends the scan, if any. -/
def items (s : Scanner) : Except Defect (List (Except LexicalError Token)) :=
  match s.next with
  | .error d => .error d
  | .ok (none, _) => .ok []
  | .ok (some item, s') => if s'.left < s.left then (item :: ·) <$> s'.items else .error .stalled
termination_by s.left

end Scanner

/-- Scan a whole source, up to the first error. -/
def scanTokens (source : String) : Except Defect (Except LexicalError (List Token)) :=
  (·.mapM id) <$> (Scanner.of source).items

end Lox
