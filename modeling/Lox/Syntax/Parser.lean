import Lox.Diagnostic
import Lox.Syntax

/-!
# Reading tokens as syntax trees

A recursive-descent parser. Its grammar, with terminals in quotes:

    program     := declaration*
    declaration := "class" NAME ("<" NAME)? "{" ("fun"? callable)* "}"
                 | "fun" callable | variable | statement
    callable    := NAME "(" (NAME ("," NAME)*)? ")" block
    variable    := "var" NAME ("=" expression)? ";"
    statement   := "for" "(" (variable | expression? ";") expression? ";" expression? ")"
                     statement
                 | "if" "(" expression ")" statement ("else" statement)?
                 | "print" expression ";" | "return" expression? ";"
                 | "while" "(" expression ")" statement | block | expression ";"
    block       := "{" declaration* "}"
    expression  := (call ".")? NAME "=" expression | tiers of operators
    unary       := ("!" | "-") unary | call
    call        := primary ("(" (expression ("," expression)*)? ")" | "." NAME)*
    primary     := literal | "this" | NAME | "(" expression ")" | "super" "." NAME

The six tiers of binary operators, loosest first, are `Tier`. A declaration
that does not parse is reported and skipped up to the next place where a
statement may start, so that one pass reports every error it can tell apart.

## Implementation notes

A parser reads and writes a `Cursor`, also when it fails. The grammar recurses
on a fuel that every call lowers by one. Between two tokens fewer than
`callsPerToken` calls can nest, so the fuel that `fuelFor` computes from the
number of tokens is never used up; if it were, the answer would be the error
for too much nesting.
-/

namespace Lox

/-- The state of reading: the tokens that are left, the number of the next
reference, how many expressions and blocks are open, and the errors after which
reading went on. -/
structure Cursor where
  rest : List Token
  nextId : NodeId
  depth : Nat
  errors : List SyntaxError

namespace Cursor

/-- The next token; a list that stops short ends as if on line 0. -/
def peek (c : Cursor) : Token :=
  c.rest.headD (.endOfInput 0)

/-- Whether all tokens before the first end of input have been read. -/
def atEnd (c : Cursor) : Bool :=
  c.peek.isEnd

/-- Record an error that does not end the reading. -/
def report (c : Cursor) (error : SyntaxError) : Cursor :=
  { c with errors := c.errors ++ [error] }

end Cursor

/-- Whether a kind can only stand at the start of a declaration or statement. -/
def TokenKind.startsStatement : TokenKind → Bool
  | .keyword .cls => true
  | .keyword .fun => true
  | .keyword .var => true
  | .keyword .for => true
  | .keyword .if => true
  | .keyword .while => true
  | .keyword .print => true
  | .keyword .return => true
  | _ => false

/-- The tokens from the next statement boundary on: before the end, behind a
semicolon, or before a token that starts a statement. -/
def skipToBoundary (previous : Token) : List Token → List Token
  | [] => []
  | t :: ts =>
      if t.isEnd || previous.kind.isSymbol .semicolon || t.kind.startsStatement then t :: ts
      else skipToBoundary t ts

/-- The tokens with which reading resumes after an error: the offending token
is dropped, and everything up to the next boundary. -/
def resume : List Token → List Token
  | [] => []
  | t :: ts => if t.isEnd then t :: ts else skipToBoundary t ts

/-! ## Parsers -/

/-- A parser fails with the error that stopped it, and leaves a cursor in
either case. -/
abbrev Parser := EStateM SyntaxError Cursor

namespace Parser

/-- Stop with an error at the next token. -/
def refuse {α : Type} (cause : SyntaxCause) : Parser α :=
  fun c => .error ⟨cause, c.peek⟩ c

/-- Record an error and go on. -/
def report (error : SyntaxError) : Parser Unit :=
  fun c => .ok () (c.report error)

/-- Look at the next token. -/
def peek : Parser Token :=
  fun c => .ok c.peek c

/-- Whether all tokens have been read. -/
def atEnd : Parser Bool :=
  fun c => .ok c.atEnd c

/-- Whether the next token is a given symbol. -/
def nextIs (s : Symbol) : Parser Bool :=
  fun c => .ok (c.peek.kind.isSymbol s) c

/-- Read the next token if its kind is recognised. -/
def accept? {α : Type} (recognise : TokenKind → Option α) : Parser (Option (α × Token)) :=
  fun c => match c.rest with
    | [] => .ok none c
    | t :: ts =>
        if t.isEnd then .ok none c
        else match recognise t.kind with
          | none => .ok none c
          | some a => .ok (some (a, t)) { c with rest := ts }

/-- Read the next token if its kind passes a test. -/
def accept (test : TokenKind → Bool) : Parser (Option Token) := do
  let read ← accept? fun k => if test k then some () else none
  return read.map Prod.snd

/-- Read the next token if it is a given symbol. -/
def symbol (s : Symbol) : Parser (Option Token) :=
  accept (TokenKind.isSymbol s)

/-- Read the next token if it is a given keyword. -/
def keyword (k : Keyword) : Parser (Option Token) :=
  accept (TokenKind.isKeyword k)

/-- Read the next token, which has to pass a test. -/
def expect (test : TokenKind → Bool) (cause : SyntaxCause) : Parser Token := do
  match ← accept test with
  | some t => return t
  | none => refuse cause

/-- Read a symbol that the grammar requires at a place. -/
def expectSymbol (s : Symbol) (place : SymbolPlace) : Parser Token :=
  expect (TokenKind.isSymbol s) (.missingSymbol s place)

/-- Read a name that the grammar requires in a role. -/
def expectName (role : NameRole) : Parser Token :=
  expect TokenKind.isIdentifier (.missingName role)

/-- Number a reference to a name. -/
def reference (name : Token) : Parser Reference :=
  fun c => .ok ⟨c.nextId, name⟩ { c with nextId := c.nextId + 1 }

/-- The deepest nesting of expressions and blocks that is read. -/
def maxNesting : Nat := 255

/-- Read something one level deeper. -/
def nested {α : Type} (inner : Parser α) : Parser α :=
  fun c =>
    if maxNesting ≤ c.depth then .error ⟨.tooMuchNesting, c.peek⟩ c
    else match inner { c with depth := c.depth + 1 } with
      | .ok a c => .ok a { c with depth := c.depth - 1 }
      | .error e c => .error e { c with depth := c.depth - 1 }

/-- Read a declaration, or report why it is none and resume after it. -/
def recovering (declaration : Parser Stmt) : Parser (Option Stmt) :=
  fun c => match declaration c with
    | .ok s c => .ok (some s) c
    | .error e c => .ok none { c.report e with rest := resume c.rest }

end Parser

/-! ## Operators -/

/-- The tiers of binary operators, loosest first. Operators of one tier
associate to the left. -/
inductive Tier where
  | disjunction
  | conjunction
  | equality
  | comparison
  | term
  | factor
  deriving Repr, DecidableEq

namespace Tier

/-- The tier of the operands; those of the tightest tier are unary. -/
def operand? : Tier → Option Tier
  | disjunction => some conjunction
  | conjunction => some equality
  | equality => some comparison
  | comparison => some term
  | term => some factor
  | factor => none

/-- The node that an operator of the tier builds from its token and operands. -/
def node? : Tier → TokenKind → Option (Token → Expr → Expr → Expr)
  | disjunction, .keyword .or => some (.logical .or)
  | conjunction, .keyword .and => some (.logical .and)
  | equality, .symbol .equalEqual => some (.binary .equal)
  | equality, .symbol .bangEqual => some (.binary .notEqual)
  | comparison, .symbol .less => some (.binary .less)
  | comparison, .symbol .lessEqual => some (.binary .lessEqual)
  | comparison, .symbol .greater => some (.binary .greater)
  | comparison, .symbol .greaterEqual => some (.binary .greaterEqual)
  | term, .symbol .plus => some (.binary .add)
  | term, .symbol .minus => some (.binary .subtract)
  | factor, .symbol .star => some (.binary .multiply)
  | factor, .symbol .slash => some (.binary .divide)
  | _, _ => none

end Tier

/-- What an operator before its operand does. -/
def UnaryOp.ofKind? : TokenKind → Option UnaryOp
  | .symbol .bang => some .not
  | .symbol .minus => some .negate
  | _ => none

/-- The constant that a token is. -/
def Literal.ofKind? : TokenKind → Option Literal
  | .keyword .false => some (.bool false)
  | .keyword .true => some (.bool true)
  | .keyword .nil => some .nil
  | .number value => some (.number value)
  | .string contents => some (.string contents)
  | _ => none

/-! ## The grammar -/

namespace Parser

/-- The names of a parameter list, `count` of which have been read. -/
def parameters : (fuel : Nat) → (count : Nat) → Parser (List Token)
  | 0, _ => refuse .tooMuchNesting
  | fuel + 1, count => do
      if maxArity ≤ count then report ⟨.tooManyParameters, ← peek⟩
      let name ← expectName .parameter
      match ← symbol .comma with
      | some _ => return name :: (← parameters fuel (count + 1))
      | none => return [name]

/-- A `for` loop as blocks around a `while` loop: the increment follows the body
in a block of its own, and the initializer has a block that all rounds share. A
loop without a condition goes on for ever. -/
def forLoop (initializer : Option Stmt) (condition increment : Option Expr) (body : Stmt) :
    Stmt :=
  let round := match increment with
    | some e => .block [body, .expression e]
    | none => body
  let rounds := .loop (condition.getD (.literal (.bool true))) round
  match initializer with
  | some s => .block [s, rounds]
  | none => rounds

mutual

/-- An expression, one level deeper. -/
def expression : (fuel : Nat) → Parser Expr
  | 0 => refuse .tooMuchNesting
  | fuel + 1 => nested (assignment fuel)

/-- An assignment to a variable or a field, or operators. What cannot be
assigned to is reported, and stands for the whole. -/
def assignment : (fuel : Nat) → Parser Expr
  | 0 => refuse .tooMuchNesting
  | fuel + 1 => do
      let target ← operators fuel .disjunction
      match ← symbol .equal with
      | none => return target
      | some equals =>
          let value ← assignment fuel
          match target with
          | .variable target => return .assign (← reference target.name) value
          | .get object name => return .set object name value
          | other =>
              report ⟨.invalidAssignmentTarget, equals⟩
              return other

/-- Operands of the next tier joined by operators of this one. -/
def operators : (fuel : Nat) → (tier : Tier) → Parser Expr
  | 0, _ => refuse .tooMuchNesting
  | fuel + 1, tier => do
      let left ← operand fuel tier
      operatorsAfter fuel tier left

/-- The operators of a tier after a left operand. -/
def operatorsAfter : (fuel : Nat) → (tier : Tier) → (left : Expr) → Parser Expr
  | 0, _, _ => refuse .tooMuchNesting
  | fuel + 1, tier, left => do
      match ← accept? tier.node? with
      | none => return left
      | some (node, operator) =>
          let right ← operand fuel tier
          operatorsAfter fuel tier (node operator left right)

/-- An operand of a tier. -/
def operand : (fuel : Nat) → (tier : Tier) → Parser Expr
  | 0, _ => refuse .tooMuchNesting
  | fuel + 1, tier =>
      match tier.operand? with
      | some inner => operators fuel inner
      | none => unary fuel

/-- Operators before a call. -/
def unary : (fuel : Nat) → Parser Expr
  | 0 => refuse .tooMuchNesting
  | fuel + 1 => do
      match ← accept? UnaryOp.ofKind? with
      | some (op, operator) => return .unary op operator (← unary fuel)
      | none =>
          let callee ← primary fuel
          callsAfter fuel callee

/-- Argument lists and property names after an expression. -/
def callsAfter : (fuel : Nat) → (callee : Expr) → Parser Expr
  | 0, _ => refuse .tooMuchNesting
  | fuel + 1, callee => do
      match ← symbol .leftParen with
      | some _ =>
          let values ← if ← nextIs .rightParen then pure [] else arguments fuel 0
          let closing ← expectSymbol .rightParen .afterArguments
          callsAfter fuel (.call callee closing values)
      | none =>
          match ← symbol .dot with
          | some _ =>
              let name ← expectName .property
              callsAfter fuel (.get callee name)
          | none => return callee

/-- The expressions of an argument list, `count` of which have been read. -/
def arguments : (fuel : Nat) → (count : Nat) → Parser (List Expr)
  | 0, _ => refuse .tooMuchNesting
  | fuel + 1, count => do
      if maxArity ≤ count then report ⟨.tooManyArguments, ← peek⟩
      let value ← expression fuel
      match ← symbol .comma with
      | some _ => return value :: (← arguments fuel (count + 1))
      | none => return [value]

/-- An expression that no operator takes apart. -/
def primary : (fuel : Nat) → Parser Expr
  | 0 => refuse .tooMuchNesting
  | fuel + 1 => do
      if let some (value, _) ← accept? Literal.ofKind? then
        return .literal value
      else if let some super ← keyword .super then
        let _ ← expectSymbol .dot .afterSuper
        let method ← expectName .superclassMethod
        return .inherited (← reference super) method
      else if let some this ← keyword .this then
        return .receiver (← reference this)
      else if let some name ← accept TokenKind.isIdentifier then
        return .variable (← reference name)
      else if let some _ ← symbol .leftParen then
        let inner ← expression fuel
        let _ ← expectSymbol .rightParen .afterExpression
        return .grouping inner
      else refuse .missingExpression

end

/-- An expression, unless a given symbol is next. -/
def optionalExpression (fuel : Nat) (stop : Symbol) : Parser (Option Expr) := do
  if ← nextIs stop then return none
  else return some (← expression fuel)

/-- An expression followed by a semicolon. -/
def expressionStatement (fuel : Nat) : Parser Stmt := do
  let value ← expression fuel
  let _ ← expectSymbol .semicolon .afterExpression
  return .expression value

/-- The rest of a variable declaration. -/
def variableDeclaration (fuel : Nat) : Parser Stmt := do
  let name ← expectName .variable
  let initializer ← match ← symbol .equal with
    | some _ => some <$> expression fuel
    | none => pure none
  let _ ← expectSymbol .semicolon .afterVariableDeclaration
  return .varDecl name initializer

mutual

/-- A declaration or a statement; one that does not parse is skipped. -/
def declaration : (fuel : Nat) → Parser (Option Stmt)
  | 0 => refuse .tooMuchNesting
  | fuel + 1 => recovering do
      if let some _ ← keyword .cls then classDeclaration fuel
      else if let some _ ← keyword .fun then .funDecl <$> callable fuel .function
      else if let some _ ← keyword .var then variableDeclaration fuel
      else statement fuel

/-- Declarations up to a closing brace or the end of the tokens. -/
def declarations : (fuel : Nat) → Parser (List Stmt)
  | 0 => refuse .tooMuchNesting
  | fuel + 1 => do
      if (← nextIs .rightBrace) || (← atEnd) then return []
      else
        let first ← declaration fuel
        let others ← declarations fuel
        return first.toList ++ others

/-- The rest of a block, one level deeper. -/
def block : (fuel : Nat) → Parser (List Stmt)
  | 0 => refuse .tooMuchNesting
  | fuel + 1 => nested do
      let body ← declarations fuel
      let _ ← expectSymbol .rightBrace .afterBlock
      return body

/-- A named function or method. -/
def callable : (fuel : Nat) → (kind : CallableKind) → Parser FunctionDecl
  | 0, _ => refuse .tooMuchNesting
  | fuel + 1, kind => do
      let name ← expectName (.callable kind)
      let _ ← expectSymbol .leftParen (.afterCallableName kind)
      let names ← if ← nextIs .rightParen then pure [] else parameters fuel 0
      let _ ← expectSymbol .rightParen .afterParameters
      let _ ← expectSymbol .leftBrace (.beforeCallableBody kind)
      let body ← block fuel
      return ⟨name, names, body⟩

/-- The methods of a class body; the word `fun` may stand before each. -/
def methods : (fuel : Nat) → Parser (List FunctionDecl)
  | 0 => refuse .tooMuchNesting
  | fuel + 1 => do
      if (← nextIs .rightBrace) || (← atEnd) then return []
      else
        let _ ← keyword .fun
        let first ← callable fuel .method
        let others ← methods fuel
        return first :: others

/-- The rest of a class declaration. -/
def classDeclaration : (fuel : Nat) → Parser Stmt
  | 0 => refuse .tooMuchNesting
  | fuel + 1 => do
      let name ← expectName .cls
      let superclass ← match ← symbol .less with
        | some _ => do
            let name ← expectName .superclass
            some <$> reference name
        | none => pure none
      let _ ← expectSymbol .leftBrace .beforeClassBody
      let members ← methods fuel
      let _ ← expectSymbol .rightBrace .afterClassBody
      return .classDecl name superclass members

/-- A statement that declares nothing. -/
def statement : (fuel : Nat) → Parser Stmt
  | 0 => refuse .tooMuchNesting
  | fuel + 1 => do
      if let some _ ← keyword .for then forStatement fuel
      else if let some _ ← keyword .if then ifStatement fuel
      else if let some _ ← keyword .print then
        let value ← expression fuel
        let _ ← expectSymbol .semicolon .afterPrintedValue
        return .print value
      else if let some word ← keyword .return then
        let value ← optionalExpression fuel .semicolon
        let _ ← expectSymbol .semicolon .afterReturnedValue
        return .ret word value
      else if let some _ ← keyword .while then
        let _ ← expectSymbol .leftParen .afterWhile
        let condition ← expression fuel
        let _ ← expectSymbol .rightParen .afterWhileCondition
        let body ← statement fuel
        return .loop condition body
      else if let some _ ← symbol .leftBrace then .block <$> block fuel
      else expressionStatement fuel

/-- The rest of an `if` statement; an `else` belongs to the nearest one. -/
def ifStatement : (fuel : Nat) → Parser Stmt
  | 0 => refuse .tooMuchNesting
  | fuel + 1 => do
      let _ ← expectSymbol .leftParen .afterIf
      let condition ← expression fuel
      let _ ← expectSymbol .rightParen .afterIfCondition
      let yes ← statement fuel
      let no ← match ← keyword .else with
        | some _ => some <$> statement fuel
        | none => pure none
      return .branch condition yes no

/-- The rest of a `for` statement. -/
def forStatement : (fuel : Nat) → Parser Stmt
  | 0 => refuse .tooMuchNesting
  | fuel + 1 => do
      let _ ← expectSymbol .leftParen .afterFor
      let initializer ←
        if let some _ ← symbol .semicolon then pure none
        else if let some _ ← keyword .var then some <$> variableDeclaration fuel
        else some <$> expressionStatement fuel
      let condition ← optionalExpression fuel .semicolon
      let _ ← expectSymbol .semicolon .afterLoopCondition
      let increment ← optionalExpression fuel .rightParen
      let _ ← expectSymbol .rightParen .afterForClauses
      let body ← statement fuel
      return forLoop initializer condition increment body

end

/-- Declarations up to the end of the tokens. -/
def program : (fuel : Nat) → Parser (List Stmt)
  | 0 => refuse .tooMuchNesting
  | fuel + 1 => do
      if ← atEnd then return []
      else
        let first ← declaration fuel
        let others ← program fuel
        return first.toList ++ others

/-- An expression that is all there is. -/
def wholeExpression (fuel : Nat) : Parser Expr := do
  let value ← expression fuel
  if ← atEnd then return value else refuse .trailingInput

/-- A bound on the calls of the grammar that nest between two tokens. -/
def callsPerToken : Nat := 20

/-- Enough fuel for any list of so many tokens. -/
def fuelFor (tokens : List Token) : Nat :=
  callsPerToken * (tokens.length + 1)

/-- Run a parser over tokens, numbering references from `firstId`. It succeeds
only if nothing was reported. The number that the next reference would get is
returned in any case. -/
def run {α : Type} (parser : Parser α) (tokens : List Token) (firstId : NodeId) :
    Except Failure α × NodeId :=
  match parser ⟨tokens, firstId, 0, []⟩ with
  | .ok a c =>
      match Failure.ofList? (c.errors.map .syntactic) with
      | none => (.ok a, c.nextId)
      | some failure => (.error failure, c.nextId)
  | .error e c => (.error (.endingIn (.syntactic e) (c.errors.map .syntactic)), c.nextId)

end Parser

/-- Read a program, a list of statements. -/
def parseProgram (tokens : List Token) (firstId : NodeId) : Except Failure (List Stmt) × NodeId :=
  (Parser.program (Parser.fuelFor tokens)).run tokens firstId

/-- Read a single expression. -/
def parseExpression (tokens : List Token) (firstId : NodeId) : Except Failure Expr × NodeId :=
  (Parser.wholeExpression (Parser.fuelFor tokens)).run tokens firstId

end Lox
