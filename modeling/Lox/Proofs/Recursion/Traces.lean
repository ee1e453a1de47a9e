import Lox.Syntax.Parser

/-!
# The calls of a parser

The parsers of the grammar once more, each with a record of the calls that it
makes. A `Call` is of a `Routine` and has the cursors at which it starts and ends
and the calls made inside it, in their order. What a traced parser answers is
what the parser answers.

## Implementation notes

Lists of operators, suffixes, arguments, parameters, methods and declarations are
loops of the routine that they belong to, and make no calls of their own. Where
the fuel runs out, the record has a `cut`. A parser that is cut answers with an
error, so its answer alone does not show whether it has come to an end.
-/

namespace Lox

/-- The routines that read the rules of the grammar, and the two that read all
tokens. -/
inductive Routine where
  | program | wholeExpression
  | declaration | classDeclaration | callable | variableDeclaration
  | statement | forStatement | ifStatement | printStatement | returnStatement
  | whileStatement | expressionStatement | block
  | expression | assignment | operators (tier : Tier) | unary | call | finishCall | primary
  deriving Repr, DecidableEq

/-- A call of a routine, or the place where the fuel ran out. -/
inductive Call where
  | cut
  | of (routine : Routine) (start finish : Cursor) (inner : List Call)

/-- Where a parser leaves its cursor. -/
def Parser.finish {α : Type} (p : Parser α) (c : Cursor) : Cursor :=
  match p c with
  | .ok _ c' => c'
  | .error _ c' => c'

/-- A parser with the calls that it makes from each cursor. -/
@[ext]
structure Traced (α : Type) where
  parser : Parser α
  calls : Cursor → List Call

namespace Traced

variable {α β : Type}

/-- A parser that calls no routine. -/
def lift (p : Parser α) : Traced α :=
  ⟨p, fun _ => []⟩

/-- What stands where the fuel has run out. -/
def cut : Traced α :=
  ⟨Parser.refuse .tooMuchNesting, fun _ => [.cut]⟩

instance : Monad Traced where
  pure a := lift (pure a)
  map f p := ⟨f <$> p.parser, p.calls⟩
  bind p f :=
    { parser := p.parser >>= fun a => (f a).parser
      calls := fun c => p.calls c ++
        match p.parser c with
        | .ok a c' => (f a).calls c'
        | .error _ _ => [] }

/-- A parser as the body of a routine. -/
def during (r : Routine) (p : Traced α) : Traced α :=
  ⟨p.parser, fun c => [.of r c (p.parser.finish c) (p.calls c)]⟩

/-- A parser one level deeper; it is not run where there is too much nesting. -/
def nested (inner : Traced α) : Traced α :=
  { parser := Parser.nested inner.parser
    calls := fun c =>
      if Parser.maxNesting ≤ c.depth then [] else inner.calls { c with depth := c.depth + 1 } }

/-- A declaration that is skipped if it does not parse. -/
def recovering (declaration : Traced Stmt) : Traced (Option Stmt) :=
  ⟨Parser.recovering declaration.parser, declaration.calls⟩

/-- A token that the grammar requires at a place. -/
def expectSymbol (s : Symbol) (place : SymbolPlace) : Traced Token :=
  lift (Parser.expectSymbol s place)

/-- A name that the grammar requires in a role. -/
def expectName (role : NameRole) : Traced Token :=
  lift (Parser.expectName role)

/-- The next token, if it is a given symbol. -/
def symbol (s : Symbol) : Traced (Option Token) :=
  lift (Parser.symbol s)

/-- The next token, if it is a given keyword. -/
def keyword (k : Keyword) : Traced (Option Token) :=
  lift (Parser.keyword k)

/-- Whether the next token is a given symbol. -/
def nextIs (s : Symbol) : Traced Bool :=
  lift (Parser.nextIs s)

/-! ## The grammar -/

/-- The names of a parameter list. -/
def parameters : (fuel : Nat) → (count : Nat) → Traced (List Token)
  | 0, _ => cut
  | fuel + 1, count => do
      if maxArity ≤ count then lift (Parser.report ⟨.tooManyParameters, ← lift Parser.peek⟩)
      let name ← expectName .parameter
      match ← symbol .comma with
      | some _ => return name :: (← parameters fuel (count + 1))
      | none => return [name]

mutual

/-- An expression, one level deeper. -/
def expression : (fuel : Nat) → Traced Expr
  | 0 => cut
  | fuel + 1 => during .expression (nested (assignment fuel))

/-- An assignment, or operators. -/
def assignment : (fuel : Nat) → Traced Expr
  | 0 => cut
  | fuel + 1 => during .assignment do
      let target ← operators fuel .disjunction
      match ← symbol .equal with
      | none => return target
      | some equals =>
          let value ← assignment fuel
          match target with
          | .variable target => return .assign (← lift (Parser.reference target.name)) value
          | .get object name => return .set object name value
          | other =>
              lift (Parser.report ⟨.invalidAssignmentTarget, equals⟩)
              return other

/-- Operands of the next tier joined by operators of this one. -/
def operators : (fuel : Nat) → (tier : Tier) → Traced Expr
  | 0, _ => cut
  | fuel + 1, tier => during (.operators tier) do
      let left ← operand fuel tier
      operatorsAfter fuel tier left

/-- The operators of a tier after a left operand. -/
def operatorsAfter : (fuel : Nat) → (tier : Tier) → (left : Expr) → Traced Expr
  | 0, _, _ => cut
  | fuel + 1, tier, left => do
      match ← lift (Parser.accept? tier.node?) with
      | none => return left
      | some (node, operator) =>
          let right ← operand fuel tier
          operatorsAfter fuel tier (node operator left right)

/-- An operand of a tier. -/
def operand : (fuel : Nat) → (tier : Tier) → Traced Expr
  | 0, _ => cut
  | fuel + 1, tier =>
      match tier.operand? with
      | some inner => operators fuel inner
      | none => unary fuel

/-- Operators before a call. -/
def unary : (fuel : Nat) → Traced Expr
  | 0 => cut
  | fuel + 1 => during .unary do
      match ← lift (Parser.accept? UnaryOp.ofKind?) with
      | some (op, operator) => return .unary op operator (← unary fuel)
      | none => during .call do
          let callee ← primary fuel
          callsAfter fuel callee

/-- Argument lists and property names after an expression. -/
def callsAfter : (fuel : Nat) → (callee : Expr) → Traced Expr
  | 0, _ => cut
  | fuel + 1, callee => do
      match ← symbol .leftParen with
      | some _ =>
          let applied ← during .finishCall do
            let values ← if ← nextIs .rightParen then pure [] else arguments fuel 0
            let closing ← expectSymbol .rightParen .afterArguments
            return Expr.call callee closing values
          callsAfter fuel applied
      | none =>
          match ← symbol .dot with
          | some _ =>
              let name ← expectName .property
              callsAfter fuel (.get callee name)
          | none => return callee

/-- The expressions of an argument list. -/
def arguments : (fuel : Nat) → (count : Nat) → Traced (List Expr)
  | 0, _ => cut
  | fuel + 1, count => do
      if maxArity ≤ count then lift (Parser.report ⟨.tooManyArguments, ← lift Parser.peek⟩)
      let value ← expression fuel
      match ← symbol .comma with
      | some _ => return value :: (← arguments fuel (count + 1))
      | none => return [value]

/-- An expression that no operator takes apart. -/
def primary : (fuel : Nat) → Traced Expr
  | 0 => cut
  | fuel + 1 => during .primary do
      if let some (value, _) ← lift (Parser.accept? Literal.ofKind?) then
        return .literal value
      else if let some super ← keyword .super then
        let _ ← expectSymbol .dot .afterSuper
        let method ← expectName .superclassMethod
        return .inherited (← lift (Parser.reference super)) method
      else if let some this ← keyword .this then
        return .receiver (← lift (Parser.reference this))
      else if let some name ← lift (Parser.accept TokenKind.isIdentifier) then
        return .variable (← lift (Parser.reference name))
      else if let some _ ← symbol .leftParen then
        let inner ← expression fuel
        let _ ← expectSymbol .rightParen .afterExpression
        return .grouping inner
      else lift (Parser.refuse .missingExpression)

end

/-- An expression, unless a given symbol is next. -/
def optionalExpression (fuel : Nat) (stop : Symbol) : Traced (Option Expr) := do
  if ← nextIs stop then return none
  else return some (← expression fuel)

/-- An expression followed by a semicolon. -/
def expressionStatement (fuel : Nat) : Traced Stmt :=
  during .expressionStatement do
    let value ← expression fuel
    let _ ← expectSymbol .semicolon .afterExpression
    return .expression value

/-- The rest of a variable declaration. -/
def variableDeclaration (fuel : Nat) : Traced Stmt :=
  during .variableDeclaration do
    let name ← expectName .variable
    let initializer ← match ← symbol .equal with
      | some _ => some <$> expression fuel
      | none => pure none
    let _ ← expectSymbol .semicolon .afterVariableDeclaration
    return .varDecl name initializer

mutual

/-- A declaration or a statement; one that does not parse is skipped. -/
def declaration : (fuel : Nat) → Traced (Option Stmt)
  | 0 => cut
  | fuel + 1 => during .declaration (recovering do
      if let some _ ← keyword .cls then classDeclaration fuel
      else if let some _ ← keyword .fun then .funDecl <$> callable fuel .function
      else if let some _ ← keyword .var then variableDeclaration fuel
      else statement fuel)

/-- Declarations up to a closing brace or the end of the tokens. -/
def declarations : (fuel : Nat) → Traced (List Stmt)
  | 0 => cut
  | fuel + 1 => do
      if (← nextIs .rightBrace) || (← lift Parser.atEnd) then return []
      else
        let first ← declaration fuel
        let others ← declarations fuel
        return first.toList ++ others

/-- The rest of a block, one level deeper. -/
def block : (fuel : Nat) → Traced (List Stmt)
  | 0 => cut
  | fuel + 1 => during .block (nested do
      let body ← declarations fuel
      let _ ← expectSymbol .rightBrace .afterBlock
      return body)

/-- A named function or method. -/
def callable : (fuel : Nat) → (kind : CallableKind) → Traced FunctionDecl
  | 0, _ => cut
  | fuel + 1, kind => during .callable do
      let name ← expectName (.callable kind)
      let _ ← expectSymbol .leftParen (.afterCallableName kind)
      let names ← if ← nextIs .rightParen then pure [] else parameters fuel 0
      let _ ← expectSymbol .rightParen .afterParameters
      let _ ← expectSymbol .leftBrace (.beforeCallableBody kind)
      let body ← block fuel
      return ⟨name, names, body⟩

/-- The methods of a class body. -/
def methods : (fuel : Nat) → Traced (List FunctionDecl)
  | 0 => cut
  | fuel + 1 => do
      if (← nextIs .rightBrace) || (← lift Parser.atEnd) then return []
      else
        let _ ← keyword .fun
        let first ← callable fuel .method
        let others ← methods fuel
        return first :: others

/-- The rest of a class declaration. -/
def classDeclaration : (fuel : Nat) → Traced Stmt
  | 0 => cut
  | fuel + 1 => during .classDeclaration do
      let name ← expectName .cls
      let superclass ← match ← symbol .less with
        | some _ => do
            let name ← expectName .superclass
            some <$> lift (Parser.reference name)
        | none => pure none
      let _ ← expectSymbol .leftBrace .beforeClassBody
      let members ← methods fuel
      let _ ← expectSymbol .rightBrace .afterClassBody
      return .classDecl name superclass members

/-- A statement that declares nothing. -/
def statement : (fuel : Nat) → Traced Stmt
  | 0 => cut
  | fuel + 1 => during .statement do
      if let some _ ← keyword .for then forStatement fuel
      else if let some _ ← keyword .if then ifStatement fuel
      else if let some _ ← keyword .print then
        during .printStatement do
          let value ← expression fuel
          let _ ← expectSymbol .semicolon .afterPrintedValue
          return .print value
      else if let some word ← keyword .return then
        during .returnStatement do
          let value ← optionalExpression fuel .semicolon
          let _ ← expectSymbol .semicolon .afterReturnedValue
          return .ret word value
      else if let some _ ← keyword .while then
        during .whileStatement do
          let _ ← expectSymbol .leftParen .afterWhile
          let condition ← expression fuel
          let _ ← expectSymbol .rightParen .afterWhileCondition
          let body ← statement fuel
          return .loop condition body
      else if let some _ ← symbol .leftBrace then .block <$> block fuel
      else expressionStatement fuel

/-- The rest of an `if` statement. -/
def ifStatement : (fuel : Nat) → Traced Stmt
  | 0 => cut
  | fuel + 1 => during .ifStatement do
      let _ ← expectSymbol .leftParen .afterIf
      let condition ← expression fuel
      let _ ← expectSymbol .rightParen .afterIfCondition
      let yes ← statement fuel
      let no ← match ← keyword .else with
        | some _ => some <$> statement fuel
        | none => pure none
      return .branch condition yes no

/-- The rest of a `for` statement. -/
def forStatement : (fuel : Nat) → Traced Stmt
  | 0 => cut
  | fuel + 1 => during .forStatement do
      let _ ← expectSymbol .leftParen .afterFor
      let initializer ←
        if let some _ ← symbol .semicolon then pure none
        else if let some _ ← keyword .var then some <$> variableDeclaration fuel
        else some <$> expressionStatement fuel
      let condition ← optionalExpression fuel .semicolon
      let _ ← expectSymbol .semicolon .afterLoopCondition
      let increment ← optionalExpression fuel .rightParen
      let _ ← expectSymbol .rightParen .afterForClauses
      let body ← statement fuel
      return Parser.forLoop initializer condition increment body

end

/-- Declarations up to the end of the tokens. -/
def program : (fuel : Nat) → Traced (List Stmt)
  | 0 => cut
  | fuel + 1 => do
      if ← lift Parser.atEnd then return []
      else
        let first ← declaration fuel
        let others ← program fuel
        return first.toList ++ others

/-- An expression that is all there is. -/
def wholeExpression (fuel : Nat) : Traced Expr := do
  let value ← expression fuel
  if ← lift Parser.atEnd then return value else lift (Parser.refuse .trailingInput)

/-! ## Parsers without their calls -/

@[simp] theorem parser_lift (p : Parser α) : (lift p).parser = p := rfl

@[simp] theorem parser_pure (a : α) : (pure a : Traced α).parser = pure a := rfl

@[simp] theorem parser_map (f : α → β) (p : Traced α) : (f <$> p).parser = f <$> p.parser := rfl

@[simp] theorem parser_bind (p : Traced α) (f : α → Traced β) :
    (p >>= f).parser = p.parser >>= fun a => (f a).parser := rfl

@[simp] theorem parser_during (r : Routine) (p : Traced α) : (during r p).parser = p.parser := rfl

@[simp] theorem parser_nested (p : Traced α) : (nested p).parser = Parser.nested p.parser := rfl

@[simp] theorem parser_recovering (p : Traced Stmt) :
    (recovering p).parser = Parser.recovering p.parser := rfl

@[simp] theorem parser_ite {b : Prop} [Decidable b] (p q : Traced α) :
    (if b then p else q).parser = if b then p.parser else q.parser :=
  apply_ite parser b p q

@[simp] theorem parser_expectSymbol (s : Symbol) (place : SymbolPlace) :
    (expectSymbol s place).parser = Parser.expectSymbol s place := rfl

@[simp] theorem parser_expectName (role : NameRole) :
    (expectName role).parser = Parser.expectName role := rfl

@[simp] theorem parser_symbol (s : Symbol) : (symbol s).parser = Parser.symbol s := rfl

@[simp] theorem parser_keyword (k : Keyword) : (keyword k).parser = Parser.keyword k := rfl

@[simp] theorem parser_nextIs (s : Symbol) : (nextIs s).parser = Parser.nextIs s := rfl

/-- What is tried and gone on from in two ways. -/
theorem parser_attempt {p : Parser (Option α)} {f : Option α → Traced β} {g : Option α → Parser β}
    (hsome : ∀ a, (f (some a)).parser = g (some a)) (hnone : (f none).parser = g none) :
    (p >>= fun o => (f o).parser) = p >>= g :=
  bind_congr fun o => by
    cases o with
    | some a => exact hsome a
    | none => exact hnone

@[simp] theorem parser_parameters (fuel count : Nat) :
    (parameters fuel count).parser = Parser.parameters fuel count := by
  induction fuel generalizing count with
  | zero => rfl
  | succ fuel ih =>
    simp only [parameters, Parser.parameters, parser_bind, parser_ite, parser_lift,
      parser_expectName, parser_symbol]
    refine ite_congr rfl (fun _ => bind_congr fun next => bind_congr fun _ => ?_) fun _ => ?_ <;>
      exact bind_congr fun name => parser_attempt (fun comma => by simp [ih]) rfl

/-- What remains of the parsers of expressions without their calls. -/
structure ErasesExpressions (fuel : Nat) : Prop where
  expression : (expression fuel).parser = Parser.expression fuel
  assignment : (assignment fuel).parser = Parser.assignment fuel
  operators (t : Tier) : (operators fuel t).parser = Parser.operators fuel t
  operatorsAfter (t : Tier) (left : Expr) :
    (operatorsAfter fuel t left).parser = Parser.operatorsAfter fuel t left
  operand (t : Tier) : (operand fuel t).parser = Parser.operand fuel t
  unary : (unary fuel).parser = Parser.unary fuel
  callsAfter (callee : Expr) : (callsAfter fuel callee).parser = Parser.callsAfter fuel callee
  arguments (count : Nat) : (arguments fuel count).parser = Parser.arguments fuel count
  primary : (primary fuel).parser = Parser.primary fuel

theorem erasesExpressions (fuel : Nat) : ErasesExpressions fuel := by
  induction fuel with
  | zero => constructor <;> intros <;> rfl
  | succ fuel ih =>
    constructor
    case expression =>
      simp only [expression, Parser.expression, parser_during, parser_nested, ih.assignment]
    case assignment =>
      simp only [assignment, Parser.assignment, parser_during, parser_bind, parser_symbol,
        ih.operators]
      refine bind_congr fun target => parser_attempt (fun equals => ?_) rfl
      simp only [parser_bind, ih.assignment]
      refine bind_congr fun value => ?_
      cases target <;> rfl
    case operators =>
      intro t
      simp only [operators, Parser.operators, parser_during, parser_bind, ih.operand,
        ih.operatorsAfter]
    case operatorsAfter =>
      intro t left
      refine parser_attempt (fun operator => ?_) rfl
      simp only [parser_bind, ih.operand, ih.operatorsAfter]
    case operand =>
      intro t
      cases t with
      | factor => exact ih.unary
      | _ => exact ih.operators _
    case unary =>
      refine parser_attempt (fun operator => ?_) ?_
      · simp only [parser_bind, parser_pure, ih.unary]
      · simp only [parser_during, parser_bind, ih.primary, ih.callsAfter]
    case callsAfter =>
      intro callee
      refine parser_attempt (fun opening => ?_) (parser_attempt (fun dot => ?_) rfl)
      · simp only [parser_during, parser_bind, parser_nextIs, parser_ite, bind_assoc, ih.callsAfter]
        refine bind_congr fun closes => ?_
        cases closes <;> simp [ih.arguments]
      · simp only [parser_bind, parser_expectName, ih.callsAfter]
    case arguments =>
      intro count
      simp only [arguments, Parser.arguments, parser_bind, parser_ite, parser_lift, parser_symbol,
        ih.expression]
      refine ite_congr rfl (fun _ => bind_congr fun next => bind_congr fun _ => ?_) fun _ => ?_ <;>
        exact bind_congr fun value => parser_attempt (fun comma => by simp [ih.arguments]) rfl
    case primary =>
      refine parser_attempt (fun _ => rfl) (parser_attempt (fun _ => rfl) (parser_attempt
        (fun _ => rfl) (parser_attempt (fun _ => rfl) (parser_attempt (fun opening => ?_) rfl))))
      simp only [parser_bind, parser_expectSymbol, parser_pure, ih.expression]

@[simp] theorem parser_expression (fuel : Nat) :
    (expression fuel).parser = Parser.expression fuel :=
  (erasesExpressions fuel).expression

@[simp] theorem parser_optionalExpression (fuel : Nat) (stop : Symbol) :
    (optionalExpression fuel stop).parser = Parser.optionalExpression fuel stop := by
  simp [optionalExpression, Parser.optionalExpression]

@[simp] theorem parser_expressionStatement (fuel : Nat) :
    (expressionStatement fuel).parser = Parser.expressionStatement fuel := by
  simp [expressionStatement, Parser.expressionStatement]

@[simp] theorem parser_variableDeclaration (fuel : Nat) :
    (variableDeclaration fuel).parser = Parser.variableDeclaration fuel :=
  bind_congr fun name => parser_attempt (fun equals => by simp) (by simp)

/-- What remains of the parsers of statements without their calls. -/
structure ErasesStatements (fuel : Nat) : Prop where
  declaration : (declaration fuel).parser = Parser.declaration fuel
  declarations : (declarations fuel).parser = Parser.declarations fuel
  block : (block fuel).parser = Parser.block fuel
  callable (kind : CallableKind) : (callable fuel kind).parser = Parser.callable fuel kind
  methods : (methods fuel).parser = Parser.methods fuel
  classDeclaration : (classDeclaration fuel).parser = Parser.classDeclaration fuel
  statement : (statement fuel).parser = Parser.statement fuel
  ifStatement : (ifStatement fuel).parser = Parser.ifStatement fuel
  forStatement : (forStatement fuel).parser = Parser.forStatement fuel

theorem erasesStatements (fuel : Nat) : ErasesStatements fuel := by
  induction fuel with
  | zero => constructor <;> intros <;> rfl
  | succ fuel ih =>
    constructor
    case declaration =>
      refine congrArg Parser.recovering (parser_attempt (fun _ => ih.classDeclaration)
        (parser_attempt (fun _ => ?_) (parser_attempt (fun _ => parser_variableDeclaration fuel)
          ih.statement)))
      rw [parser_map, ih.callable]
    case declarations =>
      simp [declarations, Parser.declarations, ih.declaration, ih.declarations]
    case block => simp [block, Parser.block, ih.declarations]
    case callable =>
      intro kind
      simp [callable, Parser.callable, ih.block]
    case methods => simp [methods, Parser.methods, ih.callable, ih.methods]
    case classDeclaration =>
      exact bind_congr fun name => parser_attempt (fun less => by simp [ih.methods])
        (by simp [ih.methods])
    case statement =>
      refine parser_attempt (fun _ => ih.forStatement) (parser_attempt (fun _ => ih.ifStatement)
        (parser_attempt (fun _ => ?_) (parser_attempt (fun _ => ?_) (parser_attempt (fun _ => ?_)
          (parser_attempt (fun _ => ?_) (parser_expressionStatement fuel))))))
      · simp
      · simp
      · simp [ih.statement]
      · rw [parser_map, ih.block]
    case ifStatement =>
      simp only [ifStatement, Parser.ifStatement, parser_during, parser_bind, parser_expectSymbol,
        parser_expression, parser_keyword, ih.statement]
      exact bind_congr fun _ => bind_congr fun _ => bind_congr fun _ => bind_congr fun _ =>
        parser_attempt (fun word => by simp [ih.statement]) rfl
    case forStatement =>
      refine bind_congr fun _ => parser_attempt (fun semicolon => ?_)
        (parser_attempt (fun word => ?_) ?_) <;> simp [ih.statement]

@[simp] theorem parser_program (fuel : Nat) : (program fuel).parser = Parser.program fuel := by
  induction fuel with
  | zero => rfl
  | succ fuel ih => simp [program, Parser.program, (erasesStatements fuel).declaration, ih]

@[simp] theorem parser_wholeExpression (fuel : Nat) :
    (wholeExpression fuel).parser = Parser.wholeExpression fuel := by
  simp [wholeExpression, Parser.wholeExpression]

end Traced

end Lox
