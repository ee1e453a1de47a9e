import Lox.Proofs.Syntax.Numbering
import Lox.Syntax.Parser

/-!
# The grammar

The grammar of programs as derivations, each of a list of tokens and the tree
that the list stands for. A repetition of the grammar such as

    factor := unary (("/" | "*") unary)*

is read from the left, as `factor := unary | factor ("/" | "*") unary`, so that
operators of one tier associate to the left and suffixes of a call chain in the
order in which they stand.

## Implementation notes

A derivation has `room` for so many expressions and blocks inside one another,
and each use of one of these two rules takes one. The only choice that the
grammar leaves open is which `if` an `else` belongs to. A statement is `isOpen`
if it ends in an `if` without `else`; under `nearest`, no such statement may
stand before an `else`. References in these trees have the number zero.
-/

namespace Lox

/-- The rules of the grammar. -/
inductive Rule where
  | primary | call | unary | operand (t : Tier) | tier (t : Tier) | assignment | expression
  | optionalExpression | moreArguments | arguments
  | varDecl | exprStmt | forInitializer | statement (isOpen : Bool)
  | moreParameters | parameters | callable | methods | classDecl
  | block | declaration | declarations

/-- The trees that a rule derives. -/
@[reducible] def Rule.Tree : Rule → Type
  | primary | call | unary | operand _ | tier _ | assignment | expression => Expr
  | optionalExpression => Option Expr
  | moreArguments | arguments => List Expr
  | varDecl | exprStmt | statement _ | classDecl | declaration => Stmt
  | forInitializer => Option Stmt
  | moreParameters | parameters => List Token
  | callable => FunctionDecl
  | methods => List FunctionDecl
  | block | declarations => List Stmt

/-! ## Operators and constants -/

/-- The tier of the operands of a tier; those of the tightest one are unary. -/
inductive Tier.Above : Tier → Tier → Prop
  | disjunction : Above .disjunction .conjunction
  | conjunction : Above .conjunction .equality
  | equality : Above .equality .comparison
  | comparison : Above .comparison .term
  | term : Above .term .factor

/-- The operators of a tier, with the nodes that they build. -/
inductive Tier.Operator : Tier → TokenKind → (Token → Expr → Expr → Expr) → Prop
  | or : Operator .disjunction (.keyword .or) (.logical .or)
  | and : Operator .conjunction (.keyword .and) (.logical .and)
  | bangEqual : Operator .equality (.symbol .bangEqual) (.binary .notEqual)
  | equalEqual : Operator .equality (.symbol .equalEqual) (.binary .equal)
  | greater : Operator .comparison (.symbol .greater) (.binary .greater)
  | greaterEqual : Operator .comparison (.symbol .greaterEqual) (.binary .greaterEqual)
  | less : Operator .comparison (.symbol .less) (.binary .less)
  | lessEqual : Operator .comparison (.symbol .lessEqual) (.binary .lessEqual)
  | minus : Operator .term (.symbol .minus) (.binary .subtract)
  | plus : Operator .term (.symbol .plus) (.binary .add)
  | slash : Operator .factor (.symbol .slash) (.binary .divide)
  | star : Operator .factor (.symbol .star) (.binary .multiply)

/-- The operators before an operand. -/
inductive UnaryOp.Operator : TokenKind → UnaryOp → Prop
  | bang : Operator (.symbol .bang) .not
  | minus : Operator (.symbol .minus) .negate

/-- The tokens that are constants by themselves. -/
inductive Literal.Constant : TokenKind → Literal → Prop
  | number (x : Float) : Constant (.number x) (.number x)
  | string (s : String) : Constant (.string s) (.string s)
  | true : Constant (.keyword .true) (.bool true)
  | false : Constant (.keyword .false) (.bool false)
  | nil : Constant (.keyword .nil) .nil

/-! ## Derivations -/

/-- The reference to a name in a tree without numbers. -/
def Reference.to (name : Token) : Reference :=
  ⟨0, name⟩

/-- `for (initializer condition; increment) body` as the blocks and the `while`
loop that it is short for. A missing condition is true. -/
def Stmt.forLoop (initializer : Option Stmt) (condition increment : Option Expr) (body : Stmt) :
    Stmt :=
  let body := match increment with
    | none => body
    | some e => .block [body, .expression e]
  let loop := .loop (condition.getD (.literal (.bool true))) body
  match initializer with
  | none => loop
  | some s => .block [s, loop]

variable (nearest : Prop)

/-- The token lists that a rule derives, with their trees. -/
inductive Derives : (r : Rule) → (room : Nat) → List Token → r.Tree → Prop
  -- primary := NUMBER | STRING | "true" | "false" | "nil" | "this" | IDENT
  --          | "(" expression ")" | "super" "." IDENT
  | constant {room t v} : Literal.Constant t.kind v → Derives .primary room [t] (.literal v)
  | this {room t} : t.kind = .keyword .this → Derives .primary room [t] (.receiver (.to t))
  | name {room t} : t.kind = .identifier → Derives .primary room [t] (.variable (.to t))
  | grouping {room l w r e} : l.kind = .symbol .leftParen → Derives .expression room w e →
      r.kind = .symbol .rightParen → Derives .primary room (l :: w ++ [r]) (.grouping e)
  | super {room s d m} : s.kind = .keyword .super → d.kind = .symbol .dot →
      m.kind = .identifier → Derives .primary room [s, d, m] (.inherited (.to s) m)
  -- call := primary ("(" arguments ")" | "." IDENT)*
  | callee {room w e} : Derives .primary room w e → Derives .call room w e
  | application {room w l w' r e args} : Derives .call room w e → l.kind = .symbol .leftParen →
      Derives .arguments room w' args → r.kind = .symbol .rightParen →
      Derives .call room (w ++ l :: w' ++ [r]) (.call e r args)
  | property {room w d n e} : Derives .call room w e → d.kind = .symbol .dot →
      n.kind = .identifier → Derives .call room (w ++ [d, n]) (.get e n)
  -- arguments := (expression ("," expression)*)?, at most 8
  | noArguments {room} : Derives .arguments room [] []
  | someArguments {room w args} : Derives .moreArguments room w args → args.length ≤ maxArity →
      Derives .arguments room w args
  | lastArgument {room w e} : Derives .expression room w e → Derives .moreArguments room w [e]
  | nextArgument {room w c w' e args} : Derives .expression room w e → c.kind = .symbol .comma →
      Derives .moreArguments room w' args →
      Derives .moreArguments room (w ++ c :: w') (e :: args)
  -- unary := ("!" | "-") unary | call
  | operation {room t op w e} : UnaryOp.Operator t.kind op → Derives .unary room w e →
      Derives .unary room (t :: w) (.unary op t e)
  | noOperation {room w e} : Derives .call room w e → Derives .unary room w e
  -- each tier := operand (operator operand)*
  | operandOfTier {room t t' w e} : t.Above t' → Derives (.tier t') room w e →
      Derives (.operand t) room w e
  | operandOfFactor {room w e} : Derives .unary room w e → Derives (.operand .factor) room w e
  | operand {room t w e} : Derives (.operand t) room w e → Derives (.tier t) room w e
  | operator {room t w o w' l r node} : Derives (.tier t) room w l → t.Operator o.kind node →
      Derives (.operand t) room w' r → Derives (.tier t) room (w ++ o :: w') (node o l r)
  -- expression := (call ".")? IDENT "=" expression | tiers
  | assign {room n q w e} : n.kind = .identifier → q.kind = .symbol .equal →
      Derives .assignment room w e → Derives .assignment room (n :: q :: w) (.assign (.to n) e)
  | setProperty {room w d n q w' o e} : Derives .call room w o → d.kind = .symbol .dot →
      n.kind = .identifier → q.kind = .symbol .equal → Derives .assignment room w' e →
      Derives .assignment room (w ++ d :: n :: q :: w') (.set o n e)
  | noAssignment {room w e} : Derives (.tier .disjunction) room w e →
      Derives .assignment room w e
  | expression {room w e} : Derives .assignment room w e → Derives .expression (room + 1) w e
  | noExpression {room} : Derives .optionalExpression room [] none
  | someExpression {room w e} : Derives .expression room w e →
      Derives .optionalExpression room w (some e)
  -- "var" IDENT ("=" expression)? ";" and expression ";", also in front of a loop
  | variable {room v n s} : v.kind = .keyword .var → n.kind = .identifier →
      s.kind = .symbol .semicolon → Derives .varDecl room [v, n, s] (.varDecl n none)
  | initialized {room v n q w s e} : v.kind = .keyword .var → n.kind = .identifier →
      q.kind = .symbol .equal → Derives .expression room w e → s.kind = .symbol .semicolon →
      Derives .varDecl room (v :: n :: q :: w ++ [s]) (.varDecl n (some e))
  | exprStmt {room w s e} : Derives .expression room w e → s.kind = .symbol .semicolon →
      Derives .exprStmt room (w ++ [s]) (.expression e)
  | noInitializer {room s} : s.kind = .symbol .semicolon →
      Derives .forInitializer room [s] none
  | varInitializer {room w s} : Derives .varDecl room w s →
      Derives .forInitializer room w (some s)
  | exprInitializer {room w s} : Derives .exprStmt room w s →
      Derives .forInitializer room w (some s)
  -- statements
  | evaluate {room w s} : Derives .exprStmt room w s → Derives (.statement false) room w s
  | print {room p w s e} : p.kind = .keyword .print → Derives .expression room w e →
      s.kind = .symbol .semicolon → Derives (.statement false) room (p :: w ++ [s]) (.print e)
  | return {room k w s e} : k.kind = .keyword .return → Derives .optionalExpression room w e →
      s.kind = .symbol .semicolon → Derives (.statement false) room (k :: w ++ [s]) (.ret k e)
  | blockStmt {room w ss} : Derives .block room w ss → Derives (.statement false) room w (.block ss)
  | while {room k l w r w' e isOpen s} : k.kind = .keyword .while → l.kind = .symbol .leftParen →
      Derives .expression room w e → r.kind = .symbol .rightParen →
      Derives (.statement isOpen) room w' s →
      Derives (.statement isOpen) room (k :: l :: w ++ r :: w') (.loop e s)
  | for {room k l w w₁ m w₂ r w' i c e isOpen s} : k.kind = .keyword .for →
      l.kind = .symbol .leftParen → Derives .forInitializer room w i →
      Derives .optionalExpression room w₁ c → m.kind = .symbol .semicolon →
      Derives .optionalExpression room w₂ e → r.kind = .symbol .rightParen →
      Derives (.statement isOpen) room w' s →
      Derives (.statement isOpen) room (k :: l :: w ++ w₁ ++ m :: w₂ ++ r :: w')
        (.forLoop i c e s)
  | ifThen {room k l w r w' e isOpen s} : k.kind = .keyword .if → l.kind = .symbol .leftParen →
      Derives .expression room w e → r.kind = .symbol .rightParen →
      Derives (.statement isOpen) room w' s →
      Derives (.statement true) room (k :: l :: w ++ r :: w') (.branch e s none)
  | ifThenElse {room k l w r w₁ x w₂ e yes isOpen s s'} : k.kind = .keyword .if →
      l.kind = .symbol .leftParen → Derives .expression room w e →
      r.kind = .symbol .rightParen → Derives (.statement yes) room w₁ s →
      (nearest → yes = false) → x.kind = .keyword .else →
      Derives (.statement isOpen) room w₂ s' →
      Derives (.statement isOpen) room (k :: l :: w ++ r :: w₁ ++ x :: w₂)
        (.branch e s (some s'))
  -- callable := IDENT "(" parameters ")" block, with at most 8 parameters
  | noParameters {room} : Derives .parameters room [] []
  | someParameters {room w ps} : Derives .moreParameters room w ps → ps.length ≤ maxArity →
      Derives .parameters room w ps
  | lastParameter {room n} : n.kind = .identifier → Derives .moreParameters room [n] [n]
  | nextParameter {room n c w ps} : n.kind = .identifier → c.kind = .symbol .comma →
      Derives .moreParameters room w ps → Derives .moreParameters room (n :: c :: w) (n :: ps)
  | callable {room n l w r w' ps body} : n.kind = .identifier → l.kind = .symbol .leftParen →
      Derives .parameters room w ps → r.kind = .symbol .rightParen →
      Derives .block room w' body → Derives .callable room (n :: l :: w ++ r :: w') ⟨n, ps, body⟩
  -- classDecl := "class" IDENT ("<" IDENT)? "{" ("fun"? callable)* "}"
  | noMethods {room} : Derives .methods room [] []
  | method {room w w' d ds} : Derives .callable room w d → Derives .methods room w' ds →
      Derives .methods room (w ++ w') (d :: ds)
  | funMethod {room f w w' d ds} : f.kind = .keyword .fun → Derives .callable room w d →
      Derives .methods room w' ds → Derives .methods room (f :: w ++ w') (d :: ds)
  | baseClass {room c n l w r ds} : c.kind = .keyword .cls → n.kind = .identifier →
      l.kind = .symbol .leftBrace → Derives .methods room w ds → r.kind = .symbol .rightBrace →
      Derives .classDecl room (c :: n :: l :: w ++ [r]) (.classDecl n none ds)
  | subclass {room c n q p l w r ds} : c.kind = .keyword .cls → n.kind = .identifier →
      q.kind = .symbol .less → p.kind = .identifier → l.kind = .symbol .leftBrace →
      Derives .methods room w ds → r.kind = .symbol .rightBrace →
      Derives .classDecl room (c :: n :: q :: p :: l :: w ++ [r]) (.classDecl n (some (.to p)) ds)
  -- blocks and declarations
  | block {room l w r ss} : l.kind = .symbol .leftBrace → Derives .declarations room w ss →
      r.kind = .symbol .rightBrace → Derives .block (room + 1) (l :: w ++ [r]) ss
  | declareClass {room w s} : Derives .classDecl room w s → Derives .declaration room w s
  | declareFunction {room f w d} : f.kind = .keyword .fun → Derives .callable room w d →
      Derives .declaration room (f :: w) (.funDecl d)
  | declareVariable {room w s} : Derives .varDecl room w s → Derives .declaration room w s
  | statement {room isOpen w s} : Derives (.statement isOpen) room w s →
      Derives .declaration room w s
  | noDeclaration {room} : Derives .declarations room [] []
  | declarations {room w w' s ss} : Derives .declaration room w s →
      Derives .declarations room w' ss → Derives .declarations room (w ++ w') (s :: ss)

/-! ## The end of input -/

theorem Token.isEnd_eq_false {t : Token} (h : t.kind ≠ .endOfInput) : t.isEnd = false := by
  unfold Token.isEnd
  split
  · contradiction
  · rfl

theorem Tier.Operator.ne_endOfInput {t : Tier} {k : TokenKind}
    {node : Token → Expr → Expr → Expr} (h : t.Operator k node) : k ≠ .endOfInput := by
  cases h <;> exact nofun

theorem UnaryOp.Operator.ne_endOfInput {k : TokenKind} {op : UnaryOp}
    (h : UnaryOp.Operator k op) : k ≠ .endOfInput := by
  cases h <;> exact nofun

theorem Literal.Constant.ne_endOfInput {k : TokenKind} {v : Literal}
    (h : Literal.Constant k v) : k ≠ .endOfInput := by
  cases h <;> exact nofun

/-- No derivation uses the end of input. -/
theorem Derives.isEnd_eq_false {nearest : Prop} {r : Rule} {room : Nat} {w : List Token}
    {tree : r.Tree} (h : Derives nearest r room w tree) : ∀ t ∈ w, t.isEnd = false := by
  induction h with
  | constant hc => simp [Token.isEnd_eq_false hc.ne_endOfInput]
  | operation hop _ ih => simpa [Token.isEnd_eq_false hop.ne_endOfInput] using ih
  | operator _ hop _ ih ih' =>
      rw [List.forall_mem_append, List.forall_mem_cons]
      exact ⟨ih, Token.isEnd_eq_false hop.ne_endOfInput, ih'⟩
  | _ => simp_all [Token.isEnd, or_imp]

end Lox
