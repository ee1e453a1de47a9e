import Lox.Proofs.Incremental.Copying

/-!
# Parsers of the grammar in front of other tokens

Every parser of the grammar is copied by the same parser with more fuel. Those of
expressions see the kind of the token behind them, but stop at a semicolon as at the
end; those of statements see only whether it is an `else`.
-/

namespace Lox

namespace Parser

/-! ## Expressions -/

/-- What the parsers of expressions copy with one amount of fuel and another. -/
structure CopiesExpressions (a b : Nat) : Prop where
  expression : Copies 0 (expression a) (expression b) .stop
  assignment : Copies 0 (assignment a) (assignment b) .stop
  operators (t : Tier) : Copies 0 (operators a t) (operators b t) .stop
  operatorsAfter (t : Tier) (left : Expr) :
    Copies 0 (operatorsAfter a t left) (operatorsAfter b t left) .stop
  operand (t : Tier) : Copies 0 (operand a t) (operand b t) .stop
  unary : Copies 0 (unary a) (unary b) .stop
  callsAfter (callee : Expr) : Copies 0 (callsAfter a callee) (callsAfter b callee) .stop
  arguments (count : Nat) : Copies 0 (arguments a count) (arguments b count) .stop
  primary : Copies 0 (primary a) (primary b) .stop

section

variable {a b : Nat}

theorem expression_copies (h : CopiesExpressions a b) :
    Copies 0 (expression (a + 1)) (expression (b + 1)) .stop := by
  rw [Parser.expression, Parser.expression]
  exact h.assignment.nested

theorem assignment_copies (h : CopiesExpressions a b) :
    Copies 0 (assignment (a + 1)) (assignment (b + 1)) .stop := by
  rw [Parser.assignment, Parser.assignment]
  refine .andThen (h.operators _) fun target => .tryStop rfl (.pure _) fun equals => ?_
  refine .andThen h.assignment fun value => ?_
  cases target with
  | «variable» target => exact .andThen (reference_copies _) fun r => .pure _
  | get object name => exact .pure _
  | _ =>
    refine Meets.bind (report_meets _) fun _ => Meets.pure _ ?_
    intro _ _ _ hfalse
    exact hfalse.elim

theorem operators_copies (h : CopiesExpressions a b) (t : Tier) :
    Copies 0 (operators (a + 1) t) (operators (b + 1) t) .stop := by
  rw [Parser.operators, Parser.operators]
  exact .andThen (h.operand t) fun left => h.operatorsAfter t left

theorem operatorsAfter_copies (h : CopiesExpressions a b) (t : Tier) (left : Expr) :
    Copies 0 (operatorsAfter (a + 1) t left) (operatorsAfter (b + 1) t left) .stop := by
  rw [Parser.operatorsAfter, Parser.operatorsAfter]
  have hstop : t.node? (.symbol .semicolon) = none := by
    cases t <;> rfl
  refine .attemptStop hstop (.pure _) fun ⟨node, operator⟩ => ?_
  exact .andThen (h.operand t) fun right => h.operatorsAfter t _

theorem operand_copies (h : CopiesExpressions a b) (t : Tier) :
    Copies 0 (operand (a + 1) t) (operand (b + 1) t) .stop := by
  rw [Parser.operand, Parser.operand]
  cases t.operand? with
  | none => exact h.unary
  | some inner => exact h.operators inner

theorem unary_copies (h : CopiesExpressions a b) :
    Copies 0 (unary (a + 1)) (unary (b + 1)) .stop := by
  rw [Parser.unary, Parser.unary]
  refine .attemptStop rfl ?_ fun ⟨op, operator⟩ => ?_
  · exact .andThen h.primary fun callee => h.callsAfter callee
  · exact .andThen h.unary fun operand => .pure _

theorem callsAfter_copies (h : CopiesExpressions a b) (callee : Expr) :
    Copies 0 (callsAfter (a + 1) callee) (callsAfter (b + 1) callee) .stop := by
  rw [Parser.callsAfter, Parser.callsAfter]
  refine .tryStop rfl (.tryStop rfl (.pure _) fun dot => ?_) fun opening => ?_
  · exact .andThen (expectName_copies _) fun name => h.callsAfter _
  · have hclosing (values : List Expr) :
        Copies 0 (expectSymbol .rightParen .afterArguments >>= fun closing =>
            callsAfter a (.call callee closing values))
          (expectSymbol .rightParen .afterArguments >>= fun closing =>
            callsAfter b (.call callee closing values)) .stop :=
      .andThen (expectSymbol_copies _ _) fun closing => h.callsAfter _
    have hcloses : Copies 0 (nextIs .rightParen) (nextIs .rightParen) .stop :=
      nextIs_copiesStop (by decide)
    refine .andThen hcloses fun closes => .ite (fun _ => hclosing []) fun _ => ?_
    exact .andThen (h.arguments 0) hclosing

theorem arguments_copies (h : CopiesExpressions a b) (count : Nat) :
    Copies 0 (arguments (a + 1) count) (arguments (b + 1) count) .stop := by
  rw [Parser.arguments, Parser.arguments]
  refine .reportIf _ (.andThen h.expression fun value => .tryStop rfl (.pure _) fun comma => ?_)
  exact .andThen (h.arguments _) fun others => .pure _

theorem primary_copies (h : CopiesExpressions a b) :
    Copies 0 (primary (a + 1)) (primary (b + 1)) .stop := by
  rw [Parser.primary, Parser.primary]
  have hreference (name : Token) (make : Reference → Expr) :
      Copies 0 (reference name >>= fun r => pure (make r))
        (reference name >>= fun r => pure (make r)) .stop :=
    .andThen (reference_copies name) fun r => .pure _
  refine .attemptStop rfl (.tryStop rfl (.tryStop rfl (.tryStop rfl (.tryStop rfl
    (refuse_copies _ 0 _ _) fun opening => ?_) fun name => ?_) fun this => ?_) fun super => ?_)
    fun ⟨value, t⟩ => .pure _
  · refine .andThen h.expression fun inner => ?_
    exact .andThen (expectSymbol_copies _ _) fun closing => .pure _
  · exact hreference name .variable
  · exact hreference this .receiver
  · refine .andThen (expectSymbol_copies _ _) fun dot => ?_
    exact .andThen (expectName_copies _) fun method =>
      hreference super fun r => .inherited r method

end

/-- More fuel does no harm. -/
theorem copiesExpressions {a b : Nat} (h : a ≤ b) : CopiesExpressions a b := by
  induction a generalizing b with
  | zero =>
    constructor <;> intros <;>
      simp only [Parser.expression, Parser.assignment, Parser.operators, Parser.operatorsAfter,
        Parser.operand, Parser.unary, Parser.callsAfter, Parser.arguments, Parser.primary] <;>
      exact refuse_copies _ 0 _ _
  | succ a ih =>
    obtain ⟨b, rfl⟩ := Nat.exists_eq_add_one.mpr (Nat.zero_lt_of_lt h)
    have hab : CopiesExpressions a b := ih (Nat.le_of_succ_le_succ h)
    exact ⟨expression_copies hab, assignment_copies hab, operators_copies hab,
      operatorsAfter_copies hab, operand_copies hab, unary_copies hab, callsAfter_copies hab,
      arguments_copies hab, primary_copies hab⟩

section

variable {a b : Nat}

/-! ## Simple statements -/

theorem optionalExpression_copies (h : a ≤ b) (stop : Symbol) :
    Copies 0 (optionalExpression a stop) (optionalExpression b stop) .kind := by
  rw [Parser.optionalExpression, Parser.optionalExpression]
  refine .andThen (nextIs_copies stop) fun stops => .ite (fun _ => .pure _) fun _ => ?_
  exact .andThen (copiesExpressions h).expression.sees fun e => .pure _

theorem expressionStatement_copies (h : a ≤ b) :
    Copies 1 (expressionStatement a) (expressionStatement b) .else := by
  rw [Parser.expressionStatement, Parser.expressionStatement]
  refine .andTake (copiesExpressions h).expression fun value => ?_
  exact .takeAnd (expectSymbol_copies _ _) fun semicolon => .pure _

theorem variableDeclaration_copies (h : a ≤ b) :
    Copies 1 (variableDeclaration a) (variableDeclaration b) .else := by
  rw [Parser.variableDeclaration, Parser.variableDeclaration]
  have hend (name : Token) (initializer : Option Expr) :
      Copies 1
        (expectSymbol .semicolon .afterVariableDeclaration >>= fun _ =>
          pure (Stmt.varDecl name initializer))
        (expectSymbol .semicolon .afterVariableDeclaration >>= fun _ =>
          pure (Stmt.varDecl name initializer)) .else :=
    .takeAnd (expectSymbol_copies _ _) fun semicolon => .pure _
  refine .takeAnd (expectName_copies _) fun name => .any (m := 1) (.tryTake ?_ fun equals => ?_)
  · exact .pureAnd (hend name none)
  · exact .any (.andTake (.map (copiesExpressions h).expression) fun e => hend name e)

theorem parameters_copies (h : a ≤ b) (count : Nat) :
    Copies 0 (parameters a count) (parameters b count) .kind := by
  induction a generalizing b count with
  | zero =>
    rw [Parser.parameters]
    exact refuse_copies _ 0 _ _
  | succ a ih =>
    obtain ⟨b, rfl⟩ := Nat.exists_eq_add_one.mpr (Nat.zero_lt_of_lt h)
    have hothers := ih (Nat.le_of_succ_le_succ h) (count + 1)
    rw [Parser.parameters, Parser.parameters]
    refine .reportIf _ (.andThen (expectName_copies _) fun name => .tryKind (.pure _) fun comma => ?_)
    exact .andThen hothers fun names => .pure _

/-! ## Statements and declarations -/

/-- What the parsers of statements copy with one amount of fuel and another. -/
structure CopiesStatements (a b : Nat) : Prop where
  declaration : Copies 1 (declaration a) (declaration b) .else
  declarations : Copies 0 (declarations a) (declarations b) .kind
  block : Copies 1 (block a) (block b) .else
  callable (kind : CallableKind) : Copies 1 (callable a kind) (callable b kind) .else
  methods : Copies 0 (methods a) (methods b) .kind
  classDeclaration : Copies 1 (classDeclaration a) (classDeclaration b) .else
  statement : Copies 1 (statement a) (statement b) .else
  ifStatement : Copies 1 (ifStatement a) (ifStatement b) .else
  forStatement : Copies 1 (forStatement a) (forStatement b) .else

theorem declaration_copies (hab : a ≤ b) (h : CopiesStatements a b) :
    Copies 1 (declaration (a + 1)) (declaration (b + 1)) .else := by
  rw [Parser.declaration, Parser.declaration]
  apply Copies.recovering
  refine .tryTake (.tryTake (.tryTake h.statement fun word => ?_) fun word => ?_) fun word => ?_
  · exact (variableDeclaration_copies hab).any
  · exact (h.callable .function).map.any
  · exact h.classDeclaration.any

theorem declarations_copies (h : CopiesStatements a b) :
    Copies 0 (declarations (a + 1)) (declarations (b + 1)) .kind := by
  rw [Parser.declarations, Parser.declarations]
  refine .andThen (nextIs_copies _) fun closes => .andThen atEnd_copies fun ends => ?_
  refine .ite (fun _ => .pure _) fun _ => .andThen h.declaration.sees fun first => ?_
  exact .andThen h.declarations fun others => .pure _

theorem block_copies (h : CopiesStatements a b) :
    Copies 1 (block (a + 1)) (block (b + 1)) .else := by
  rw [Parser.block, Parser.block]
  apply Copies.nested
  refine .andTake h.declarations fun body => ?_
  exact .takeAnd (expectSymbol_copies _ _) fun closing => .pure _

theorem callable_copies (hab : a ≤ b) (h : CopiesStatements a b) (kind : CallableKind) :
    Copies 1 (callable (a + 1) kind) (callable (b + 1) kind) .else := by
  rw [Parser.callable, Parser.callable]
  have hbody (name : Token) (names : List Token) : Copies 1
      (do
        let _ ← expectSymbol .rightParen .afterParameters
        let _ ← expectSymbol .leftBrace (.beforeCallableBody kind)
        let body ← block a
        return (⟨name, names, body⟩ : FunctionDecl))
      (do
        let _ ← expectSymbol .rightParen .afterParameters
        let _ ← expectSymbol .leftBrace (.beforeCallableBody kind)
        let body ← block b
        return (⟨name, names, body⟩ : FunctionDecl)) .else := by
    refine .takeAnd (expectSymbol_copies _ _) fun closing => .any (m := 1) ?_
    refine .takeAnd (expectSymbol_copies _ _) fun opening => .any (m := 1) ?_
    exact .takeAnd h.block fun body => .pure _
  refine .takeAnd (expectName_copies _) fun name => .any (m := 1) ?_
  refine .takeAnd (expectSymbol_copies _ _) fun opening => .any (m := 1) ?_
  refine .andTake (nextIs_copies _) fun closes => .ite (fun _ => hbody name []) fun _ => ?_
  exact .andTake (parameters_copies hab 0) fun names => hbody name names

theorem methods_copies (h : CopiesStatements a b) :
    Copies 0 (methods (a + 1)) (methods (b + 1)) .kind := by
  rw [Parser.methods, Parser.methods]
  have hfirst : Copies 0
      (do
        let first ← callable a .method
        let others ← methods a
        return first :: others)
      (do
        let first ← callable b .method
        let others ← methods b
        return first :: others) .kind := by
    refine .andThen (h.callable .method).sees fun first => ?_
    exact .andThen h.methods fun others => .pure _
  refine .andThen (nextIs_copies _) fun closes => .andThen atEnd_copies fun ends => ?_
  exact .ite (fun _ => .pure _) fun _ => .tryKind hfirst fun _ => hfirst

theorem classDeclaration_copies (h : CopiesStatements a b) :
    Copies 1 (classDeclaration (a + 1)) (classDeclaration (b + 1)) .else := by
  rw [Parser.classDeclaration, Parser.classDeclaration]
  have hbody (name : Token) (superclass : Option Reference) : Copies 1
      (do
        let _ ← expectSymbol .leftBrace .beforeClassBody
        let members ← methods a
        let _ ← expectSymbol .rightBrace .afterClassBody
        return Stmt.classDecl name superclass members)
      (do
        let _ ← expectSymbol .leftBrace .beforeClassBody
        let members ← methods b
        let _ ← expectSymbol .rightBrace .afterClassBody
        return Stmt.classDecl name superclass members) .else := by
    refine .takeAnd (expectSymbol_copies _ _) fun opening => .any (m := 1) ?_
    refine .andTake h.methods fun members => ?_
    exact .takeAnd (expectSymbol_copies _ _) fun closing => .pure _
  refine .takeAnd (expectName_copies _) fun name => .any (m := 1) (.tryTake ?_ fun less => ?_)
  · exact .pureAnd (hbody name none)
  · refine .any (.takeAnd (expectName_copies _) fun base => .any (m := 1) ?_)
    exact .andTake (.map (reference_copies (g := .else) base)) fun superclass =>
      hbody name superclass

theorem statement_copies (hab : a ≤ b) (h : CopiesStatements a b) :
    Copies 1 (statement (a + 1)) (statement (b + 1)) .else := by
  rw [Parser.statement, Parser.statement]
  have hexpression := (copiesExpressions hab).expression
  refine .tryTake (.tryTake (.tryTake (.tryTake (.tryTake (.tryTake
    (expressionStatement_copies hab) fun opening => ?_) fun word => ?_) fun word => ?_)
    fun word => ?_) fun word => ?_) fun word => ?_
  · exact h.block.map.any
  · refine .any (.takeAnd (expectSymbol_copies _ _) fun opening => .any (m := 1) ?_)
    refine .andTake hexpression fun condition => ?_
    refine .takeAnd (expectSymbol_copies _ _) fun closing => .any (m := 1) ?_
    exact .takeAnd h.statement fun body => .pure _
  · refine .any (.andTake (optionalExpression_copies hab _) fun value => ?_)
    exact .takeAnd (expectSymbol_copies _ _) fun semicolon => .pure _
  · refine .any (.andTake hexpression fun value => ?_)
    exact .takeAnd (expectSymbol_copies _ _) fun semicolon => .pure _
  · exact h.ifStatement.any
  · exact h.forStatement.any

theorem ifStatement_copies (hab : a ≤ b) (h : CopiesStatements a b) :
    Copies 1 (ifStatement (a + 1)) (ifStatement (b + 1)) .else := by
  rw [Parser.ifStatement, Parser.ifStatement]
  refine .takeAnd (expectSymbol_copies _ _) fun opening => .any (m := 1) ?_
  refine .andTake (copiesExpressions hab).expression fun condition => ?_
  refine .takeAnd (expectSymbol_copies _ _) fun closing => .any (m := 1) ?_
  refine .takeAnd h.statement fun yes => .try (n := 0) ?_ (fun word => ?_) (Nat.zero_le _) ?_
  · exact .pureAnd (.pure _)
  · exact .any (.takeAnd h.statement.map fun no => .pure _)
  · intro _ k k' hpasses hk
    refine .inr (Bool.eq_false_iff.mpr fun hk' => ?_)
    refine hpasses ?_ ((TokenKind.isKeyword_iff _).mp hk')
    rintro rfl
    rcases hk with hk | hk <;> cases hk

theorem forStatement_copies (hab : a ≤ b) (h : CopiesStatements a b) :
    Copies 1 (forStatement (a + 1)) (forStatement (b + 1)) .else := by
  rw [Parser.forStatement, Parser.forStatement]
  have hfrom (initializer : Option Stmt) : Copies 1
      (do
        let condition ← optionalExpression a .semicolon
        let _ ← expectSymbol .semicolon .afterLoopCondition
        let increment ← optionalExpression a .rightParen
        let _ ← expectSymbol .rightParen .afterForClauses
        let body ← statement a
        return forLoop initializer condition increment body)
      (do
        let condition ← optionalExpression b .semicolon
        let _ ← expectSymbol .semicolon .afterLoopCondition
        let increment ← optionalExpression b .rightParen
        let _ ← expectSymbol .rightParen .afterForClauses
        let body ← statement b
        return forLoop initializer condition increment body) .else := by
    refine .andTake (optionalExpression_copies hab _) fun condition => ?_
    refine .takeAnd (expectSymbol_copies _ _) fun semicolon => .any (m := 1) ?_
    refine .andTake (optionalExpression_copies hab _) fun increment => ?_
    refine .takeAnd (expectSymbol_copies _ _) fun closing => .any (m := 1) ?_
    exact .takeAnd h.statement fun body => .pure _
  refine .takeAnd (expectSymbol_copies _ _) fun opening => .any (m := 1) ?_
  refine .tryTake (.tryTake ?_ fun word => ?_) fun semicolon => .any (hfrom none)
  · exact .andTake (expressionStatement_copies hab).map fun initializer => hfrom initializer
  · exact .any (.andTake (variableDeclaration_copies hab).map fun initializer => hfrom initializer)

end

theorem copiesStatements {a b : Nat} (h : a ≤ b) : CopiesStatements a b := by
  induction a generalizing b with
  | zero =>
    constructor <;> intros <;>
      simp only [Parser.declaration, Parser.declarations, Parser.block, Parser.callable,
        Parser.methods, Parser.classDeclaration, Parser.statement, Parser.ifStatement,
        Parser.forStatement] <;>
      exact refuse_copies _ _ _ _
  | succ a ih =>
    obtain ⟨b, rfl⟩ := Nat.exists_eq_add_one.mpr (Nat.zero_lt_of_lt h)
    have hle : a ≤ b := Nat.le_of_succ_le_succ h
    have hab : CopiesStatements a b := ih hle
    exact ⟨declaration_copies hle hab, declarations_copies hab, block_copies hab,
      callable_copies hle hab, methods_copies hab, classDeclaration_copies hab,
      statement_copies hle hab, ifStatement_copies hle hab, forStatement_copies hle hab⟩

end Parser

end Lox
