import Lox.Proofs.Recursion.Serving

/-!
# The calls of the grammar

Every parser of the grammar serves the routines that call it, if there is fuel enough,
and the fuel that a run starts with is enough.
-/

namespace Lox

namespace Traced

variable {caller : Routine} {a b : Nat}

/-! ## Expressions -/

/-- Whom the parsers of expressions serve, with two amounts of fuel. -/
structure ServesExpressions (a b : Nat) : Prop where
  expression {caller : Routine} (h : .expression ∈ caller.callees) :
    Serves caller a 16 1 (expression a) (Parser.expression b)
  assignment {caller : Routine} (h : .assignment ∈ caller.callees) :
    Serves caller a 15 1 (assignment a) (Parser.assignment b)
  operators {caller : Routine} (t : Tier) (h : .operators t ∈ caller.callees) :
    Serves caller a (Parser.operandCost t + 1) 1 (operators a t) (Parser.operators b t)
  operatorsAfter (t : Tier) (left : Expr) :
    Serves (.operators t) a 1 0 (operatorsAfter a t left) (Parser.operatorsAfter b t left)
  operand (t : Tier) :
    Serves (.operators t) a (Parser.operandCost t) 1 (operand a t) (Parser.operand b t)
  unary {caller : Routine} (h : .unary ∈ caller.callees) :
    Serves caller a 2 1 (unary a) (Parser.unary b)
  callsAfter (callee : Expr) :
    Serves .call a 1 0 (callsAfter a callee) (Parser.callsAfter b callee)
  arguments (count : Nat) :
    Serves .finishCall a 17 1 (arguments a count) (Parser.arguments b count)
  primary {caller : Routine} (h : .primary ∈ caller.callees) :
    Serves caller a 1 1 (primary a) (Parser.primary b)

theorem expression_serves (h : ServesExpressions a b) (hcaller : .expression ∈ caller.callees) :
    Serves caller (a + 1) 16 1 (expression (a + 1)) (Parser.expression (b + 1)) := by
  rw [expression, Parser.expression]
  exact (Serves.enterNested hcaller rfl (h.assignment (by decide))).spend

theorem assignment_serves (h : ServesExpressions a b) (hcaller : .assignment ∈ caller.callees) :
    Serves caller (a + 1) 15 1 (assignment (a + 1)) (Parser.assignment (b + 1)) := by
  rw [assignment, Parser.assignment]
  refine .spend (.enter hcaller rfl (by decide) ?_)
  refine .takeAnd (h.operators _ (by decide)) (by decide) fun target => ?_
  refine .attempt (n := 0) (symbol_looks _) (fun equals => ?_) (pure_serves _) (Nat.zero_le _)
  refine .andThen ((h.assignment (by decide)).weaken (by decide) (Nat.zero_le _)) fun value => ?_
  cases target with
  | «variable» target => exact .andThen (reference_serves _) fun r => pure_serves _
  | get object name => exact pure_serves _
  | _ => exact .andThen (report_serves _) fun _ => pure_serves _

theorem operators_serves (h : ServesExpressions a b) (t : Tier)
    (hcaller : .operators t ∈ caller.callees) :
    Serves caller (a + 1) (Parser.operandCost t + 1) 1 (operators (a + 1) t)
      (Parser.operators (b + 1) t) := by
  rw [operators, Parser.operators]
  refine .spend (.enter hcaller rfl (by simp) ?_)
  refine .takeAnd (h.operand t) (Nat.le_refl _) fun left => ?_
  exact (h.operatorsAfter t left).weaken (by omega) (Nat.le_refl _)

theorem operatorsAfter_serves (h : ServesExpressions a b) (t : Tier) (left : Expr) :
    Serves (.operators t) (a + 1) 1 0 (operatorsAfter (a + 1) t left)
      (Parser.operatorsAfter (b + 1) t left) := by
  rw [operatorsAfter, Parser.operatorsAfter]
  refine .spend (.attempt (n := 0) (accept?_looks _) (fun r => ?_) (pure_serves _) (Nat.zero_le _))
  obtain ⟨node, operator⟩ := r
  refine .andThen ((h.operand t).weaken ?_ (Nat.zero_le _)) fun right => ?_
  · exact Nat.le_trans (Parser.operandCost_le t) (by decide)
  · exact (h.operatorsAfter t _).weaken (by decide) (Nat.le_refl _)

theorem operand_serves (h : ServesExpressions a b) (t : Tier) :
    Serves (.operators t) (a + 1) (Parser.operandCost t) 1 (operand (a + 1) t)
      (Parser.operand (b + 1) t) := by
  rw [operand, Parser.operand]
  cases ht : t.operand? with
  | none =>
    rw [Parser.operandCost_of_operand?_none ht]
    exact (h.unary (by simp [Routine.callees, ht])).spend
  | some inner =>
    rw [Parser.operandCost_of_operand? ht]
    exact (h.operators inner (by simp [Routine.callees, ht])).spend

theorem unary_serves (h : ServesExpressions a b) (hcaller : .unary ∈ caller.callees) :
    Serves caller (a + 1) 2 1 (unary (a + 1)) (Parser.unary (b + 1)) := by
  rw [unary, Parser.unary]
  refine .spend (.enter hcaller rfl (by decide) ?_)
  refine .attempt (n := 0) (accept?_looks _) (fun r => ?_) ?_ (Nat.le_refl 1)
  · exact .andThen ((h.unary (by decide)).weaken (by decide) (Nat.zero_le _)) fun operand =>
      pure_serves _
  · refine .enter (by decide) rfl (by decide) ?_
    exact .takeAnd (h.primary (by decide)) (by decide) fun callee =>
      (h.callsAfter callee).weaken (by decide) (Nat.le_refl _)

/-- The arguments of a call, whose parentheses are taken. -/
theorem finishCall_serves (h : ServesExpressions a b) (callee : Expr) :
    Serves .call a 20 0
      (during .finishCall do
        let values ← if ← nextIs .rightParen then pure [] else arguments a 0
        let closing ← expectSymbol .rightParen .afterArguments
        return Expr.call callee closing values)
      (do
        let values ← if ← Parser.nextIs .rightParen then pure [] else Parser.arguments b 0
        let closing ← Parser.expectSymbol .rightParen .afterArguments
        return Expr.call callee closing values) := by
  have hclosing (values : List Expr) : Serves .finishCall a 20 0
      (do return Expr.call callee (← expectSymbol .rightParen .afterArguments) values)
      (do return Expr.call callee (← Parser.expectSymbol .rightParen .afterArguments) values) :=
    .symbolAnd fun closing => pure_serves _
  refine .enter (by decide) rfl (by decide) (.andThen (nextIs_serves _) fun closes => ?_)
  refine .ite (fun _ => hclosing []) fun _ => ?_
  exact .andThen ((h.arguments 0).weaken (by decide) (Nat.zero_le _)) hclosing

theorem callsAfter_serves (h : ServesExpressions a b) (callee : Expr) :
    Serves .call (a + 1) 1 0 (callsAfter (a + 1) callee) (Parser.callsAfter (b + 1) callee) := by
  rw [callsAfter, Parser.callsAfter]
  refine .spend (.attempt (n := 0) (symbol_looks _) (fun opening => ?_) ?_ (Nat.zero_le _))
  · have hcall := (finishCall_serves h callee).andThen fun applied =>
      (h.callsAfter applied).weaken (show 1 ≤ 20 by decide) (Nat.le_refl 0)
    have hflat : (do
          let values ← if ← Parser.nextIs .rightParen then pure [] else Parser.arguments b 0
          let closing ← Parser.expectSymbol .rightParen .afterArguments
          return Expr.call callee closing values) >>= Parser.callsAfter b =
        (do
          let values ← if ← Parser.nextIs .rightParen then pure [] else Parser.arguments b 0
          let closing ← Parser.expectSymbol .rightParen .afterArguments
          Parser.callsAfter b (.call callee closing values)) := by
      simp only [bind_assoc]
      refine bind_congr fun closes => ?_
      cases closes <;> simp
    rw [hflat] at hcall
    exact hcall
  · refine .attempt (n := 0) (symbol_looks _) (fun dot => ?_) (pure_serves _) (Nat.zero_le _)
    exact .nameAnd fun name => (h.callsAfter (.get callee name)).weaken (by decide) (Nat.le_refl _)

theorem arguments_serves (h : ServesExpressions a b) (count : Nat) :
    Serves .finishCall (a + 1) 17 1 (arguments (a + 1) count) (Parser.arguments (b + 1) count) := by
  rw [arguments, Parser.arguments]
  refine .spend (.reportIf (.takeAnd (h.expression (by decide)) (Nat.le_refl _) fun value => ?_))
  refine .attempt (n := 0) (symbol_looks _) (fun comma => ?_) (pure_serves _) (Nat.zero_le _)
  exact .andThen ((h.arguments _).weaken (by decide) (Nat.zero_le _)) fun others => pure_serves _

theorem primary_serves (h : ServesExpressions a b) (hcaller : .primary ∈ caller.callees) :
    Serves caller (a + 1) 1 1 (primary (a + 1)) (Parser.primary (b + 1)) := by
  rw [primary, Parser.primary]
  refine .spend (.enter hcaller rfl (by decide) ?_)
  refine .attempt (n := 0) (accept?_looks _) (fun r => pure_serves _) ?_ (Nat.le_refl 1)
  refine .attempt (n := 0) (keyword_looks _) (fun super => ?_) ?_ (Nat.le_refl 1)
  · refine .symbolAnd fun dot => ?_
    refine .nameAnd fun method => ?_
    exact .andThen (reference_serves _) fun r => pure_serves _
  refine .attempt (n := 0) (keyword_looks _) (fun this => ?_) ?_ (Nat.le_refl 1)
  · exact .andThen (reference_serves _) fun r => pure_serves _
  refine .attempt (n := 0) (accept_looks _) (fun name => ?_) ?_ (Nat.le_refl 1)
  · exact .andThen (reference_serves _) fun r => pure_serves _
  refine .attempt (n := 0) (symbol_looks _) (fun opening => ?_) (refuse_serves _) (Nat.le_refl 1)
  refine .andThen ((h.expression (by decide)).weaken (by decide) (Nat.zero_le _)) fun inner => ?_
  exact .symbolAnd fun closing => pure_serves _

/-- Any amounts of fuel do. -/
theorem servesExpressions (h : a ≤ b) : ServesExpressions a b := by
  induction a generalizing b with
  | zero =>
    constructor
    case operand => exact fun t => .zero (Parser.operandCost_pos t)
    all_goals
      intros
      exact .zero (Nat.succ_pos _)
  | succ a ih =>
    obtain ⟨b, rfl⟩ := Nat.exists_eq_add_one.mpr (Nat.zero_lt_of_lt h)
    have hab : ServesExpressions a b := ih (Nat.le_of_succ_le_succ h)
    exact ⟨expression_serves hab, assignment_serves hab, operators_serves hab,
      operatorsAfter_serves hab, operand_serves hab, unary_serves hab, callsAfter_serves hab,
      arguments_serves hab, primary_serves hab⟩

/-! ## Simple statements -/

theorem optionalExpression_serves (h : a ≤ b) (hcaller : .expression ∈ caller.callees)
    (stop : Symbol) :
    Serves caller a 16 0 (optionalExpression a stop) (Parser.optionalExpression b stop) := by
  rw [optionalExpression, Parser.optionalExpression]
  refine .andThen (nextIs_serves stop) fun stops => .ite (fun _ => pure_serves _) fun _ => ?_
  exact .andThen (((servesExpressions h).expression hcaller).weaken (Nat.le_refl _) (Nat.zero_le _))
    fun e => pure_serves _

theorem expressionStatement_serves (h : a ≤ b) (hcaller : .expressionStatement ∈ caller.callees) :
    Serves caller a 16 1 (expressionStatement a) (Parser.expressionStatement b) := by
  rw [expressionStatement, Parser.expressionStatement]
  refine .enter hcaller rfl (by decide) ?_
  refine .takeAnd ((servesExpressions h).expression (by decide)) (Nat.le_refl _) fun value => ?_
  exact .symbolAnd fun semicolon => pure_serves _

theorem variableDeclaration_serves (h : a ≤ b) (hcaller : .variableDeclaration ∈ caller.callees) :
    Serves caller a 0 1 (variableDeclaration a) (Parser.variableDeclaration b) := by
  rw [variableDeclaration, Parser.variableDeclaration]
  have hend (name : Token) (initializer : Option Expr) : Serves .variableDeclaration a 20 0
      (expectSymbol .semicolon .afterVariableDeclaration >>= fun _ =>
        pure (Stmt.varDecl name initializer))
      (Parser.expectSymbol .semicolon .afterVariableDeclaration >>= fun _ =>
        pure (Stmt.varDecl name initializer)) :=
    .symbolAnd fun semicolon => pure_serves _
  refine .enter hcaller rfl (by decide) ?_
  refine .takeAnd (expectName_serves _) (Nat.le_refl _) fun name => ?_
  refine .attempt (n := 0) (symbol_looks _) (fun equals => ?_) ?_ (Nat.zero_le _)
  · have hvalue : Serves .variableDeclaration a (0 + 20 + 20) 0 (expression a)
        (Parser.expression b) :=
      ((servesExpressions h).expression (by decide)).weaken (by decide) (Nat.zero_le 1)
    exact .andThen hvalue.map fun e => (hend name e).weaken (by decide) (Nat.le_refl 0)
  · exact .andThen (pure_serves none) fun e => hend name e

theorem parameters_serves (h : a ≤ b) (count : Nat) :
    Serves caller a 1 1 (parameters a count) (Parser.parameters b count) := by
  induction a generalizing b count with
  | zero => exact .zero Nat.one_pos
  | succ a ih =>
    obtain ⟨b, rfl⟩ := Nat.exists_eq_add_one.mpr (Nat.zero_lt_of_lt h)
    have hothers := ih (Nat.le_of_succ_le_succ h) (count + 1)
    rw [parameters, Parser.parameters]
    refine .spend (.reportIf (.takeAnd (expectName_serves _) (Nat.le_refl _) fun name => ?_))
    refine .attempt (n := 0) (symbol_looks _) (fun comma => ?_) (pure_serves _) (Nat.zero_le _)
    exact .andThen (hothers.weaken (by decide) (Nat.zero_le _)) fun names => pure_serves _

/-! ## Statements and declarations -/

/-- Whom the parsers of statements serve, with two amounts of fuel. A declaration is
only looked for where there are more tokens. -/
structure ServesStatements (a b : Nat) : Prop where
  declaration {caller : Routine} (h : .declaration ∈ caller.callees) (c : Cursor) :
    c.atEnd = false → 20 * c.rest.length + 18 ≤ a →
      ServesAt caller 1 (declaration a) (Parser.declaration b) c
  declarations : Serves .block a 19 0 (declarations a) (Parser.declarations b)
  block {caller : Routine} (h : .block ∈ caller.callees) :
    Serves caller a 20 0 (block a) (Parser.block b)
  callable {caller : Routine} (h : .callable ∈ caller.callees) (kind : CallableKind) :
    Serves caller a 1 1 (callable a kind) (Parser.callable b kind)
  methods : Serves .classDeclaration a 2 0 (methods a) (Parser.methods b)
  classDeclaration {caller : Routine} (h : .classDeclaration ∈ caller.callees) :
    Serves caller a 1 1 (classDeclaration a) (Parser.classDeclaration b)
  statement {caller : Routine} (h : .statement ∈ caller.callees) :
    Serves caller a 17 1 (statement a) (Parser.statement b)
  ifStatement {caller : Routine} (h : .ifStatement ∈ caller.callees) :
    Serves caller a 1 1 (ifStatement a) (Parser.ifStatement b)
  forStatement {caller : Routine} (h : .forStatement ∈ caller.callees) :
    Serves caller a 1 1 (forStatement a) (Parser.forStatement b)

theorem declaration_serves (hab : a ≤ b) (h : ServesStatements a b)
    (hcaller : .declaration ∈ caller.callees) (c : Cursor) (hmore : c.atEnd = false)
    (hroom : 20 * c.rest.length + 18 ≤ a + 1) :
    ServesAt caller 1 (declaration (a + 1)) (Parser.declaration (b + 1)) c := by
  rw [declaration, Parser.declaration]
  have hstatement : 20 * c.rest.length + 17 ≤ a := by omega
  refine Serves.enterRecovering hcaller ?_ hmore hstatement
  refine .attempt (n := 0) (keyword_looks _) (fun word => ?_) ?_ (Nat.le_refl 1)
  · exact (h.classDeclaration (by decide)).weaken (by decide) (Nat.zero_le _)
  refine .attempt (n := 0) (keyword_looks _) (fun word => ?_) ?_ (Nat.le_refl 1)
  · exact ((h.callable (by decide) .function).weaken (by decide) (Nat.zero_le 1)).map
  refine .attempt (n := 0) (keyword_looks _) (fun word => ?_) ?_ (Nat.le_refl 1)
  · exact (variableDeclaration_serves hab (by decide)).weaken (Nat.zero_le _) (Nat.zero_le _)
  · exact h.statement (by decide)

/-- A declaration and others after it, where there are more tokens. -/
theorem declarationAnd_serves {others : Traced (List Stmt)} {others' : Parser (List Stmt)}
    (h : ServesStatements a b) (hcaller : .declaration ∈ caller.callees)
    (hothers : Serves caller a 19 0 others others') {c : Cursor} (hmore : c.atEnd = false)
    (hroom : 20 * c.rest.length + 18 ≤ a) :
    ServesAt caller 0 (do return (← declaration a).toList ++ (← others))
      (do return (← Parser.declaration b).toList ++ (← others')) c := by
  refine (h.declaration hcaller c hmore hroom).bind fun first d _ hlength => ⟨0, ?_, by omega⟩
  refine (hothers d (by omega)).bind fun rest d' _ hlength' => ⟨0, ?_, by omega⟩
  exact .pure _

theorem declarations_serves (h : ServesStatements a b) :
    Serves .block (a + 1) 19 0 (declarations (a + 1)) (Parser.declarations (b + 1)) := by
  rw [declarations, Parser.declarations]
  refine .spend (.andThen (nextIs_serves _) fun closes => ?_)
  intro c hroom
  refine (atEnd_serves c hroom).bind fun ends d hread _ => ⟨0, ?_, by omega⟩
  cases hread
  by_cases hstops : (closes || c.atEnd) = true
  · rw [if_pos hstops, if_pos hstops]
    exact pure_serves _ c hroom
  · have hmore : c.atEnd = false := by
      simp only [Bool.or_eq_true, not_or, Bool.not_eq_true] at hstops
      exact hstops.2
    rw [if_neg hstops, if_neg hstops]
    exact declarationAnd_serves h (by decide) h.declarations hmore hroom

theorem block_serves (h : ServesStatements a b) (hcaller : .block ∈ caller.callees) :
    Serves caller (a + 1) 20 0 (block (a + 1)) (Parser.block (b + 1)) := by
  rw [block, Parser.block]
  refine .spend (.enterNested hcaller rfl (.andThen h.declarations fun body => ?_))
  exact .symbolAnd fun closing => pure_serves _

theorem callable_serves (hab : a ≤ b) (h : ServesStatements a b)
    (hcaller : .callable ∈ caller.callees) (kind : CallableKind) :
    Serves caller (a + 1) 1 1 (callable (a + 1) kind) (Parser.callable (b + 1) kind) := by
  rw [callable, Parser.callable]
  have hbody (name : Token) (names : List Token) : Serves .callable a 20 0
      (do
        let _ ← expectSymbol .rightParen .afterParameters
        let _ ← expectSymbol .leftBrace (.beforeCallableBody kind)
        let body ← block a
        return (⟨name, names, body⟩ : FunctionDecl))
      (do
        let _ ← Parser.expectSymbol .rightParen .afterParameters
        let _ ← Parser.expectSymbol .leftBrace (.beforeCallableBody kind)
        let body ← Parser.block b
        return (⟨name, names, body⟩ : FunctionDecl)) := by
    refine .symbolAnd fun closing => ?_
    refine .symbolAnd fun opening => ?_
    exact .andThen (h.block (by decide)) fun body => pure_serves _
  refine .spend (.enter hcaller rfl (by decide) ?_)
  refine .takeAnd (expectName_serves _) (Nat.le_refl _) fun name => ?_
  refine .symbolAnd fun opening => ?_
  refine .andThen (nextIs_serves _) fun closes => .ite (fun _ => hbody name []) fun _ => ?_
  exact .andThen ((parameters_serves hab 0).weaken (by decide) (Nat.zero_le _)) fun names =>
    hbody name names

theorem methods_serves (h : ServesStatements a b) :
    Serves .classDeclaration (a + 1) 2 0 (methods (a + 1)) (Parser.methods (b + 1)) := by
  rw [methods, Parser.methods]
  have hfirst : Serves .classDeclaration a 1 0
      (do
        let first ← callable a .method
        let others ← methods a
        return first :: others)
      (do
        let first ← Parser.callable b .method
        let others ← Parser.methods b
        return first :: others) := by
    refine (Serves.takeAnd (h.callable (by decide) .method) (Nat.le_refl _)
      fun first => ?_).weaken (Nat.le_refl _) (Nat.zero_le 1)
    exact .andThen (h.methods.weaken (by decide) (Nat.le_refl _)) fun others => pure_serves _
  refine .spend (.andThen (nextIs_serves _) fun closes => .andThen atEnd_serves fun ends => ?_)
  refine .ite (fun _ => pure_serves _) fun _ => ?_
  exact .attempt (keyword_looks _) (fun _ => hfirst.weaken (by decide) (Nat.le_refl _)) hfirst
    (Nat.zero_le _)

theorem classDeclaration_serves (h : ServesStatements a b)
    (hcaller : .classDeclaration ∈ caller.callees) :
    Serves caller (a + 1) 1 1 (classDeclaration (a + 1)) (Parser.classDeclaration (b + 1)) := by
  rw [classDeclaration, Parser.classDeclaration]
  have hbody (name : Token) (superclass : Option Reference) : Serves .classDeclaration a 20 0
      (do
        let _ ← expectSymbol .leftBrace .beforeClassBody
        let members ← methods a
        let _ ← expectSymbol .rightBrace .afterClassBody
        return Stmt.classDecl name superclass members)
      (do
        let _ ← Parser.expectSymbol .leftBrace .beforeClassBody
        let members ← Parser.methods b
        let _ ← Parser.expectSymbol .rightBrace .afterClassBody
        return Stmt.classDecl name superclass members) := by
    refine .symbolAnd fun opening => ?_
    refine .andThen (h.methods.weaken (by decide) (Nat.le_refl _)) fun members => ?_
    exact .symbolAnd fun closing => pure_serves _
  refine .spend (.enter hcaller rfl (by decide) ?_)
  refine .takeAnd (expectName_serves _) (Nat.le_refl _) fun name => ?_
  refine .attempt (n := 0) (symbol_looks _) (fun less => ?_) ?_ (Nat.zero_le _)
  · refine .nameAnd fun base => ?_
    exact .andThen (reference_serves base).map fun superclass =>
      (hbody name superclass).weaken (by decide) (Nat.le_refl _)
  · exact .andThen (pure_serves none) fun superclass => hbody name superclass

theorem statement_serves (hab : a ≤ b) (h : ServesStatements a b)
    (hcaller : .statement ∈ caller.callees) :
    Serves caller (a + 1) 17 1 (statement (a + 1)) (Parser.statement (b + 1)) := by
  rw [statement, Parser.statement]
  have hexpressions := servesExpressions hab
  refine .spend (.enter hcaller rfl (by decide) ?_)
  refine .attempt (n := 0) (keyword_looks _) (fun word => ?_) ?_ (Nat.le_refl 1)
  · exact (h.forStatement (by decide)).weaken (by decide) (Nat.zero_le _)
  refine .attempt (n := 0) (keyword_looks _) (fun word => ?_) ?_ (Nat.le_refl 1)
  · exact (h.ifStatement (by decide)).weaken (by decide) (Nat.zero_le _)
  refine .attempt (n := 0) (keyword_looks _) (fun word => ?_) ?_ (Nat.le_refl 1)
  · refine .enter (by decide) rfl (by decide) ?_
    refine .andThen ((hexpressions.expression (by decide)).weaken (by decide) (Nat.zero_le _))
      fun value => ?_
    exact .symbolAnd fun semicolon => pure_serves _
  refine .attempt (n := 0) (keyword_looks _) (fun word => ?_) ?_ (Nat.le_refl 1)
  · refine .enter (by decide) rfl (by decide) ?_
    refine .andThen ((optionalExpression_serves hab (by decide) _).weaken (by decide)
      (Nat.le_refl _)) fun value => ?_
    exact .symbolAnd fun semicolon => pure_serves _
  refine .attempt (n := 0) (keyword_looks _) (fun word => ?_) ?_ (Nat.le_refl 1)
  · refine .enter (by decide) rfl (by decide) ?_
    refine .symbolAnd fun opening => ?_
    refine .andThen ((hexpressions.expression (by decide)).weaken (by decide) (Nat.zero_le _))
      fun condition => ?_
    refine .symbolAnd fun closing => ?_
    exact .andThen ((h.statement (by decide)).weaken (by decide) (Nat.zero_le _)) fun body =>
      pure_serves _
  refine .attempt (n := 0) (symbol_looks _) (fun opening => ?_) ?_ (Nat.le_refl 1)
  · exact ((h.block (by decide)).weaken (by decide) (Nat.le_refl 0)).map
  · exact expressionStatement_serves hab (by decide)

theorem ifStatement_serves (hab : a ≤ b) (h : ServesStatements a b)
    (hcaller : .ifStatement ∈ caller.callees) :
    Serves caller (a + 1) 1 1 (ifStatement (a + 1)) (Parser.ifStatement (b + 1)) := by
  rw [ifStatement, Parser.ifStatement]
  have hstatement : Serves .ifStatement a 17 1 (statement a) (Parser.statement b) :=
    h.statement (by decide)
  refine .spend (.enter hcaller rfl (by decide) ?_)
  refine .takeAnd (expectSymbol_serves _ _) (Nat.le_refl _) fun opening => ?_
  refine .andThen (((servesExpressions hab).expression (by decide)).weaken (by decide)
    (Nat.zero_le _)) fun condition => ?_
  refine .symbolAnd fun closing => ?_
  refine .andThen (hstatement.weaken (by decide) (Nat.zero_le _)) fun yes => ?_
  refine .attempt (n := 0) (keyword_looks _) (fun word => ?_) ?_ (Nat.zero_le _)
  · exact .andThen (hstatement.weaken (by decide) (Nat.zero_le _)).map fun no => pure_serves _
  · exact .andThen (pure_serves none) fun no => pure_serves _

theorem forStatement_serves (hab : a ≤ b) (h : ServesStatements a b)
    (hcaller : .forStatement ∈ caller.callees) :
    Serves caller (a + 1) 1 1 (forStatement (a + 1)) (Parser.forStatement (b + 1)) := by
  rw [forStatement, Parser.forStatement]
  have hclauses (initializer : Option Stmt) : Serves .forStatement a 20 0
      (do
        let condition ← optionalExpression a .semicolon
        let _ ← expectSymbol .semicolon .afterLoopCondition
        let increment ← optionalExpression a .rightParen
        let _ ← expectSymbol .rightParen .afterForClauses
        let body ← statement a
        return Parser.forLoop initializer condition increment body)
      (do
        let condition ← Parser.optionalExpression b .semicolon
        let _ ← Parser.expectSymbol .semicolon .afterLoopCondition
        let increment ← Parser.optionalExpression b .rightParen
        let _ ← Parser.expectSymbol .rightParen .afterForClauses
        let body ← Parser.statement b
        return Parser.forLoop initializer condition increment body) := by
    have hoptional (stop : Symbol) : Serves .forStatement a 20 0 (optionalExpression a stop)
        (Parser.optionalExpression b stop) :=
      (optionalExpression_serves hab (by decide) stop).weaken (by decide) (Nat.le_refl _)
    refine .andThen (hoptional _) fun condition => ?_
    refine .symbolAnd fun semicolon => ?_
    refine .andThen (hoptional _) fun increment => ?_
    refine .symbolAnd fun closing => ?_
    exact .andThen ((h.statement (by decide)).weaken (by decide) (Nat.zero_le _)) fun body =>
      pure_serves _
  refine .spend (.enter hcaller rfl (by decide) ?_)
  refine .takeAnd (expectSymbol_serves _ _) (Nat.le_refl _) fun opening => ?_
  refine .attempt (n := 0) (symbol_looks _) (fun semicolon => ?_) ?_ (Nat.zero_le _)
  · exact .andThen (pure_serves none) fun i => (hclauses i).weaken (by decide) (Nat.le_refl _)
  refine .attempt (n := 0) (keyword_looks _) (fun word => ?_) ?_ (Nat.zero_le _)
  · have hinitializer : Serves .forStatement a (0 + 20 + 20) 0 (variableDeclaration a)
        (Parser.variableDeclaration b) :=
      (variableDeclaration_serves hab (by decide)).weaken (Nat.zero_le _) (Nat.zero_le 1)
    exact .andThen hinitializer.map fun i => (hclauses i).weaken (by decide) (Nat.le_refl _)
  · have hinitializer : Serves .forStatement a (0 + 20) 0 (expressionStatement a)
        (Parser.expressionStatement b) :=
      (expressionStatement_serves hab (by decide)).weaken (by decide) (Nat.zero_le 1)
    exact .andThen hinitializer.map fun i => hclauses i

/-- Any amounts of fuel do. -/
theorem servesStatements (h : a ≤ b) : ServesStatements a b := by
  induction a generalizing b with
  | zero =>
    constructor
    case declaration => exact fun _ _ _ hroom => absurd hroom (by omega)
    all_goals
      intros
      exact .zero (Nat.succ_pos _)
  | succ a ih =>
    obtain ⟨b, rfl⟩ := Nat.exists_eq_add_one.mpr (Nat.zero_lt_of_lt h)
    have hle : a ≤ b := Nat.le_of_succ_le_succ h
    have hab : ServesStatements a b := ih hle
    exact ⟨declaration_serves hle hab, declarations_serves hab, block_serves hab,
      callable_serves hle hab, methods_serves hab, classDeclaration_serves hab,
      statement_serves hle hab, ifStatement_serves hle hab, forStatement_serves hle hab⟩

/-! ## Programs -/

theorem program_serves (h : a ≤ b) : Serves .program a 19 0 (program a) (Parser.program b) := by
  induction a generalizing b with
  | zero => exact .zero (Nat.succ_pos _)
  | succ a ih =>
    obtain ⟨b, rfl⟩ := Nat.exists_eq_add_one.mpr (Nat.zero_lt_of_lt h)
    have hle : a ≤ b := Nat.le_of_succ_le_succ h
    rw [program, Parser.program]
    refine .spend fun c hroom => ?_
    refine (atEnd_serves c hroom).bind fun ends d hread _ => ⟨0, ?_, by omega⟩
    cases hread
    by_cases hmore : c.atEnd = true
    · rw [if_pos hmore, if_pos hmore]
      exact pure_serves _ c hroom
    · rw [if_neg hmore, if_neg hmore]
      exact declarationAnd_serves (servesStatements hle) (by decide) (ih hle)
        (Bool.eq_false_iff.mpr hmore) hroom

theorem wholeExpression_serves (h : a ≤ b) :
    Serves .wholeExpression a 16 0 (wholeExpression a) (Parser.wholeExpression b) := by
  rw [wholeExpression, Parser.wholeExpression]
  refine .andThen (((servesExpressions h).expression (by decide)).weaken (Nat.le_refl _)
    (Nat.zero_le _)) fun value => ?_
  exact .andThen atEnd_serves fun ends => .ite (fun _ => pure_serves _) fun _ => refuse_serves _

end Traced

end Lox
