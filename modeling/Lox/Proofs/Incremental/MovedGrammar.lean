import Lox.Proofs.Incremental.MovedReading

/-!
# Parsers of the grammar on other lines

Every parser of the grammar does with tokens on other lines what it does with them
where they are, if there is fuel enough. The fuel that a run starts with is enough.
-/

namespace Lox

namespace Parser

variable {μ : Move} {a b : Nat}

/-! ## Expressions -/

/-- What the parsers of expressions do with moved tokens, with two amounts of fuel. -/
structure MovesExpressions (μ : Move) (a b : Nat) : Prop where
  expression : Moves μ a 16 1 (expression a) (expression b) (Expr.move μ)
  assignment : Moves μ a 15 1 (assignment a) (assignment b) (Expr.move μ)
  operators (t : Tier) :
    Moves μ a (operandCost t + 1) 1 (operators a t) (operators b t) (Expr.move μ)
  operatorsAfter (t : Tier) (left : Expr) :
    Moves μ a 1 0 (operatorsAfter a t left) (operatorsAfter b t (left.move μ)) (Expr.move μ)
  operand (t : Tier) : Moves μ a (operandCost t) 1 (operand a t) (operand b t) (Expr.move μ)
  unary : Moves μ a 2 1 (unary a) (unary b) (Expr.move μ)
  callsAfter (callee : Expr) :
    Moves μ a 1 0 (callsAfter a callee) (callsAfter b (callee.move μ)) (Expr.move μ)
  arguments (count : Nat) :
    Moves μ a 17 1 (arguments a count) (arguments b count) (List.map (Expr.move μ))
  primary : Moves μ a 1 1 (primary a) (primary b) (Expr.move μ)

theorem expression_moves (h : MovesExpressions μ a b) :
    Moves μ (a + 1) 16 1 (expression (a + 1)) (expression (b + 1)) (Expr.move μ) := by
  rw [Parser.expression, Parser.expression]
  exact h.assignment.nested.call

theorem assignment_moves (h : MovesExpressions μ a b) :
    Moves μ (a + 1) 15 1 (assignment (a + 1)) (assignment (b + 1)) (Expr.move μ) := by
  rw [Parser.assignment, Parser.assignment]
  refine .call (.takeAnd (h.operators _) (by decide) fun target => ?_)
  refine .try (n := 0) (.pure rfl) (fun equals => ?_) (Nat.zero_le _)
  refine .andThen (h.assignment.weaken (by decide) (Nat.zero_le _)) fun value => ?_
  cases target with
  | «variable» target => exact .andThen (reference_moves _) fun r => .pure rfl
  | get object name => exact .pure rfl
  | _ => exact .andThen (report_moves _) fun _ => .pure rfl

theorem operators_moves (h : MovesExpressions μ a b) (t : Tier) :
    Moves μ (a + 1) (operandCost t + 1) 1 (operators (a + 1) t) (operators (b + 1) t)
      (Expr.move μ) := by
  rw [Parser.operators, Parser.operators]
  refine .call (.takeAnd (h.operand t) (Nat.le_refl _) fun left => ?_)
  exact (h.operatorsAfter t left).weaken (by omega) (Nat.le_refl _)

theorem node?_move {t : Tier} {k : TokenKind} {node : Token → Expr → Expr → Expr}
    (h : t.node? k = some node) (operator : Token) (left right : Expr) :
    (node operator left right).move μ = node (operator.move μ) (left.move μ) (right.move μ) := by
  unfold Tier.node? at h
  split at h <;> cases h <;> rfl

theorem operatorsAfter_moves (h : MovesExpressions μ a b) (t : Tier) (left : Expr) :
    Moves μ (a + 1) 1 0 (operatorsAfter (a + 1) t left) (operatorsAfter (b + 1) t (left.move μ))
      (Expr.move μ) := by
  rw [Parser.operatorsAfter, Parser.operatorsAfter]
  refine .call (.attempt (n := 0) (.pure rfl) (fun r hr => ?_) (Nat.zero_le _))
  obtain ⟨node, operator⟩ := r
  refine .andThen ((h.operand t).weaken ?_ (Nat.zero_le _)) fun right => ?_
  · exact Nat.le_trans (operandCost_le t) (by decide)
  · have hnode := (h.operatorsAfter t (node operator left right)).weaken
      (show 1 ≤ 0 + 20 by decide) (Nat.le_refl _)
    rwa [node?_move hr] at hnode

theorem operand_moves (h : MovesExpressions μ a b) (t : Tier) :
    Moves μ (a + 1) (operandCost t) 1 (operand (a + 1) t) (operand (b + 1) t) (Expr.move μ) := by
  rw [Parser.operand, Parser.operand]
  cases ht : t.operand? with
  | none =>
    rw [operandCost_of_operand?_none ht]
    exact h.unary.call
  | some inner =>
    rw [operandCost_of_operand? ht]
    exact (h.operators inner).call

theorem unary_moves (h : MovesExpressions μ a b) :
    Moves μ (a + 1) 2 1 (unary (a + 1)) (unary (b + 1)) (Expr.move μ) := by
  rw [Parser.unary, Parser.unary]
  refine .call (.attempt (n := 0) ?_ (fun r _ => ?_) (Nat.le_refl 1))
  · exact .takeAnd h.primary (by decide) fun callee =>
      (h.callsAfter callee).weaken (by decide) (Nat.le_refl _)
  · exact .andThen (h.unary.weaken (by decide) (Nat.zero_le _)) fun operand => .pure rfl

theorem callsAfter_moves (h : MovesExpressions μ a b) (callee : Expr) :
    Moves μ (a + 1) 1 0 (callsAfter (a + 1) callee) (callsAfter (b + 1) (callee.move μ))
      (Expr.move μ) := by
  rw [Parser.callsAfter, Parser.callsAfter]
  refine .call (.try (n := 0) ?_ (fun opening => ?_) (Nat.zero_le _))
  · refine .try (n := 0) (.pure rfl) (fun dot => ?_) (Nat.zero_le _)
    exact .andThen ((expectName_moves _).weaken (Nat.le_refl _) (Nat.zero_le _)) fun name =>
      (h.callsAfter (.get callee name)).weaken (by decide) (Nat.le_refl _)
  · have hclosing (values : List Expr) :
        Moves μ a (0 + 20) 0 (expectSymbol .rightParen .afterArguments >>= fun closing =>
            callsAfter a (.call callee closing values))
          (expectSymbol .rightParen .afterArguments >>= fun closing =>
            callsAfter b (.call (callee.move μ) closing (values.map (Expr.move μ)))) (Expr.move μ) := by
      refine .andThen ((expectSymbol_moves _ _).weaken (Nat.le_refl _) (Nat.zero_le _))
        fun closing => ?_
      have hcall := (h.callsAfter (.call callee closing values)).weaken
        (show 1 ≤ 0 + 20 by decide) (Nat.le_refl _)
      rwa [Expr.move, Expr.moveAll_eq_map] at hcall
    refine .andThen (nextIs_moves _) fun closes => .ite (fun _ => hclosing []) fun _ => ?_
    exact .andThen ((h.arguments 0).weaken (by decide) (Nat.zero_le _)) hclosing

theorem arguments_moves (h : MovesExpressions μ a b) (count : Nat) :
    Moves μ (a + 1) 17 1 (arguments (a + 1) count) (arguments (b + 1) count)
      (List.map (Expr.move μ)) := by
  rw [Parser.arguments, Parser.arguments]
  refine .call (.reportIf (fun _ => rfl) (.takeAnd h.expression (Nat.le_refl _) fun value => ?_))
  refine .try (n := 0) (.pure rfl) (fun comma => ?_) (Nat.zero_le _)
  exact .andThen ((h.arguments _).weaken (by decide) (Nat.zero_le _)) fun others => .pure rfl

theorem primary_moves (h : MovesExpressions μ a b) :
    Moves μ (a + 1) 1 1 (primary (a + 1)) (primary (b + 1)) (Expr.move μ) := by
  rw [Parser.primary, Parser.primary]
  have hreference (name : Token) (make : Reference → Expr) (make' : Reference → Expr)
      (hmake : ∀ r, (make r).move μ = make' (r.move μ)) :
      Moves μ a (0 + 20) 0 (reference name >>= fun r => pure (make r))
        (reference (name.move μ) >>= fun r => pure (make' r)) (Expr.move μ) :=
    .andThen (reference_moves name) fun r => .pure (hmake r).symm
  refine .call (.attempt (n := 0) (.try (n := 0) (.try (n := 0) (.try (n := 0)
    (.try (n := 0) (.refuse _) (fun opening => ?_) (Nat.le_refl 1)) (fun name => ?_) (Nat.le_refl 1))
    (fun this => ?_) (Nat.le_refl 1)) (fun super => ?_) (Nat.le_refl 1)) (fun r _ => .pure rfl)
    (Nat.le_refl 1))
  · refine .andThen (h.expression.weaken (by decide) (Nat.zero_le _)) fun inner => ?_
    exact .andThen ((expectSymbol_moves _ _).weaken (Nat.le_refl _) (Nat.zero_le _)) fun closing =>
      .pure rfl
  · exact hreference name .variable .variable fun _ => rfl
  · exact hreference this .receiver .receiver fun _ => rfl
  · refine .andThen ((expectSymbol_moves _ _).weaken (Nat.le_refl _) (Nat.zero_le _)) fun dot => ?_
    refine .andThen ((expectName_moves _).weaken (Nat.le_refl _) (Nat.zero_le _)) fun method => ?_
    exact hreference super (.inherited · method) (.inherited · (method.move μ)) fun _ => rfl

/-- Any amounts of fuel do. -/
theorem movesExpressions (h : a ≤ b) : MovesExpressions μ a b := by
  induction a generalizing b with
  | zero =>
    constructor
    case operand => exact fun t => .zero (operandCost_pos t)
    all_goals
      intros
      exact .zero (Nat.succ_pos _)
  | succ a ih =>
    obtain ⟨b, rfl⟩ := Nat.exists_eq_add_one.mpr (Nat.zero_lt_of_lt h)
    have hab : MovesExpressions μ a b := ih (Nat.le_of_succ_le_succ h)
    exact ⟨expression_moves hab, assignment_moves hab, operators_moves hab,
      operatorsAfter_moves hab, operand_moves hab, unary_moves hab, callsAfter_moves hab,
      arguments_moves hab, primary_moves hab⟩

/-! ## Simple statements -/

theorem optionalExpression_moves (h : a ≤ b) (stop : Symbol) :
    Moves μ a 16 0 (optionalExpression a stop) (optionalExpression b stop)
      (Option.map (Expr.move μ)) := by
  rw [Parser.optionalExpression, Parser.optionalExpression]
  refine .andThen (nextIs_moves stop) fun stops => .ite (fun _ => .pure rfl) fun _ => ?_
  exact .andThen ((movesExpressions h).expression.weaken (Nat.le_refl _) (Nat.zero_le _)) fun e =>
    .pure rfl

theorem expressionStatement_moves (h : a ≤ b) :
    Moves μ a 16 1 (expressionStatement a) (expressionStatement b) (Stmt.move μ) := by
  rw [Parser.expressionStatement, Parser.expressionStatement]
  refine .takeAnd (movesExpressions h).expression (Nat.le_refl _) fun value => ?_
  exact .andThen ((expectSymbol_moves _ _).weaken (Nat.le_refl _) (Nat.zero_le _)) fun semicolon =>
    .pure rfl

theorem variableDeclaration_moves (h : a ≤ b) :
    Moves μ a 0 1 (variableDeclaration a) (variableDeclaration b) (Stmt.move μ) := by
  rw [Parser.variableDeclaration, Parser.variableDeclaration]
  have hend (cost : Nat) (name : Token) (initializer : Option Expr) :
      Moves μ a cost 0
        (expectSymbol .semicolon .afterVariableDeclaration >>= fun _ =>
          pure (Stmt.varDecl name initializer))
        (expectSymbol .semicolon .afterVariableDeclaration >>= fun _ =>
          pure (Stmt.varDecl (name.move μ) (initializer.map (Expr.move μ)))) (Stmt.move μ) :=
    .andThen ((expectSymbol_moves _ _).weaken (Nat.le_refl _) (Nat.zero_le _)) fun semicolon =>
      .pure rfl
  refine .takeAnd (expectName_moves _) (Nat.le_refl _) fun name => .try (n := 0) ?_ (fun equals => ?_)
    (Nat.zero_le _)
  · exact .pureAnd (hend _ name none)
  · have hvalue := (movesExpressions (μ := μ) h).expression.weaken (show 16 ≤ 0 + 20 + 20 by decide)
      (Nat.zero_le 1)
    exact .andThen (hvalue.map fun _ => rfl) fun e => hend _ name e

theorem parameters_moves (h : a ≤ b) (count : Nat) :
    Moves μ a 1 1 (parameters a count) (parameters b count) (List.map (Token.move μ)) := by
  induction a generalizing b count with
  | zero => exact .zero Nat.one_pos
  | succ a ih =>
    obtain ⟨b, rfl⟩ := Nat.exists_eq_add_one.mpr (Nat.zero_lt_of_lt h)
    have hothers := ih (Nat.le_of_succ_le_succ h) (count + 1)
    rw [Parser.parameters, Parser.parameters]
    refine .call (.reportIf (fun _ => rfl)
      (.takeAnd (expectName_moves _) (Nat.le_refl _) fun name => ?_))
    refine .try (n := 0) (.pure rfl) (fun comma => ?_) (Nat.zero_le _)
    exact .andThen (hothers.weaken (by decide) (Nat.zero_le _)) fun names => .pure rfl

/-! ## Statements and declarations -/

/-- What the parsers of statements do with moved tokens, with two amounts of fuel. A
declaration is only looked for where there are more tokens. -/
structure MovesStatements (μ : Move) (a b : Nat) : Prop where
  declaration (c : Cursor) : c.Ends → c.atEnd = false → 20 * c.rest.length + 18 ≤ a →
    MovesAt μ 1 (declaration a) (declaration b) (Option.map (Stmt.move μ)) c
  declarations : Moves μ a 19 0 (declarations a) (declarations b) (List.map (Stmt.move μ))
  block : Moves μ a 20 0 (block a) (block b) (List.map (Stmt.move μ))
  callable (kind : CallableKind) :
    Moves μ a 1 1 (callable a kind) (callable b kind) (FunctionDecl.move μ)
  methods : Moves μ a 2 0 (methods a) (methods b) (List.map (FunctionDecl.move μ))
  classDeclaration : Moves μ a 1 1 (classDeclaration a) (classDeclaration b) (Stmt.move μ)
  statement : Moves μ a 17 1 (statement a) (statement b) (Stmt.move μ)
  ifStatement : Moves μ a 1 1 (ifStatement a) (ifStatement b) (Stmt.move μ)
  forStatement : Moves μ a 1 1 (forStatement a) (forStatement b) (Stmt.move μ)

theorem declaration_moves (hab : a ≤ b) (h : MovesStatements μ a b) (c : Cursor) (hends : c.Ends)
    (hmore : c.atEnd = false) (hroom : 20 * c.rest.length + 18 ≤ a + 1) :
    MovesAt μ 1 (declaration (a + 1)) (declaration (b + 1)) (Option.map (Stmt.move μ)) c := by
  rw [Parser.declaration, Parser.declaration]
  have hstatement : 20 * c.rest.length + 17 ≤ a := by omega
  refine Moves.recovering ?_ hends hmore hstatement
  refine .try (n := 0) (.try (n := 0) (.try (n := 0) h.statement (fun word => ?_) (Nat.le_refl 1))
    (fun word => ?_) (Nat.le_refl 1)) (fun word => ?_) (Nat.le_refl 1)
  · exact (variableDeclaration_moves hab).weaken (Nat.zero_le _) (Nat.zero_le _)
  · exact ((h.callable .function).weaken (show 1 ≤ 17 + 20 by decide) (Nat.zero_le 1)).map
      fun _ => rfl
  · exact h.classDeclaration.weaken (by decide) (Nat.zero_le _)

/-- A declaration and others after it, where there are more tokens. -/
theorem declarationAnd_moves {others others' : Parser (List Stmt)} (h : MovesStatements μ a b)
    (hothers : Moves μ a 19 0 others others' (List.map (Stmt.move μ))) {c : Cursor}
    (hends : c.Ends) (hmore : c.atEnd = false) (hroom : 20 * c.rest.length + 18 ≤ a) :
    MovesAt μ 0 (do return (← declaration a).toList ++ (← others))
      (do return (← declaration b).toList ++ (← others')) (List.map (Stmt.move μ)) c := by
  refine (h.declaration c hends hmore hroom).bind fun first c' _ hends' hlength =>
    ⟨0, ?_, by omega⟩
  refine (hothers c' hends' (by omega)).bind fun rest c'' _ hends'' hlength' => ⟨0, ?_, by omega⟩
  refine .pure ?_ hends''
  cases first <;> simp

theorem declarations_moves (h : MovesStatements μ a b) :
    Moves μ (a + 1) 19 0 (declarations (a + 1)) (declarations (b + 1)) (List.map (Stmt.move μ)) := by
  rw [Parser.declarations, Parser.declarations]
  refine .call (.andThen (nextIs_moves _) fun closes => ?_)
  intro c hends hroom
  refine (atEnd_moves c hends hroom).bind fun ends c' hread _ _ => ⟨0, ?_, by omega⟩
  cases hread
  simp only [id_eq]
  by_cases hstops : (closes || c.atEnd) = true
  · rw [if_pos hstops, if_pos hstops]
    exact .pure rfl hends
  · have hmore : c.atEnd = false := by
      simp only [Bool.or_eq_true, not_or, Bool.not_eq_true] at hstops
      exact hstops.2
    rw [if_neg hstops, if_neg hstops]
    exact declarationAnd_moves h h.declarations hends hmore hroom

theorem block_moves (h : MovesStatements μ a b) :
    Moves μ (a + 1) 20 0 (block (a + 1)) (block (b + 1)) (List.map (Stmt.move μ)) := by
  rw [Parser.block, Parser.block]
  refine .call (.nested (.andThen h.declarations fun body => ?_))
  exact .andThen ((expectSymbol_moves _ _).weaken (Nat.le_refl _) (Nat.zero_le _)) fun closing =>
    .pure rfl

theorem callable_moves (hab : a ≤ b) (h : MovesStatements μ a b) (kind : CallableKind) :
    Moves μ (a + 1) 1 1 (callable (a + 1) kind) (callable (b + 1) kind) (FunctionDecl.move μ) := by
  rw [Parser.callable, Parser.callable]
  have hbody (name : Token) (names : List Token) : Moves μ a 20 0
      (do
        let _ ← expectSymbol .rightParen .afterParameters
        let _ ← expectSymbol .leftBrace (.beforeCallableBody kind)
        let body ← block a
        return (⟨name, names, body⟩ : FunctionDecl))
      (do
        let _ ← expectSymbol .rightParen .afterParameters
        let _ ← expectSymbol .leftBrace (.beforeCallableBody kind)
        let body ← block b
        return (⟨name.move μ, names.map (Token.move μ), body⟩ : FunctionDecl))
      (FunctionDecl.move μ) := by
    refine .andThen ((expectSymbol_moves _ _).weaken (Nat.le_refl _) (Nat.zero_le _))
      fun closing => ?_
    refine .andThen ((expectSymbol_moves _ _).weaken (Nat.le_refl _) (Nat.zero_le _))
      fun opening => ?_
    refine .andThen h.block fun body => .pure ?_
    rw [FunctionDecl.move, Stmt.moveAll_eq_map]
  refine .call (.takeAnd (expectName_moves _) (Nat.le_refl _) fun name => ?_)
  refine .andThen ((expectSymbol_moves _ _).weaken (Nat.le_refl _) (Nat.zero_le _))
    fun opening => ?_
  refine .andThen (nextIs_moves _) fun closes => .ite (fun _ => hbody name []) fun _ => ?_
  exact .andThen ((parameters_moves hab 0).weaken (by decide) (Nat.zero_le _)) fun names =>
    hbody name names

theorem methods_moves (h : MovesStatements μ a b) :
    Moves μ (a + 1) 2 0 (methods (a + 1)) (methods (b + 1)) (List.map (FunctionDecl.move μ)) := by
  rw [Parser.methods, Parser.methods]
  have hfirst : Moves μ a 1 0
      (do
        let first ← callable a .method
        let others ← methods a
        return first :: others)
      (do
        let first ← callable b .method
        let others ← methods b
        return first :: others) (List.map (FunctionDecl.move μ)) := by
    refine (Moves.takeAnd (h.callable .method) (Nat.le_refl _) fun first => ?_).weaken
      (Nat.le_refl _) (Nat.zero_le 1)
    exact .andThen (h.methods.weaken (by decide) (Nat.le_refl _)) fun others => .pure rfl
  refine .call (.andThen (nextIs_moves _) fun closes => .andThen atEnd_moves fun ends => ?_)
  refine .ite (fun _ => .pure rfl) fun _ => ?_
  exact .try hfirst (fun _ => hfirst.weaken (by decide) (Nat.le_refl _)) (Nat.zero_le _)

theorem classDeclaration_moves (h : MovesStatements μ a b) :
    Moves μ (a + 1) 1 1 (classDeclaration (a + 1)) (classDeclaration (b + 1)) (Stmt.move μ) := by
  rw [Parser.classDeclaration, Parser.classDeclaration]
  have hbody (cost : Nat) (hcost : 2 ≤ cost) (name : Token) (superclass : Option Reference) :
      Moves μ a cost 0
      (do
        let _ ← expectSymbol .leftBrace .beforeClassBody
        let members ← methods a
        let _ ← expectSymbol .rightBrace .afterClassBody
        return Stmt.classDecl name superclass members)
      (do
        let _ ← expectSymbol .leftBrace .beforeClassBody
        let members ← methods b
        let _ ← expectSymbol .rightBrace .afterClassBody
        return Stmt.classDecl (name.move μ) (superclass.map (Reference.move μ)) members)
      (Stmt.move μ) := by
    refine .andThen ((expectSymbol_moves _ _).weaken (Nat.le_refl _) (Nat.zero_le _))
      fun opening => ?_
    refine .andThen (h.methods.weaken hcost (Nat.le_refl _)) fun members => ?_
    refine .andThen ((expectSymbol_moves _ _).weaken (Nat.le_refl _) (Nat.zero_le _))
      fun closing => .pure ?_
    rw [Stmt.move, FunctionDecl.moveAll_eq_map]
  refine .call (.takeAnd (expectName_moves _) (Nat.le_refl _) fun name => ?_)
  refine .try (n := 0) ?_ (fun less => ?_) (Nat.zero_le _)
  · exact .pureAnd (hbody _ (by decide) name none)
  · refine .andThen ((expectName_moves _).weaken (Nat.le_refl _) (Nat.zero_le _)) fun base => ?_
    exact .andThen ((reference_moves base).map fun _ => rfl) fun superclass =>
      hbody _ (by decide) name superclass

theorem statement_moves (hab : a ≤ b) (h : MovesStatements μ a b) :
    Moves μ (a + 1) 17 1 (statement (a + 1)) (statement (b + 1)) (Stmt.move μ) := by
  rw [Parser.statement, Parser.statement]
  have hexpression := (movesExpressions (μ := μ) hab).expression
  refine .call (.try (n := 0) (.try (n := 0) (.try (n := 0) (.try (n := 0) (.try (n := 0)
    (.try (n := 0) (expressionStatement_moves hab) (fun opening => ?_) (Nat.le_refl 1))
    (fun word => ?_) (Nat.le_refl 1)) (fun word => ?_) (Nat.le_refl 1)) (fun word => ?_)
    (Nat.le_refl 1)) (fun word => ?_) (Nat.le_refl 1)) (fun word => ?_) (Nat.le_refl 1))
  · refine (h.block.weaken (show 20 ≤ 16 + 20 by decide) (Nat.le_refl 0)).map fun body => ?_
    rw [Stmt.move, Stmt.moveAll_eq_map]
  · refine .andThen ((expectSymbol_moves _ _).weaken (Nat.le_refl _) (Nat.zero_le _))
      fun opening => ?_
    refine .andThen (hexpression.weaken (by decide) (Nat.zero_le _)) fun condition => ?_
    refine .andThen ((expectSymbol_moves _ _).weaken (Nat.le_refl _) (Nat.zero_le _))
      fun closing => ?_
    exact .andThen (h.statement.weaken (by decide) (Nat.zero_le _)) fun body => .pure rfl
  · refine .andThen ((optionalExpression_moves hab _).weaken (by decide) (Nat.le_refl _))
      fun value => ?_
    exact .andThen ((expectSymbol_moves _ _).weaken (Nat.le_refl _) (Nat.zero_le _))
      fun semicolon => .pure rfl
  · refine .andThen (hexpression.weaken (by decide) (Nat.zero_le _)) fun value => ?_
    exact .andThen ((expectSymbol_moves _ _).weaken (Nat.le_refl _) (Nat.zero_le _))
      fun semicolon => .pure rfl
  · exact h.ifStatement.weaken (by decide) (Nat.zero_le _)
  · exact h.forStatement.weaken (by decide) (Nat.zero_le _)

theorem ifStatement_moves (hab : a ≤ b) (h : MovesStatements μ a b) :
    Moves μ (a + 1) 1 1 (ifStatement (a + 1)) (ifStatement (b + 1)) (Stmt.move μ) := by
  rw [Parser.ifStatement, Parser.ifStatement]
  have hexpression := (movesExpressions (μ := μ) hab).expression
  refine .call (.takeAnd (expectSymbol_moves _ _) (Nat.le_refl _) fun opening => ?_)
  refine .andThen (hexpression.weaken (by decide) (Nat.zero_le _)) fun condition => ?_
  refine .andThen ((expectSymbol_moves _ _).weaken (Nat.le_refl _) (Nat.zero_le _))
    fun closing => ?_
  refine .andThen (h.statement.weaken (by decide) (Nat.zero_le _)) fun yes => ?_
  have hend (no : Option Stmt) : Stmt.branch (condition.move μ) (yes.move μ) (no.map (Stmt.move μ)) =
      (Stmt.branch condition yes no).move μ := by
    rw [Stmt.move, Stmt.moveOptional_eq_map]
  refine .try (n := 0) (.pureAnd (.pure (hend none))) (fun word => ?_) (Nat.zero_le _)
  have hno := h.statement.weaken (show 17 ≤ 0 + 20 + 20 by decide) (Nat.zero_le 1)
  exact .andThen (hno.map (k := Option.map (Stmt.move μ)) fun _ => rfl) fun no => .pure (hend no)

theorem forLoop_move (initializer : Option Stmt) (condition increment : Option Expr) (body : Stmt) :
    (forLoop initializer condition increment body).move μ =
      forLoop (initializer.map (Stmt.move μ)) (condition.map (Expr.move μ))
        (increment.map (Expr.move μ)) (body.move μ) := by
  cases initializer <;> cases condition <;> cases increment <;> rfl

theorem forStatement_moves (hab : a ≤ b) (h : MovesStatements μ a b) :
    Moves μ (a + 1) 1 1 (forStatement (a + 1)) (forStatement (b + 1)) (Stmt.move μ) := by
  rw [Parser.forStatement, Parser.forStatement]
  have hclauses (cost : Nat) (hcost : 17 ≤ cost) (initializer : Option Stmt) : Moves μ a cost 0
      (do
        let condition ← optionalExpression a .semicolon
        let _ ← expectSymbol .semicolon .afterLoopCondition
        let increment ← optionalExpression a .rightParen
        let _ ← expectSymbol .rightParen .afterForClauses
        let body ← statement a
        return forLoop initializer condition increment body)
      (do
        let condition ← optionalExpression b .semicolon
        let _ ← expectSymbol .semicolon .afterLoopCondition
        let increment ← optionalExpression b .rightParen
        let _ ← expectSymbol .rightParen .afterForClauses
        let body ← statement b
        return forLoop (initializer.map (Stmt.move μ)) condition increment body) (Stmt.move μ) := by
    have hoptional (stop : Symbol) := (optionalExpression_moves (μ := μ) hab stop).weaken
      (Nat.le_trans (by decide) hcost) (Nat.le_refl _)
    refine .andThen (hoptional _) fun condition => ?_
    refine .andThen ((expectSymbol_moves _ _).weaken (Nat.le_refl _) (Nat.zero_le _))
      fun semicolon => ?_
    refine .andThen (hoptional _) fun increment => ?_
    refine .andThen ((expectSymbol_moves _ _).weaken (Nat.le_refl _) (Nat.zero_le _))
      fun closing => ?_
    refine .andThen (h.statement.weaken hcost (Nat.zero_le _)) fun body => .pure ?_
    exact (forLoop_move initializer condition increment body).symm
  refine .call (.takeAnd (expectSymbol_moves _ _) (Nat.le_refl _) fun opening => ?_)
  refine .try (n := 0) (.try (n := 0) ?_ (fun word => ?_) (Nat.zero_le _)) (fun semicolon => ?_)
    (Nat.zero_le _)
  · have hinitializer := (expressionStatement_moves (μ := μ) hab).weaken
      (show 16 ≤ 0 + 20 by decide) (Nat.zero_le 1)
    exact .andThen (hinitializer.map fun _ => rfl) fun s => hclauses _ (by decide) s
  · have hinitializer := (variableDeclaration_moves (μ := μ) hab).weaken
      (Nat.zero_le (0 + 20 + 20)) (Nat.zero_le 1)
    exact .andThen (hinitializer.map fun _ => rfl) fun s => hclauses _ (by decide) s
  · exact .pureAnd (hclauses _ (by decide) none)

/-- Any amounts of fuel do. -/
theorem movesStatements (h : a ≤ b) : MovesStatements μ a b := by
  induction a generalizing b with
  | zero =>
    constructor
    case declaration => exact fun _ _ _ hroom => absurd hroom (by omega)
    all_goals
      intros
      exact .zero (Nat.succ_pos _)
  | succ a ih =>
    obtain ⟨b, rfl⟩ := Nat.exists_eq_add_one.mpr (Nat.zero_lt_of_lt h)
    have hle : a ≤ b := Nat.le_of_succ_le_succ h
    have hab : MovesStatements μ a b := ih hle
    exact ⟨declaration_moves hle hab, declarations_moves hab, block_moves hab,
      callable_moves hle hab, methods_moves hab, classDeclaration_moves hab,
      statement_moves hle hab, ifStatement_moves hle hab, forStatement_moves hle hab⟩

/-! ## Programs -/

theorem program_moves (h : a ≤ b) :
    Moves μ a 19 0 (program a) (program b) (List.map (Stmt.move μ)) := by
  induction a generalizing b with
  | zero => exact .zero (Nat.succ_pos _)
  | succ a ih =>
    obtain ⟨b, rfl⟩ := Nat.exists_eq_add_one.mpr (Nat.zero_lt_of_lt h)
    have hle : a ≤ b := Nat.le_of_succ_le_succ h
    rw [Parser.program, Parser.program]
    refine .call fun c hends hroom => ?_
    refine (atEnd_moves c hends hroom).bind fun ends c' hread _ _ => ⟨0, ?_, by omega⟩
    cases hread
    simp only [id_eq]
    by_cases hmore : c.atEnd = true
    · rw [if_pos hmore, if_pos hmore]
      exact .pure rfl hends
    · rw [if_neg hmore, if_neg hmore]
      exact declarationAnd_moves (movesStatements hle) (ih hle) hends
        (Bool.eq_false_iff.mpr hmore) hroom

theorem wholeExpression_moves (h : a ≤ b) :
    Moves μ a 16 0 (wholeExpression a) (wholeExpression b) (Expr.move μ) := by
  have hexpression := (movesExpressions (μ := μ) h).expression
  rw [Parser.wholeExpression, Parser.wholeExpression]
  refine .andThen (hexpression.weaken (Nat.le_refl _) (Nat.zero_le _)) fun value => ?_
  exact .andThen atEnd_moves fun ends => .ite (fun _ => .pure rfl) fun _ => .refuse _

end Parser

end Lox
