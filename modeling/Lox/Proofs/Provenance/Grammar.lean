import Lox.Proofs.Provenance.Reading

/-!
# The grammar makes trees of its tokens

Every parser of the grammar draws on its tokens, with any fuel. So a tree is made of tokens
of the list, and a syntax error points at one of them.
-/

namespace Lox

variable {P : Token → Prop}

theorem Tier.Operator.madeOf {t : Tier} {k : TokenKind} {node : Token → Expr → Expr → Expr}
    (h : t.Operator k node) {operator : Token} {left right : Expr} (ho : P operator)
    (hl : left.MadeOf P) (hr : right.MadeOf P) : (node operator left right).MadeOf P := by
  cases h <;> exact ⟨ho, hl, hr⟩

namespace Parser

/-! ## Expressions -/

/-- Whether the parsers of expressions draw on their tokens. -/
structure ExpressionsDraw (P : Token → Prop) (fuel : Nat) : Prop where
  expression : Draws P (expression fuel) (Expr.MadeOf P)
  assignment : Draws P (assignment fuel) (Expr.MadeOf P)
  operators (t : Tier) : Draws P (operators fuel t) (Expr.MadeOf P)
  operatorsAfter (t : Tier) (left : Expr) (h : left.MadeOf P) :
    Draws P (operatorsAfter fuel t left) (Expr.MadeOf P)
  operand (t : Tier) : Draws P (operand fuel t) (Expr.MadeOf P)
  unary : Draws P (unary fuel) (Expr.MadeOf P)
  callsAfter (callee : Expr) (h : callee.MadeOf P) :
    Draws P (callsAfter fuel callee) (Expr.MadeOf P)
  arguments (count : Nat) : Draws P (arguments fuel count) (Expr.AllMadeOf P)
  primary : Draws P (primary fuel) (Expr.MadeOf P)

variable {fuel : Nat}

theorem assignment_draws (h : ExpressionsDraw P fuel) :
    Draws P (assignment (fuel + 1)) (Expr.MadeOf P) := by
  rw [assignment]
  refine .bind (h.operators _) fun target htarget => ?_
  refine .attempt (symbol_draws _) (fun equals hequals => ?_) (.pure htarget)
  refine .bind h.assignment fun value hvalue => ?_
  cases target with
  | «variable» target =>
    refine .bind (reference_draws _) fun r hr => .pure ⟨?_, hvalue⟩
    exact hr.symm ▸ htarget
  | get object name => exact .pure ⟨htarget.1, htarget.2, hvalue⟩
  | _ => exact .bind (report_draws hequals) fun _ _ => .pure htarget

theorem operatorsAfter_draws (h : ExpressionsDraw P fuel) (t : Tier) (left : Expr)
    (hleft : left.MadeOf P) : Draws P (operatorsAfter (fuel + 1) t left) (Expr.MadeOf P) := by
  rw [operatorsAfter]
  refine .attempt (accept?_draws _) (fun r hr => ?_) (.pure hleft)
  refine .bind (h.operand t) fun right hright => h.operatorsAfter t _ ?_
  exact (Tier.operator_of_node? hr.1).madeOf hr.2 hleft hright

theorem operand_draws (h : ExpressionsDraw P fuel) (t : Tier) :
    Draws P (operand (fuel + 1) t) (Expr.MadeOf P) := by
  rw [operand]
  cases t.operand? with
  | some inner => exact h.operators inner
  | none => exact h.unary

theorem unary_draws (h : ExpressionsDraw P fuel) : Draws P (unary (fuel + 1)) (Expr.MadeOf P) := by
  rw [unary]
  refine .attempt (accept?_draws _) (fun r hr => ?_) ?_
  · exact .bind h.unary fun operand hoperand => .pure ⟨hr.2, hoperand⟩
  · exact .bind h.primary fun callee hcallee => h.callsAfter callee hcallee

theorem callsAfter_draws (h : ExpressionsDraw P fuel) (callee : Expr) (hcallee : callee.MadeOf P) :
    Draws P (callsAfter (fuel + 1) callee) (Expr.MadeOf P) := by
  rw [callsAfter]
  refine .attempt (symbol_draws _) (fun opening _ => ?_) ?_
  · have hclosing (values : List Expr) (hvalues : Expr.AllMadeOf P values) : Draws P (do
        let closing ← expectSymbol .rightParen .afterArguments
        callsAfter fuel (.call callee closing values)) (Expr.MadeOf P) :=
      .bind (expectSymbol_draws _ _) fun closing hclosing =>
        h.callsAfter _ ⟨hclosing, hcallee, hvalues⟩
    refine .bind (nextIs_draws _) fun closes _ => .ite (hclosing [] trivial) ?_
    exact .bind (h.arguments 0) hclosing
  · refine .attempt (symbol_draws _) (fun dot _ => ?_) (.pure hcallee)
    exact .bind (expectName_draws _) fun name hname => h.callsAfter _ ⟨hname.of, hcallee⟩

theorem arguments_draws (h : ExpressionsDraw P fuel) (count : Nat) :
    Draws P (arguments (fuel + 1) count) (Expr.AllMadeOf P) := by
  rw [arguments]
  refine .reportIf (.bind h.expression fun value hvalue => ?_)
  refine .attempt (symbol_draws _) (fun comma _ => ?_) (.pure ⟨hvalue, trivial⟩)
  exact .bind (h.arguments _) fun others hothers => .pure ⟨hvalue, hothers⟩

theorem primary_draws (h : ExpressionsDraw P fuel) :
    Draws P (primary (fuel + 1)) (Expr.MadeOf P) := by
  rw [primary]
  refine .attempt (accept?_draws _) (fun r _ => .pure trivial) ?_
  refine .attempt (keyword_draws _) (fun super hsuper => ?_) ?_
  · refine .bind (expectSymbol_draws _ _) fun dot _ => ?_
    refine .bind (expectName_draws _) fun method hmethod => ?_
    refine .bind (reference_draws _) fun r hr => .pure ⟨?_, hmethod.of⟩
    exact hr.symm ▸ hsuper
  refine .attempt (keyword_draws _) (fun this hthis => ?_) ?_
  · exact .bind (reference_draws _) fun r hr => .pure (show P r.name from hr.symm ▸ hthis)
  refine .attempt (accept_draws _) (fun name hname => ?_) ?_
  · refine .bind (reference_draws _) fun r hr => .pure ?_
    exact show r.name.IsNameOf P from
      hr.symm ▸ ⟨hname.2, TokenKind.isIdentifier_iff.mp hname.1⟩
  refine .attempt (symbol_draws _) (fun opening _ => ?_) (refuse_draws _)
  refine .bind h.expression fun inner hinner => ?_
  exact .bind (expectSymbol_draws _ _) fun closing _ => .pure hinner

theorem expressionsDraw (P : Token → Prop) (fuel : Nat) : ExpressionsDraw P fuel := by
  induction fuel with
  | zero =>
    constructor
    all_goals
      intros
      exact refuse_draws _
  | succ fuel ih =>
    refine ⟨?_, assignment_draws ih, fun t => ?_, operatorsAfter_draws ih, operand_draws ih,
      unary_draws ih, callsAfter_draws ih, arguments_draws ih, primary_draws ih⟩
    · exact nested_draws ih.assignment
    · exact .bind (ih.operand t) fun left hleft => ih.operatorsAfter t left hleft

/-! ## Simple statements -/

theorem optionalExpression_draws (fuel : Nat) (stop : Symbol) :
    Draws P (optionalExpression fuel stop) fun o => ∀ e ∈ o, e.MadeOf P := by
  rw [optionalExpression]
  refine .bind (nextIs_draws _) fun stops _ => .ite .pure_none ?_
  exact .bind (expressionsDraw P fuel).expression fun e he =>
    .pure fun e' he' => Option.mem_some.mp he' ▸ he

theorem expressionStatement_draws (fuel : Nat) :
    Draws P (expressionStatement fuel) (Stmt.MadeOf P) := by
  rw [expressionStatement]
  refine .bind (expressionsDraw P fuel).expression fun value hvalue => ?_
  exact .bind (expectSymbol_draws _ _) fun semicolon _ => .pure hvalue

theorem variableDeclaration_draws (fuel : Nat) :
    Draws P (variableDeclaration fuel) (Stmt.MadeOf P) := by
  rw [variableDeclaration]
  refine .bind (expectName_draws _) fun name hname => ?_
  have hend (initializer : Option Expr) (h : ∀ e ∈ initializer, e.MadeOf P) : Draws P (do
      let _ ← expectSymbol .semicolon .afterVariableDeclaration
      return Stmt.varDecl name initializer) (Stmt.MadeOf P) :=
    .bind (expectSymbol_draws _ _) fun semicolon _ => .pure ⟨hname, h⟩
  refine .attempt (symbol_draws _) (fun equals _ => ?_) (.bind .pure_none hend)
  refine .bind (.map ?_) hend
  exact (expressionsDraw P fuel).expression.mono fun e he e' he' => Option.mem_some.mp he' ▸ he

theorem parameters_draws (fuel count : Nat) :
    Draws P (parameters fuel count) fun ps => ∀ p ∈ ps, p.IsNameOf P := by
  induction fuel generalizing count with
  | zero => exact refuse_draws _
  | succ fuel ih =>
    rw [parameters]
    refine .reportIf (.bind (expectName_draws _) fun name hname => ?_)
    refine .attempt (symbol_draws _) (fun comma _ => ?_)
      (.pure (List.forall_mem_singleton.mpr hname))
    exact .bind (ih _) fun names hnames => .pure (List.forall_mem_cons.mpr ⟨hname, hnames⟩)

/-! ## Statements and declarations -/

theorem forLoop_madeOf {initializer : Option Stmt} {condition increment : Option Expr}
    {body : Stmt} (hi : ∀ s ∈ initializer, s.MadeOf P) (hc : ∀ e ∈ condition, e.MadeOf P)
    (he : ∀ e ∈ increment, e.MadeOf P) (hb : body.MadeOf P) :
    (forLoop initializer condition increment body).MadeOf P := by
  have hcondition : (condition.getD (.literal (.bool true))).MadeOf P := by
    cases condition with
    | none => trivial
    | some e => exact hc e rfl
  cases initializer <;> cases increment <;>
    simp_all [forLoop, Stmt.MadeOf, Stmt.AllMadeOf]

/-- Whether the parsers of statements draw on their tokens. -/
structure StatementsDraw (P : Token → Prop) (fuel : Nat) : Prop where
  declaration : Draws P (declaration fuel) fun o => ∀ s ∈ o, s.MadeOf P
  declarations : Draws P (declarations fuel) (Stmt.AllMadeOf P)
  block : Draws P (block fuel) (Stmt.AllMadeOf P)
  callable (kind : CallableKind) : Draws P (callable fuel kind) (FunctionDecl.MadeOf P)
  methods : Draws P (methods fuel) (FunctionDecl.AllMadeOf P)
  classDeclaration : Draws P (classDeclaration fuel) (Stmt.MadeOf P)
  statement : Draws P (statement fuel) (Stmt.MadeOf P)
  ifStatement : Draws P (ifStatement fuel) (Stmt.MadeOf P)
  forStatement : Draws P (forStatement fuel) (Stmt.MadeOf P)

theorem declaration_draws (h : StatementsDraw P fuel) :
    Draws P (declaration (fuel + 1)) fun o => ∀ s ∈ o, s.MadeOf P := by
  rw [declaration]
  refine recovering_draws (.attempt (keyword_draws _) (fun _ _ => h.classDeclaration) ?_)
  refine .attempt (keyword_draws _) (fun _ _ => .map (h.callable .function)) ?_
  exact .attempt (keyword_draws _) (fun _ _ => variableDeclaration_draws fuel) h.statement

/-- A declaration, if it is one, and others after it. -/
theorem declarationAnd_draws {others : Parser (List Stmt)} (h : StatementsDraw P fuel)
    (hothers : Draws P others (Stmt.AllMadeOf P)) :
    Draws P (do return (← declaration fuel).toList ++ (← others)) (Stmt.AllMadeOf P) := by
  refine .bind h.declaration fun first hfirst => .bind hothers fun rest hrest => .pure ?_
  simp only [Stmt.allMadeOf_iff, List.forall_mem_append, Option.mem_toList] at hrest ⊢
  exact ⟨hfirst, hrest⟩

theorem declarations_draws (h : StatementsDraw P fuel) :
    Draws P (declarations (fuel + 1)) (Stmt.AllMadeOf P) := by
  rw [declarations]
  refine .bind (nextIs_draws _) fun closes _ => .bind atEnd_draws fun ends _ => ?_
  exact .ite (.pure trivial) (declarationAnd_draws h h.declarations)

theorem block_draws (h : StatementsDraw P fuel) :
    Draws P (block (fuel + 1)) (Stmt.AllMadeOf P) := by
  rw [block]
  refine nested_draws (.bind h.declarations fun body hbody => ?_)
  exact .bind (expectSymbol_draws _ _) fun closing _ => .pure hbody

theorem callable_draws (h : StatementsDraw P fuel) (kind : CallableKind) :
    Draws P (callable (fuel + 1) kind) (FunctionDecl.MadeOf P) := by
  rw [callable]
  refine .bind (expectName_draws _) fun name hname => ?_
  refine .bind (expectSymbol_draws _ _) fun opening _ => ?_
  have hbody (names : List Token) (hnames : ∀ p ∈ names, p.IsNameOf P) : Draws P (do
      let _ ← expectSymbol .rightParen .afterParameters
      let _ ← expectSymbol .leftBrace (.beforeCallableBody kind)
      let body ← block fuel
      return (⟨name, names, body⟩ : FunctionDecl)) (FunctionDecl.MadeOf P) := by
    refine .bind (expectSymbol_draws _ _) fun closing _ => ?_
    refine .bind (expectSymbol_draws _ _) fun brace _ => ?_
    exact .bind h.block fun body hbody => .pure ⟨hname, hnames, hbody⟩
  refine .bind (nextIs_draws _) fun closes _ => .ite (hbody [] (by simp)) ?_
  exact .bind (parameters_draws fuel 0) hbody

theorem methods_draws (h : StatementsDraw P fuel) :
    Draws P (methods (fuel + 1)) (FunctionDecl.AllMadeOf P) := by
  rw [methods]
  refine .bind (nextIs_draws _) fun closes _ => .bind atEnd_draws fun ends _ => ?_
  refine .ite (.pure trivial) (.bind (keyword_draws _) fun _ _ => ?_)
  refine .bind (h.callable .method) fun first hfirst => ?_
  exact .bind h.methods fun others hothers => .pure ⟨hfirst, hothers⟩

theorem classDeclaration_draws (h : StatementsDraw P fuel) :
    Draws P (classDeclaration (fuel + 1)) (Stmt.MadeOf P) := by
  rw [classDeclaration]
  refine .bind (expectName_draws _) fun name hname => ?_
  have hbody (superclass : Option Reference) (hsuper : ∀ r ∈ superclass, r.name.IsNameOf P) :
      Draws P (do
        let _ ← expectSymbol .leftBrace .beforeClassBody
        let members ← methods fuel
        let _ ← expectSymbol .rightBrace .afterClassBody
        return Stmt.classDecl name superclass members) (Stmt.MadeOf P) := by
    refine .bind (expectSymbol_draws _ _) fun opening _ => ?_
    refine .bind h.methods fun members hmembers => ?_
    exact .bind (expectSymbol_draws _ _) fun closing _ => .pure ⟨hname, hsuper, hmembers⟩
  refine .attempt (symbol_draws _) (fun less _ => ?_) (.bind .pure_none hbody)
  refine .bind (expectName_draws _) fun superclass hsuperclass => ?_
  refine .bind (.map ?_) hbody
  refine (reference_draws _).mono fun r hr r' hr' => ?_
  obtain rfl := Option.mem_some.mp hr'
  exact hr.symm ▸ hsuperclass

theorem statement_draws (h : StatementsDraw P fuel) :
    Draws P (statement (fuel + 1)) (Stmt.MadeOf P) := by
  have hexpression := (expressionsDraw P fuel).expression
  rw [statement]
  refine .attempt (keyword_draws _) (fun _ _ => h.forStatement) ?_
  refine .attempt (keyword_draws _) (fun _ _ => h.ifStatement) ?_
  refine .attempt (keyword_draws _) (fun _ _ => ?_) ?_
  · refine .bind hexpression fun value hvalue => ?_
    exact .bind (expectSymbol_draws _ _) fun semicolon _ => .pure hvalue
  refine .attempt (keyword_draws _) (fun word hword => ?_) ?_
  · refine .bind (optionalExpression_draws _ _) fun value hvalue => ?_
    exact .bind (expectSymbol_draws _ _) fun semicolon _ => .pure ⟨hword, hvalue⟩
  refine .attempt (keyword_draws _) (fun _ _ => ?_) ?_
  · refine .bind (expectSymbol_draws _ _) fun opening _ => ?_
    refine .bind hexpression fun condition hcondition => ?_
    refine .bind (expectSymbol_draws _ _) fun closing _ => ?_
    exact .bind h.statement fun body hbody => .pure ⟨hcondition, hbody⟩
  exact .attempt (symbol_draws _) (fun _ _ => .map h.block) (expressionStatement_draws fuel)

theorem ifStatement_draws (h : StatementsDraw P fuel) :
    Draws P (ifStatement (fuel + 1)) (Stmt.MadeOf P) := by
  rw [ifStatement]
  refine .bind (expectSymbol_draws _ _) fun opening _ => ?_
  refine .bind (expressionsDraw P fuel).expression fun condition hcondition => ?_
  refine .bind (expectSymbol_draws _ _) fun closing _ => ?_
  refine .bind h.statement fun yes hyes => ?_
  have hend (no : Option Stmt) (hno : Stmt.OptionalMadeOf P no) :
      Draws P (return Stmt.branch condition yes no) (Stmt.MadeOf P) :=
    .pure ⟨hcondition, hyes, hno⟩
  refine .attempt (keyword_draws _) (fun _ _ => ?_) (.bind (.pure trivial) hend)
  exact .bind (.map h.statement) hend

theorem forStatement_draws (h : StatementsDraw P fuel) :
    Draws P (forStatement (fuel + 1)) (Stmt.MadeOf P) := by
  rw [forStatement]
  refine .bind (expectSymbol_draws _ _) fun opening _ => ?_
  have hrest (initializer : Option Stmt) (hi : ∀ s ∈ initializer, s.MadeOf P) : Draws P (do
      let condition ← optionalExpression fuel .semicolon
      let _ ← expectSymbol .semicolon .afterLoopCondition
      let increment ← optionalExpression fuel .rightParen
      let _ ← expectSymbol .rightParen .afterForClauses
      let body ← statement fuel
      return forLoop initializer condition increment body) (Stmt.MadeOf P) := by
    refine .bind (optionalExpression_draws _ _) fun condition hc => ?_
    refine .bind (expectSymbol_draws _ _) fun semicolon _ => ?_
    refine .bind (optionalExpression_draws _ _) fun increment he => ?_
    refine .bind (expectSymbol_draws _ _) fun closing _ => ?_
    exact .bind h.statement fun body hb => .pure (forLoop_madeOf hi hc he hb)
  have hsome {s : Stmt} (hs : s.MadeOf P) : ∀ s' ∈ some s, s'.MadeOf P :=
    fun s' hs' => Option.mem_some.mp hs' ▸ hs
  refine .attempt (symbol_draws _) (fun _ _ => .bind .pure_none hrest) ?_
  refine .attempt (keyword_draws _) (fun _ _ => ?_) ?_
  · exact .bind (.map ((variableDeclaration_draws fuel).mono fun _ => hsome)) hrest
  · exact .bind (.map ((expressionStatement_draws fuel).mono fun _ => hsome)) hrest

theorem statementsDraw (P : Token → Prop) (fuel : Nat) : StatementsDraw P fuel := by
  induction fuel with
  | zero =>
    constructor
    all_goals
      intros
      exact refuse_draws _
  | succ fuel ih =>
    exact ⟨declaration_draws ih, declarations_draws ih, block_draws ih, callable_draws ih,
      methods_draws ih, classDeclaration_draws ih, statement_draws ih, ifStatement_draws ih,
      forStatement_draws ih⟩

/-! ## Sources -/

theorem program_draws (fuel : Nat) : Draws P (program fuel) (Stmt.AllMadeOf P) := by
  induction fuel with
  | zero => exact refuse_draws _
  | succ fuel ih =>
    rw [program]
    refine .bind atEnd_draws fun ends _ => ?_
    exact .ite (.pure trivial) (declarationAnd_draws (statementsDraw P fuel) ih)

theorem wholeExpression_draws (fuel : Nat) : Draws P (wholeExpression fuel) (Expr.MadeOf P) := by
  rw [wholeExpression]
  refine .bind (expressionsDraw P fuel).expression fun value hvalue => ?_
  exact .bind atEnd_draws fun ends _ => .ite (.pure hvalue) (refuse_draws _)

end Parser

end Lox
