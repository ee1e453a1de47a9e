import Lox.Proofs.Recursion.Serving
import Lox.Proofs.Syntax.ReadStatements

/-!
# What parsers inherit from their parts

A parser of the grammar looks at the next token, takes it, stops there, or runs other
parsers one after the other. A property of parsers that is passed on from the parts to the
whole in each of these ways is one of all parsers of the grammar, however much fuel they
have.

## Implementation notes

Two rules are left to each property. What cannot be assigned to is reported where its
assignment has been read, not where the report points, and a declaration goes on after an
error. A report before an item is one rule, since the item takes the token that is
reported.
-/

namespace Lox

namespace Traced

variable {α β : Type}

/-- Whether a parser takes tokens, unless it fails. -/
def Takes (p : Traced α) : Prop :=
  ∀ c a d, p.parser c = .ok a d → d.rest.length < c.rest.length

/-- Whether a property is passed on from parsers to those that are composed of them. -/
structure Composes (P : ∀ {α : Type}, Traced α → Prop) : Prop where
  cut {α : Type} : P (cut : Traced α)
  pure {α : Type} (a : α) : P (pure a : Traced α)
  refuse {α : Type} (cause : SyntaxCause) : P (lift (Parser.refuse cause) : Traced α)
  accept? {α : Type} (recognise : TokenKind → Option α) : P (lift (Parser.accept? recognise))
  nextIs (s : Symbol) : P (nextIs s)
  atEnd : P (lift Parser.atEnd)
  reference (name : Token) : P (lift (Parser.reference name))
  bind {α β : Type} {p : Traced α} {f : α → Traced β} : P p → (∀ a, P (f a)) → P (p >>= f)
  reporting {α : Type} (cause : SyntaxCause) {p : Traced α} : P p → p.Takes →
    P (lift Parser.peek >>= fun t => lift (Parser.report ⟨cause, t⟩) >>= fun _ => p)
  enter {α : Type} (r : Routine) {p : Traced α} : r.isCounted = false → r ≠ .declaration → P p →
    P (during r p)
  enterNested {α : Type} (r : Routine) {p : Traced α} : r.isCounted = true → P p →
    P (during r (nested p))

/-- Whether expressions have a property that is passed on, if their assignments do. -/
structure ComposesExpressions (P : ∀ {α : Type}, Traced α → Prop) : Prop extends
    Composes P where
  assignment (fuel : Nat) : P (operators fuel .disjunction) → P (assignment fuel) →
    P (assignment (fuel + 1))

/-- Whether programs have a property that is passed on, if declarations have it that go on
after an error. -/
structure ComposesDeclarations (P : ∀ {α : Type}, Traced α → Prop) : Prop extends
    ComposesExpressions P where
  declaration (fuel : Nat) (body : Traced Stmt) :
    declaration (fuel + 1) = during .declaration (recovering body) → P body →
      P (declaration (fuel + 1))

theorem map_eq_bind (g : α → β) (p : Traced α) : g <$> p = p >>= fun a => pure (g a) := by
  refine Traced.ext rfl (funext fun c => ?_)
  simp only [Functor.map, Bind.bind, Pure.pure, lift]
  cases p.parser c <;> simp

namespace Composes

variable {P : ∀ {α : Type}, Traced α → Prop} {p : Traced α} {f : Option α → Traced β}

theorem map (h : Composes P) {g : α → β} (hp : P p) : P (g <$> p) := by
  rw [map_eq_bind]
  exact h.bind hp fun a => h.pure (g a)

theorem ite (_ : Composes P) {b : Prop} [Decidable b] {q : Traced α} (hp : P p) (hq : P q) :
    P (if b then p else q) := by
  by_cases hb : b
  · rwa [if_pos hb]
  · rwa [if_neg hb]

/-- To try to take a token and go on in two ways. -/
theorem attempt (h : Composes P) {p : Traced (Option α)} (hp : P p) (hsome : ∀ a, P (f (some a)))
    (hnone : P (f none)) : P (p >>= f) :=
  h.bind hp fun o => match o with
    | some a => hsome a
    | none => hnone

theorem accept (h : Composes P) (test : TokenKind → Bool) : P (lift (Parser.accept test)) := by
  rw [Parser.accept, lift_bind]
  exact h.bind (h.accept? _) fun read => h.pure _

theorem symbol (h : Composes P) (s : Symbol) : P (symbol s) :=
  h.accept _

theorem keyword (h : Composes P) (k : Keyword) : P (keyword k) :=
  h.accept _

theorem expect (h : Composes P) (test : TokenKind → Bool) (cause : SyntaxCause) :
    P (lift (Parser.expect test cause)) := by
  rw [Parser.expect, lift_bind]
  exact h.attempt (h.accept test) (fun t => h.pure t) (h.refuse cause)

theorem expectSymbol (h : Composes P) (s : Symbol) (place : SymbolPlace) :
    P (expectSymbol s place) :=
  h.expect _ _

theorem expectName (h : Composes P) (role : NameRole) : P (expectName role) :=
  h.expect _ _

end Composes

/-! ## Parsers that take tokens -/

/-- Whether a parser goes on from where it starts, and no further back. -/
def Advances (p : Traced α) : Prop :=
  p.parser.Meets fun _ _ _ => True

namespace Advances

variable {p : Traced α} {f : α → Traced β}

theorem of_meets {q : Parser α} {Q : Cursor → α → Cursor → Prop} (hq : q.Meets Q)
    (h : p.parser = q) : p.Advances := by
  rw [Advances, h]
  exact hq.weaken fun _ _ _ _ _ => trivial

theorem pure (a : α) : Advances (Pure.pure a : Traced α) :=
  of_meets (Parser.Meets.pure (Q := fun _ _ _ => True) a fun _ => trivial) rfl

theorem bind (hp : p.Advances) (hf : ∀ a, (f a).Advances) : (p >>= f).Advances :=
  Parser.Meets.bind hp fun a => (hf a).weaken fun _ _ _ _ _ _ _ _ => trivial

/-- To try to take a token and go on in two ways. -/
theorem attempt {q : Parser (Option α)} {Q : Cursor → Option α → Cursor → Prop}
    {f : Option α → Traced β} (hq : q.Meets Q) (hsome : ∀ a, (f (some a)).Advances)
    (hnone : (f none).Advances) : (lift q >>= f).Advances :=
  bind (of_meets hq rfl) fun o => match o with
    | some a => hsome a
    | none => hnone

end Advances

namespace Takes

variable {p : Traced α} {f : α → Traced β}

/-- What comes after a parser that takes tokens does not put them back. -/
theorem bind (h : p.Takes) (hf : ∀ a, (f a).Advances) : (p >>= f).Takes := by
  intro c b d' hread
  cases hp : p.parser c with
  | error e d => simp [Bind.bind, EStateM.bind, hp] at hread
  | ok a d =>
    simp only [Bind.bind, EStateM.bind, hp] at hread
    have hd := hf a d
    rw [hread] at hd
    exact Nat.lt_of_le_of_lt hd.1.rest.length_le (h c a d hp)

/-- To try to take a token and go on in two ways, the second of which takes tokens. -/
theorem attempt {q : Parser (Option α)} {f : Option α → Traced β} (hq : Looks q)
    (hsome : ∀ a, (f (some a)).Advances) (hnone : (f none).Takes) : (lift q >>= f).Takes := by
  intro c b d hread
  obtain hstays | ⟨a, t, ts, hrest, -, htakes⟩ := hq c
  · simp only [parser_lift, Bind.bind, EStateM.bind, hstays c rfl] at hread
    exact hnone c b d hread
  · obtain ⟨ts', hrest', htaken⟩ := htakes c rfl
    simp only [parser_lift, Bind.bind, EStateM.bind, htaken] at hread
    have hd := hsome a { c with rest := ts' }
    rw [hread] at hd
    rw [hrest', List.length_cons]
    exact Nat.lt_succ_of_le hd.1.rest.length_le

theorem refuse (cause : SyntaxCause) : (lift (Parser.refuse cause) : Traced α).Takes :=
  fun _ _ _ hread => by cases hread

theorem cut : (cut : Traced α).Takes :=
  refuse _

theorem expectName (role : NameRole) : (expectName role).Takes := by
  rw [Traced.expectName, Parser.expectName, Parser.expect, lift_bind]
  exact attempt (accept_looks _) (fun t => .pure t) (refuse _)

theorem during (r : Routine) (h : p.Takes) : (during r p).Takes :=
  h

theorem nested (h : p.Takes) : (nested p).Takes := by
  intro c a d hread
  by_cases hdepth : Parser.maxNesting ≤ c.depth
  · simp [Parser.nested, hdepth] at hread
  · simp only [parser_nested, Parser.nested, if_neg hdepth] at hread
    cases hp : p.parser { c with depth := c.depth + 1 } with
    | error e d' => simp [hp] at hread
    | ok b d' =>
      rw [hp] at hread
      cases hread
      exact h { c with depth := c.depth + 1 } _ d' hp

end Takes

/-- Whether parsers of expressions take tokens. -/
structure ExpressionsTake (fuel : Nat) : Prop where
  expression : (expression fuel).Takes
  assignment : (assignment fuel).Takes
  operators (t : Tier) : (operators fuel t).Takes
  operand (t : Tier) : (operand fuel t).Takes
  unary : (unary fuel).Takes
  primary : (primary fuel).Takes

variable {fuel : Nat}

theorem expression_advances (fuel : Nat) : (expression fuel).Advances :=
  .of_meets (Parser.readsExpressions fuel).expression (parser_expression fuel)

theorem assignment_advances (fuel : Nat) : (assignment fuel).Advances :=
  .of_meets (Parser.readsExpressions fuel).assignment (erasesExpressions fuel).assignment

theorem arguments_advances (fuel count : Nat) : (arguments fuel count).Advances :=
  .of_meets ((Parser.readsExpressions fuel).arguments count)
    ((erasesExpressions fuel).arguments count)

theorem assignment_takes (h : ExpressionsTake fuel) : (assignment (fuel + 1)).Takes := by
  rw [assignment]
  refine .during _ (.bind (h.operators _) fun target => ?_)
  refine .attempt (Parser.symbol_meets _) (fun equals => ?_) (.pure _)
  refine .bind (assignment_advances fuel) fun value => ?_
  cases target with
  | «variable» target => exact .bind (.of_meets (Parser.reference_meets _) rfl) fun r => .pure _
  | get object name => exact .pure _
  | _ => exact .bind (.of_meets (Parser.report_meets _) rfl) fun _ => .pure _

theorem primary_takes (fuel : Nat) : (primary (fuel + 1)).Takes := by
  have hreference (name : Token) (make : Reference → Expr) :
      (do return make (← lift (Parser.reference name)) : Traced Expr).Advances :=
    .bind (.of_meets (Parser.reference_meets _) rfl) fun r => .pure _
  rw [primary]
  refine .during _ (.attempt (accept?_looks _) (fun r => .pure _) ?_)
  refine .attempt (keyword_looks _) (fun super => ?_) ?_
  · exact .bind (.of_meets (Parser.expectSymbol_meets _ _) rfl) fun dot =>
      .bind (.of_meets (Parser.expectName_meets _) rfl) fun method => hreference super _
  refine .attempt (keyword_looks _) (fun this => hreference this _) ?_
  refine .attempt (accept_looks _) (fun name => hreference name _) ?_
  refine .attempt (symbol_looks _) (fun opening => ?_) (.refuse _)
  exact .bind (expression_advances fuel) fun inner =>
    .bind (.of_meets (Parser.expectSymbol_meets _ _) rfl) fun closing => .pure _

theorem unary_takes (h : ExpressionsTake fuel) : (unary (fuel + 1)).Takes := by
  rw [unary]
  refine .during _ (.attempt (accept?_looks _) (fun r => ?_) (.during _ ?_))
  · exact .bind (.of_meets (Parser.readsExpressions fuel).unary (erasesExpressions fuel).unary)
      fun operand => .pure _
  · exact .bind h.primary fun callee => .of_meets
      ((Parser.readsExpressions fuel).callsAfter callee)
      ((erasesExpressions fuel).callsAfter callee)

theorem operand_takes (h : ExpressionsTake fuel) (t : Tier) : (operand (fuel + 1) t).Takes := by
  rw [operand]
  cases t.operand? with
  | none => exact h.unary
  | some inner => exact h.operators inner

theorem operators_takes (h : ExpressionsTake fuel) (t : Tier) :
    (operators (fuel + 1) t).Takes := by
  rw [operators]
  exact .during _ (.bind (h.operand t) fun left => .of_meets
    ((Parser.readsExpressions fuel).operatorsAfter t left)
    ((erasesExpressions fuel).operatorsAfter t left))

theorem expressionsTake (fuel : Nat) : ExpressionsTake fuel := by
  induction fuel with
  | zero => constructor <;> intros <;> exact .cut
  | succ fuel ih =>
    exact ⟨.during _ (.nested ih.assignment), assignment_takes ih, operators_takes ih,
      operand_takes ih, unary_takes ih, primary_takes fuel⟩

/-! ## Expressions -/

/-- Whether the parsers of expressions have a property. -/
structure Expressions (P : ∀ {α : Type}, Traced α → Prop) (fuel : Nat) : Prop where
  expression : P (expression fuel)
  assignment : P (assignment fuel)
  operators (t : Tier) : P (operators fuel t)
  operatorsAfter (t : Tier) (left : Expr) : P (operatorsAfter fuel t left)
  operand (t : Tier) : P (operand fuel t)
  unary : P (unary fuel)
  callsAfter (callee : Expr) : P (callsAfter fuel callee)
  arguments (count : Nat) : P (arguments fuel count)
  primary : P (primary fuel)

namespace Composes

variable {P : ∀ {α : Type}, Traced α → Prop}

/-- Assignments have a property that all reports have. -/
theorem assignment_of_report (h : Composes P) (hreport : ∀ error, P (lift (Parser.report error)))
    (fuel : Nat) (htarget : P (operators fuel .disjunction)) (hvalue : P (assignment fuel)) :
    P (assignment (fuel + 1)) := by
  rw [assignment]
  refine h.enter _ rfl (by decide) (h.bind htarget fun target => ?_)
  refine h.attempt (h.symbol _) (fun equals => h.bind hvalue fun value => ?_) (h.pure _)
  cases target with
  | «variable» target => exact h.bind (h.reference _) fun r => h.pure _
  | get object name => exact h.pure _
  | _ => exact h.bind (hreport _) fun _ => h.pure _

theorem operatorsAfter (h : Composes P) (hP : Expressions P fuel) (t : Tier) (left : Expr) :
    P (operatorsAfter (fuel + 1) t left) := by
  rw [Traced.operatorsAfter]
  refine h.attempt (h.accept? _) (fun operator => ?_) (h.pure _)
  exact h.bind (hP.operand t) fun right => hP.operatorsAfter t _

theorem operand (h : Expressions P fuel) (t : Tier) : P (operand (fuel + 1) t) := by
  rw [Traced.operand]
  cases t.operand? with
  | none => exact h.unary
  | some inner => exact h.operators inner

theorem unary (h : Composes P) (hP : Expressions P fuel) : P (unary (fuel + 1)) := by
  rw [Traced.unary]
  refine h.enter _ rfl (by decide) (h.attempt (h.accept? _) (fun operator => ?_) ?_)
  · exact h.bind hP.unary fun operand => h.pure _
  · exact h.enter _ rfl (by decide) (h.bind hP.primary fun callee => hP.callsAfter callee)

theorem callsAfter (h : Composes P) (hP : Expressions P fuel) (callee : Expr) :
    P (callsAfter (fuel + 1) callee) := by
  have hclosing (values : List Expr) :
      P (do return Expr.call callee (← Traced.expectSymbol .rightParen .afterArguments) values) :=
    h.bind (h.expectSymbol _ _) fun closing => h.pure _
  rw [Traced.callsAfter]
  refine h.attempt (h.symbol _) (fun opening => ?_) (h.attempt (h.symbol _) (fun dot => ?_)
    (h.pure _))
  · refine h.bind (h.enter _ rfl (by decide) (h.bind (h.nextIs _) fun closes => ?_)) fun applied =>
      hP.callsAfter applied
    exact h.ite (hclosing []) (h.bind (hP.arguments 0) hclosing)
  · exact h.bind (h.expectName _) fun name => hP.callsAfter _

theorem arguments (h : Composes P) (hP : Expressions P fuel) (count : Nat) :
    P (arguments (fuel + 1) count) := by
  rw [Traced.arguments]
  refine h.ite (h.reporting _ ?hitem ?htakes) ?hitem
  case hitem =>
    refine h.bind hP.expression fun value => h.attempt (h.symbol _) (fun comma => ?_) (h.pure _)
    exact h.bind (hP.arguments _) fun others => h.pure _
  case htakes =>
    refine .bind (expressionsTake fuel).expression fun value => ?_
    refine .attempt (Parser.symbol_meets _) (fun comma => ?_) (.pure _)
    exact .bind (arguments_advances fuel _) fun others => .pure _

theorem primary (h : Composes P) (hP : Expressions P fuel) : P (primary (fuel + 1)) := by
  have hreference (name : Token) (make : Reference → Expr) :
      P (do return make (← lift (Parser.reference name))) :=
    h.bind (h.reference _) fun r => h.pure _
  rw [Traced.primary]
  refine h.enter _ rfl (by decide) (h.attempt (h.accept? _) (fun value => h.pure _) ?_)
  refine h.attempt (h.keyword _) (fun super => ?_) ?_
  · exact h.bind (h.expectSymbol _ _) fun dot => h.bind (h.expectName _) fun method =>
      hreference super _
  refine h.attempt (h.keyword _) (fun this => hreference this _) ?_
  refine h.attempt (h.accept _) (fun name => hreference name _) ?_
  refine h.attempt (h.symbol _) (fun opening => ?_) (h.refuse _)
  exact h.bind hP.expression fun inner => h.bind (h.expectSymbol _ _) fun closing => h.pure _

end Composes

theorem ComposesExpressions.expressions {P : ∀ {α : Type}, Traced α → Prop}
    (h : ComposesExpressions P) (fuel : Nat) : Expressions P fuel := by
  have hc := h.toComposes
  induction fuel with
  | zero => constructor <;> intros <;> exact hc.cut
  | succ fuel ih =>
    exact ⟨hc.enterNested _ rfl ih.assignment, h.assignment fuel (ih.operators _) ih.assignment,
      fun t => hc.enter _ rfl (by simp) (hc.bind (ih.operand t) (ih.operatorsAfter t)),
      hc.operatorsAfter ih, Composes.operand ih, hc.unary ih, hc.callsAfter ih, hc.arguments ih,
      hc.primary ih⟩

/-! ## Statements -/

/-- Whether the parsers of statements have a property. -/
structure Statements (P : ∀ {α : Type}, Traced α → Prop) (fuel : Nat) : Prop where
  declaration : P (declaration fuel)
  declarations : P (declarations fuel)
  block : P (block fuel)
  callable (kind : CallableKind) : P (callable fuel kind)
  methods : P (methods fuel)
  classDeclaration : P (classDeclaration fuel)
  statement : P (statement fuel)
  ifStatement : P (ifStatement fuel)
  forStatement : P (forStatement fuel)

namespace ComposesExpressions

variable {P : ∀ {α : Type}, Traced α → Prop}

theorem optionalExpression (h : ComposesExpressions P) (fuel : Nat) (stop : Symbol) :
    P (optionalExpression fuel stop) :=
  h.bind (h.nextIs _) fun _ => h.ite (h.pure _)
    (h.bind (h.expressions fuel).expression fun _ => h.pure _)

theorem expressionStatement (h : ComposesExpressions P) (fuel : Nat) :
    P (expressionStatement fuel) :=
  h.enter _ rfl (by decide) (h.bind (h.expressions fuel).expression fun _ =>
    h.bind (h.expectSymbol _ _) fun _ => h.pure _)

theorem variableDeclaration (h : ComposesExpressions P) (fuel : Nat) :
    P (variableDeclaration fuel) := by
  rw [Traced.variableDeclaration]
  refine h.enter _ rfl (by decide) (h.bind (h.expectName _) fun name => ?_)
  have hend (initializer : Option Expr) :
      P (do
        let _ ← expectSymbol .semicolon .afterVariableDeclaration
        return Stmt.varDecl name initializer) :=
    h.bind (h.expectSymbol _ _) fun semicolon => h.pure _
  refine h.attempt (h.symbol _) (fun equals => ?_) (h.bind (h.pure _) hend)
  exact h.bind (h.map (h.expressions fuel).expression) hend

theorem parameters (h : ComposesExpressions P) (fuel count : Nat) : P (parameters fuel count) := by
  induction fuel generalizing count with
  | zero => exact h.cut
  | succ fuel ih =>
    rw [Traced.parameters]
    refine h.ite (h.reporting _ ?hitem ?htakes) ?hitem
    case hitem =>
      refine h.bind (h.expectName _) fun name => h.attempt (h.symbol _) (fun comma => ?_) (h.pure _)
      exact h.bind (ih _) fun names => h.pure _
    case htakes =>
      refine .bind (.expectName _) fun name => ?_
      refine .attempt (Parser.symbol_meets _) (fun comma => ?_) (.pure _)
      exact .bind (.of_meets (Parser.parameters_reads fuel _) (parser_parameters fuel _))
        fun names => .pure _

/-- A declaration and others after it. -/
theorem declarationAnd (h : ComposesExpressions P) {others : Traced (List Stmt)}
    (hdeclaration : P (declaration fuel)) (hothers : P others) :
    P (do return (← declaration fuel).toList ++ (← others)) :=
  h.bind hdeclaration fun _ => h.bind hothers fun _ => h.pure _

theorem declarations (h : ComposesExpressions P) (hP : Statements P fuel) :
    P (declarations (fuel + 1)) := by
  rw [Traced.declarations]
  exact h.bind (h.nextIs _) fun closes => h.bind h.atEnd fun ends => h.ite (h.pure _)
    (h.declarationAnd hP.declaration hP.declarations)

theorem block (h : ComposesExpressions P) (hP : Statements P fuel) : P (block (fuel + 1)) := by
  rw [Traced.block]
  exact h.enterNested _ rfl (h.bind hP.declarations fun body =>
    h.bind (h.expectSymbol _ _) fun closing => h.pure _)

theorem callable (h : ComposesExpressions P) (hP : Statements P fuel) (kind : CallableKind) :
    P (callable (fuel + 1) kind) := by
  rw [Traced.callable]
  refine h.enter _ rfl (by decide) (h.bind (h.expectName _) fun name =>
    h.bind (h.expectSymbol _ _) fun opening => ?_)
  have hbody (names : List Token) :
      P (do
        let _ ← expectSymbol .rightParen .afterParameters
        let _ ← expectSymbol .leftBrace (.beforeCallableBody kind)
        let body ← Traced.block fuel
        return (⟨name, names, body⟩ : FunctionDecl)) :=
    h.bind (h.expectSymbol _ _) fun closing => h.bind (h.expectSymbol _ _) fun brace =>
      h.bind hP.block fun body => h.pure _
  exact h.bind (h.nextIs _) fun closes => h.ite (hbody []) (h.bind (h.parameters fuel 0) hbody)

theorem methods (h : ComposesExpressions P) (hP : Statements P fuel) : P (methods (fuel + 1)) := by
  rw [Traced.methods]
  refine h.bind (h.nextIs _) fun closes => h.bind h.atEnd fun ends => h.ite (h.pure _) ?_
  refine h.bind (h.keyword _) fun word => ?_
  exact h.bind (hP.callable _) fun first => h.bind hP.methods fun others => h.pure _

theorem classDeclaration (h : ComposesExpressions P) (hP : Statements P fuel) :
    P (classDeclaration (fuel + 1)) := by
  rw [Traced.classDeclaration]
  refine h.enter _ rfl (by decide) (h.bind (h.expectName _) fun name => ?_)
  have hbody (superclass : Option Reference) :
      P (do
        let _ ← expectSymbol .leftBrace .beforeClassBody
        let members ← Traced.methods fuel
        let _ ← expectSymbol .rightBrace .afterClassBody
        return Stmt.classDecl name superclass members) :=
    h.bind (h.expectSymbol _ _) fun opening => h.bind hP.methods fun members =>
      h.bind (h.expectSymbol _ _) fun closing => h.pure _
  refine h.attempt (h.symbol _) (fun less => ?_) (h.bind (h.pure _) hbody)
  exact h.bind (h.expectName _) fun parent => h.bind (h.map (h.reference parent)) hbody

theorem statement (h : ComposesExpressions P) (hP : Statements P fuel) :
    P (statement (fuel + 1)) := by
  have hexpression := (h.expressions fuel).expression
  rw [Traced.statement]
  refine h.enter _ rfl (by decide) (h.attempt (h.keyword _) (fun _ => hP.forStatement) ?_)
  refine h.attempt (h.keyword _) (fun _ => hP.ifStatement) ?_
  refine h.attempt (h.keyword _) (fun _ => h.enter _ rfl (by decide) ?_) ?_
  · exact h.bind hexpression fun value => h.bind (h.expectSymbol _ _) fun _ => h.pure _
  refine h.attempt (h.keyword _) (fun _ => h.enter _ rfl (by decide) ?_) ?_
  · exact h.bind (h.optionalExpression fuel _) fun value =>
      h.bind (h.expectSymbol _ _) fun _ => h.pure _
  refine h.attempt (h.keyword _) (fun _ => h.enter _ rfl (by decide) ?_) ?_
  · exact h.bind (h.expectSymbol _ _) fun _ => h.bind hexpression fun condition =>
      h.bind (h.expectSymbol _ _) fun _ => h.bind hP.statement fun body => h.pure _
  exact h.attempt (h.symbol _) (fun _ => h.map hP.block) (h.expressionStatement fuel)

theorem ifStatement (h : ComposesExpressions P) (hP : Statements P fuel) :
    P (ifStatement (fuel + 1)) := by
  rw [Traced.ifStatement]
  refine h.enter _ rfl (by decide) (h.bind (h.expectSymbol _ _) fun opening => ?_)
  refine h.bind (h.expressions fuel).expression fun condition => ?_
  refine h.bind (h.expectSymbol _ _) fun closing => h.bind hP.statement fun yes => ?_
  have hend (no : Option Stmt) : P (do return Stmt.branch condition yes no : Traced Stmt) :=
    h.pure _
  exact h.attempt (h.keyword _) (fun _ => h.bind (h.map hP.statement) hend)
    (h.bind (h.pure _) hend)

theorem forStatement (h : ComposesExpressions P) (hP : Statements P fuel) :
    P (forStatement (fuel + 1)) := by
  rw [Traced.forStatement]
  have hrest (initializer : Option Stmt) :
      P (do
        let condition ← Traced.optionalExpression fuel .semicolon
        let _ ← expectSymbol .semicolon .afterLoopCondition
        let increment ← Traced.optionalExpression fuel .rightParen
        let _ ← expectSymbol .rightParen .afterForClauses
        let body ← Traced.statement fuel
        return Parser.forLoop initializer condition increment body) :=
    h.bind (h.optionalExpression fuel _) fun condition => h.bind (h.expectSymbol _ _) fun _ =>
      h.bind (h.optionalExpression fuel _) fun increment => h.bind (h.expectSymbol _ _) fun _ =>
        h.bind hP.statement fun body => h.pure _
  refine h.enter _ rfl (by decide) (h.bind (h.expectSymbol _ _) fun opening => ?_)
  refine h.attempt (h.symbol _) (fun _ => h.bind (h.pure _) hrest) ?_
  refine h.attempt (h.keyword _) (fun _ => ?_) ?_
  · exact h.bind (h.map (h.variableDeclaration fuel)) hrest
  · exact h.bind (h.map (h.expressionStatement fuel)) hrest

end ComposesExpressions

namespace ComposesDeclarations

variable {P : ∀ {α : Type}, Traced α → Prop}

theorem declarationOf (h : ComposesDeclarations P) (hP : Statements P fuel) :
    P (Traced.declaration (fuel + 1)) := by
  refine h.declaration fuel _ rfl ?_
  refine h.attempt (h.keyword _) (fun _ => hP.classDeclaration) ?_
  refine h.attempt (h.keyword _) (fun _ => h.map (hP.callable _)) ?_
  exact h.attempt (h.keyword _) (fun _ => h.variableDeclaration fuel) hP.statement

theorem statements (h : ComposesDeclarations P) (fuel : Nat) : Statements P fuel := by
  induction fuel with
  | zero => constructor <;> intros <;> exact h.cut
  | succ fuel ih =>
    have hc := h.toComposesExpressions
    exact ⟨h.declarationOf ih, hc.declarations ih, hc.block ih, hc.callable ih, hc.methods ih,
      hc.classDeclaration ih, hc.statement ih, hc.ifStatement ih, hc.forStatement ih⟩

theorem program (h : ComposesDeclarations P) (fuel : Nat) : P (program fuel) := by
  induction fuel with
  | zero => exact h.cut
  | succ fuel ih =>
    rw [Traced.program]
    exact h.bind h.atEnd fun ends => h.ite (h.pure _)
      (h.declarationAnd (h.statements fuel).declaration ih)

theorem wholeExpression (h : ComposesDeclarations P) (fuel : Nat) : P (wholeExpression fuel) := by
  rw [Traced.wholeExpression]
  exact h.bind (h.expressions fuel).expression fun value => h.bind h.atEnd fun ends =>
    h.ite (h.pure _) (h.refuse _)

end ComposesDeclarations

/-! ## All parsers of the grammar -/

/-- The parsers of the grammar, with any fuel. -/
inductive OfGrammar : {α : Type} → Traced α → Prop
  | parameters (fuel count : Nat) : OfGrammar (parameters fuel count)
  | expression (fuel : Nat) : OfGrammar (expression fuel)
  | assignment (fuel : Nat) : OfGrammar (assignment fuel)
  | operators (fuel : Nat) (t : Tier) : OfGrammar (operators fuel t)
  | operatorsAfter (fuel : Nat) (t : Tier) (left : Expr) : OfGrammar (operatorsAfter fuel t left)
  | operand (fuel : Nat) (t : Tier) : OfGrammar (operand fuel t)
  | unary (fuel : Nat) : OfGrammar (unary fuel)
  | callsAfter (fuel : Nat) (callee : Expr) : OfGrammar (callsAfter fuel callee)
  | arguments (fuel count : Nat) : OfGrammar (arguments fuel count)
  | primary (fuel : Nat) : OfGrammar (primary fuel)
  | optionalExpression (fuel : Nat) (stop : Symbol) : OfGrammar (optionalExpression fuel stop)
  | expressionStatement (fuel : Nat) : OfGrammar (expressionStatement fuel)
  | variableDeclaration (fuel : Nat) : OfGrammar (variableDeclaration fuel)
  | declaration (fuel : Nat) : OfGrammar (declaration fuel)
  | declarations (fuel : Nat) : OfGrammar (declarations fuel)
  | block (fuel : Nat) : OfGrammar (block fuel)
  | callable (fuel : Nat) (kind : CallableKind) : OfGrammar (callable fuel kind)
  | methods (fuel : Nat) : OfGrammar (methods fuel)
  | classDeclaration (fuel : Nat) : OfGrammar (classDeclaration fuel)
  | statement (fuel : Nat) : OfGrammar (statement fuel)
  | ifStatement (fuel : Nat) : OfGrammar (ifStatement fuel)
  | forStatement (fuel : Nat) : OfGrammar (forStatement fuel)
  | program (fuel : Nat) : OfGrammar (program fuel)
  | wholeExpression (fuel : Nat) : OfGrammar (wholeExpression fuel)

/-- All parsers of the grammar have a property that is passed on. -/
theorem ComposesDeclarations.all {P : ∀ {α : Type}, Traced α → Prop} (h : ComposesDeclarations P)
    {p : Traced α} (hp : p.OfGrammar) : P p := by
  cases hp with
  | parameters fuel count => exact h.parameters fuel count
  | expression fuel => exact (h.expressions fuel).expression
  | assignment fuel => exact (h.expressions fuel).assignment
  | operators fuel t => exact (h.expressions fuel).operators t
  | operatorsAfter fuel t left => exact (h.expressions fuel).operatorsAfter t left
  | operand fuel t => exact (h.expressions fuel).operand t
  | unary fuel => exact (h.expressions fuel).unary
  | callsAfter fuel callee => exact (h.expressions fuel).callsAfter callee
  | arguments fuel count => exact (h.expressions fuel).arguments count
  | primary fuel => exact (h.expressions fuel).primary
  | optionalExpression fuel stop => exact h.optionalExpression fuel stop
  | expressionStatement fuel => exact h.expressionStatement fuel
  | variableDeclaration fuel => exact h.variableDeclaration fuel
  | declaration fuel => exact (h.statements fuel).declaration
  | declarations fuel => exact (h.statements fuel).declarations
  | block fuel => exact (h.statements fuel).block
  | callable fuel kind => exact (h.statements fuel).callable kind
  | methods fuel => exact (h.statements fuel).methods
  | classDeclaration fuel => exact (h.statements fuel).classDeclaration
  | statement fuel => exact (h.statements fuel).statement
  | ifStatement fuel => exact (h.statements fuel).ifStatement
  | forStatement fuel => exact (h.statements fuel).forStatement
  | program fuel => exact h.program fuel
  | wholeExpression fuel => exact h.wholeExpression fuel

end Traced

end Lox
