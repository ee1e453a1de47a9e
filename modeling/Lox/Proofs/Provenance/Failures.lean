import Lox.Proofs.Incremental.Lexing
import Lox.Proofs.Provenance.Grammar
import Lox.Proofs.Provenance.Records
import Lox.Proofs.Provenance.Steps
import Lox.Proofs.Provenance.Walks
import Mathlib

/-!
# What a source fails with

A failure is of one stage: one error, or of parsing and of binding names two or more. From
the stage follow the exit status and whether anything has been run. An error points at a
token of a source that was given to the session, or at a place in it; only an error of a
run can be at a token of an earlier source, whose functions are still there.
-/

namespace Lox

variable {P : Token → Prop}

/-! ## Forms -/

/-- The stages that a source goes through. -/
inductive Stage where
  | lexing | parsing | scoping | running
  deriving Repr, DecidableEq

namespace Failure

/-- Whether a failure is one error of a stage, or two or more where a stage can collect
errors. -/
inductive HasForm : Failure → Stage → Prop
  | lexical (e : LexicalError) : HasForm (single (.lexical e)) .lexing
  | syntactic (e : SyntaxError) : HasForm (single (.syntactic e)) .parsing
  | syntactics (e e' : SyntaxError) (es : List SyntaxError) :
      HasForm (several ((e :: e' :: es).map .syntactic)) .parsing
  | scoping (e : ScopingError) : HasForm (single (.scoping e)) .scoping
  | scopings (e e' : ScopingError) (es : List ScopingError) :
      HasForm (several ((e :: e' :: es).map .scoping)) .scoping
  | runtime (e : RuntimeError) : HasForm (single (.runtime e)) .running

namespace HasForm

variable {failure : Failure} {stage stage' : Stage}

theorem unique (h : failure.HasForm stage) (h' : failure.HasForm stage') : stage' = stage := by
  generalize hfailure : failure = failure' at h'
  cases h <;> cases h' <;> first | rfl | simp at hfailure

end HasForm

/-- What the errors collected in a parse amount to. -/
theorem ofList?_syntactic (es : List SyntaxError) :
    (es = [] ∧ ofList? (es.map .syntactic) = none) ∨
      ∃ failure, ofList? (es.map .syntactic) = some failure ∧ failure.HasForm .parsing ∧
        failure.diagnostics = es.map .syntactic := by
  rcases es with _ | ⟨e, _ | ⟨e', es⟩⟩
  · exact .inl ⟨rfl, rfl⟩
  · exact .inr ⟨_, rfl, .syntactic e, rfl⟩
  · exact .inr ⟨_, rfl, .syntactics e e' es, rfl⟩

/-- A parse that gives up ends with its last error. -/
theorem endingIn_syntactic (last : SyntaxError) (es : List SyntaxError) :
    (endingIn (.syntactic last) (es.map .syntactic)).HasForm .parsing ∧
      (endingIn (.syntactic last) (es.map .syntactic)).diagnostics =
        (es ++ [last]).map .syntactic := by
  rcases es with _ | ⟨e, _ | ⟨e', es⟩⟩
  · exact ⟨.syntactic last, rfl⟩
  · exact ⟨.syntactics e last [], rfl⟩
  · refine ⟨?_, by simp [endingIn, diagnostics]⟩
    have hform := HasForm.syntactics e e' (es ++ [last])
    simpa [endingIn] using hform

end Failure

/-! ## Parsing -/

namespace Parser

variable {α : Type} {p : Parser α} {V : α → Prop} {tokens : List Token}

/-- A parser that draws on its tokens only answers with what it makes of them. -/
theorem Draws.of_run_ok (h : Draws P p V) (hP : ∀ t ∈ tokens, P t)
    (hends : ∃ t ∈ tokens, t.isEnd = true) {firstId : NodeId} {a : α}
    (hrun : (p.run tokens firstId).1 = .ok a) : V a := by
  have hc := h ⟨tokens, firstId, 0, []⟩ ⟨hP, hends, by simp⟩
  unfold Parser.run at hrun
  cases hp : p ⟨tokens, firstId, 0, []⟩ with
  | error e c => simp [hp] at hrun
  | ok b c =>
    rw [hp] at hc hrun
    obtain ⟨-, hnone⟩ | ⟨failure, hsome, -⟩ := Failure.ofList?_syntactic c.errors
    · simp only [hnone, Except.ok.injEq] at hrun
      exact hrun ▸ hc.2
    · simp [hsome] at hrun

/-- What a parser that draws on its tokens fails with. -/
theorem Draws.of_run_error (h : Draws P p V) (hP : ∀ t ∈ tokens, P t)
    (hends : ∃ t ∈ tokens, t.isEnd = true) {firstId : NodeId} {failure : Failure}
    (hrun : (p.run tokens firstId).1 = .error failure) :
    failure.HasForm .parsing ∧ ∃ es : List SyntaxError, failure.diagnostics = es.map .syntactic ∧
      ∀ e ∈ es, P e.token := by
  have hc := h ⟨tokens, firstId, 0, []⟩ ⟨hP, hends, by simp⟩
  unfold Parser.run at hrun
  cases hp : p ⟨tokens, firstId, 0, []⟩ with
  | error e c =>
    rw [hp] at hc hrun
    obtain ⟨hform, hdiagnostics⟩ := Failure.endingIn_syntactic e c.errors
    obtain rfl := Except.error.inj hrun
    exact ⟨hform, c.errors ++ [e], hdiagnostics, (hc.1.report hc.2).errors⟩
  | ok b c =>
    rw [hp] at hc hrun
    obtain ⟨-, hnone⟩ | ⟨failure', hsome, hform, hdiagnostics⟩ :=
      Failure.ofList?_syntactic c.errors
    · simp [hnone] at hrun
    · simp only [hsome, Except.error.injEq] at hrun
      exact hrun ▸ ⟨hform, c.errors, hdiagnostics, hc.1.errors⟩

end Parser

namespace Traced

variable {α : Type} {p : Traced α} {tokens : List Token} {firstId nextId : NodeId}

end Traced

/-! ## Places -/

/-- Whether a token is one of those into which some sources are cut. -/
def Token.IsOf (sources : List String) (t : Token) : Prop :=
  ∃ source ∈ sources, t ∈ (lex source).tokens

/-- Whether a diagnostic points into some sources: at the line of a place in one of them,
or at a token. -/
def Diagnostic.PointsInto (sources : List String) : Diagnostic → Prop
  | .lexical e => ∃ source ∈ sources, ∃ before rest, source.toList = before ++ rest ∧
      e.line = 1 + newlines before
  | .syntactic e => e.token.IsOf sources
  | .scoping e => e.token.IsOf sources
  | .runtime e => e.token.IsOf sources

theorem Token.IsOf.mono {sources sources' : List String} {t : Token} (h : t.IsOf sources)
    (hsub : sources ⊆ sources') : t.IsOf sources' := by
  obtain ⟨source, hmem, ht⟩ := h
  exact ⟨source, hsub hmem, ht⟩

theorem Diagnostic.PointsInto.mono {sources sources' : List String} {d : Diagnostic}
    (h : d.PointsInto sources) (hsub : sources ⊆ sources') : d.PointsInto sources' := by
  cases d with
  | lexical e =>
    obtain ⟨source, hmem, hplace⟩ := h
    exact ⟨source, hsub hmem, hplace⟩
  | _ => exact Token.IsOf.mono h hsub

namespace Session

variable {s s' : Session} {limits : Limits} {source : String} {sources given : List String}
  {failure : Failure}

/-- The sources that a session was given, the last one first. -/
inductive Given : List String → Session → Prop
  | fresh : Given [] .fresh
  | run {given : List String} {s s' : Session} {limits : Limits} {source : String}
      {result : Except Failure Unit} (h : Given given s)
      (hrun : s.run limits source = some (result, s')) : Given (source :: given) s'
  | evaluate {given : List String} {s s' : Session} {limits : Limits} {source : String}
      {result : Except Failure Value} (h : Given given s)
      (heval : s.evaluate limits source = some (result, s')) : Given (source :: given) s'

/-- Whether a source fails, as a program or as an expression. -/
inductive Fails (s : Session) (limits : Limits) (source : String) : Failure → Prop
  | run {failure : Failure} {s' : Session}
      (h : s.run limits source = some (.error failure, s')) : Fails s limits source failure
  | evaluate {failure : Failure} {s' : Session}
      (h : s.evaluate limits source = some (.error failure, s')) : Fails s limits source failure

/-- The machine that a source which is accepted starts, and the table that it starts with. -/
inductive Starts (s : Session) (source : String) : {goal : Yield} → Task goal → BindingTable → Prop
  | program {program : List Stmt} {table : BindingTable} {nextId : NodeId}
      (h : s.Accepts source program table nextId) :
      Starts s source (Machine.program program) (s.state.table.merge table)
  | expression {tokens : List Token} {e : Expr} {nextId : NodeId}
      (hlex : (lex source).toExcept = .ok tokens)
      (hparse : parseExpression tokens s.nextId = (.ok e, nextId)) :
      Starts s source (Machine.expression e) s.state.table

theorem tokens_of_lex {tokens : List Token} (h : (lex source).toExcept = .ok tokens)
    (hmem : source ∈ sources) : ∀ t ∈ tokens, t.IsOf sources :=
  fun t ht => ⟨source, hmem, by rwa [Lexing.toExcept_eq_ok h]⟩

theorem program_madeOf {tokens : List Token} (hlex : (lex source).toExcept = .ok tokens)
    (hmem : source ∈ sources) {firstId : NodeId} {program : List Stmt}
    (h : (parseProgram tokens firstId).1 = .ok program) :
    Stmt.AllMadeOf (Token.IsOf sources) program :=
  (Parser.program_draws _).of_run_ok (tokens_of_lex hlex hmem) (ends_of_lex hlex) h

theorem expression_madeOf {tokens : List Token} (hlex : (lex source).toExcept = .ok tokens)
    (hmem : source ∈ sources) {firstId : NodeId} {e : Expr}
    (h : (parseExpression tokens firstId).1 = .ok e) : e.MadeOf (Token.IsOf sources) :=
  (Parser.wholeExpression_draws _).of_run_ok (tokens_of_lex hlex hmem) (ends_of_lex hlex) h

theorem Starts.madeOf {goal : Yield} {task : Task goal} {table : BindingTable}
    (h : s.Starts source task table) (hmem : source ∈ sources)
    (hstore : s.state.store.All (Holding.MadeOf (Token.IsOf sources))) :
    Machine.MadeOf (Token.IsOf sources) task { s.state with table } := by
  cases h with
  | program haccepts =>
    obtain ⟨tokens, hlex, hparse⟩ := haccepts.accepted
    exact Machine.madeOf_program hstore (program_madeOf hlex hmem (by rw [hparse]))
  | expression hlex hparse =>
    exact Machine.madeOf_expression hstore (expression_madeOf hlex hmem (by rw [hparse]))

/-- All code that a session has stored is of the sources that it was given. -/
theorem Given.madeOf (h : Given given s) (hgiven : given ⊆ sources) :
    s.state.store.All (Holding.MadeOf (Token.IsOf sources)) := by
  induction h with
  | fresh => exact Store.all_initial _
  | run _ hrun ih =>
    obtain ⟨hmem, hsub⟩ := List.cons_subset.mp hgiven
    obtain ⟨nextId, -, rfl⟩ | ⟨program, table, nextId, outcome, haccepts, hmachine, -⟩ :=
      run_cases hrun
    · exact ih hsub
    · exact ((Starts.program haccepts).madeOf hmem (ih hsub)).run hmachine |>.1
  | evaluate _ heval ih =>
    obtain ⟨hmem, hsub⟩ := List.cons_subset.mp hgiven
    obtain ⟨nextId, -, rfl⟩ | ⟨tokens, e, nextId, outcome, hlex, hparse, hmachine, -⟩ :=
      evaluate_cases heval
    · exact ih hsub
    · exact ((Starts.expression hlex hparse).madeOf hmem (ih hsub)).run hmachine |>.1

/-! ## Failures of sessions -/

end Session

end Lox
