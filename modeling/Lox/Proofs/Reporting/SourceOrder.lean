import Lox.Proofs.Incremental.MovedWalk
import Lox.Proofs.Reporting.Binding
import Lox.Proofs.Reporting.Reading

/-!
# Diagnostics follow the source

The diagnostics of a parse and of binding names stand in the order of the tokens that they
blame, so their lines do not fall, and the line of a failure is the least of them. There are
three exceptions: a missing target is told behind what is told in the value that is assigned,
and names are bound in a value before the object whose property it becomes, and in the body of
a `for` loop before the increment.
-/

namespace Lox

variable {tokens : List Token} {firstId nextId : NodeId} {failure : Failure}

/-! ## Tokens on the lines of their places -/

/-- What is read on the lines of the places is what is read, but for the lines. -/
theorem parseProgram_placed (hends : ∃ t ∈ tokens, t.isEnd = true) :
    parseProgram tokens firstId = Parser.moveAnswer (.back tokens)
      (List.map (Stmt.move (.back tokens))) (parseProgram (placed tokens) firstId) := by
  have hmove := parseProgram_move (.back tokens) (ends_placed hends) firstId
  rwa [map_move_back] at hmove

theorem parseExpression_placed (hends : ∃ t ∈ tokens, t.isEnd = true) :
    parseExpression tokens firstId = Parser.moveAnswer (.back tokens)
      (Expr.move (.back tokens)) (parseExpression (placed tokens) firstId) := by
  have hmove := parseExpression_move (.back tokens) (ends_placed hends) firstId
  rwa [map_move_back] at hmove

namespace Parser

variable {α : Type} {g : α → α} {answer : Except Failure α × NodeId}

theorem of_moveAnswer_error
    (h : moveAnswer (.back tokens) g answer = (.error failure, nextId)) :
    ∃ f, answer = (.error f, nextId) ∧ failure = f.move (.back tokens) := by
  obtain ⟨a | f, id⟩ := answer
  · cases h
    exact ⟨_, rfl, rfl⟩
  · cases h

theorem of_moveAnswer_ok {a : α} (h : moveAnswer (.back tokens) g answer = (.ok a, nextId)) :
    ∃ b, answer = (.ok b, nextId) ∧ a = g b := by
  obtain ⟨f | b, id⟩ := answer
  · cases h
  · cases h
    exact ⟨b, rfl, rfl⟩

end Parser

theorem Failure.diagnostics_move (μ : Move) (f : Failure) :
    (f.move μ).diagnostics = f.diagnostics.map (Diagnostic.move μ) := by
  cases f <;> rfl

/-- What binding the names of a program on other lines reports, it reports where they are. -/
theorem resolve_of_move {μ : Move} {program : List Stmt}
    (h : resolve (program.map (Stmt.move μ)) = .error failure) :
    ∃ f, resolve program = .error f ∧ failure = f.move μ := by
  have hnone : resolve [] = .ok (BindingTable.addAll ∅ [].reverse) := rfl
  cases hresolve : resolve program with
  | error f =>
    have hmoved := resolve_behind_error (μ := μ) hnone trivial .nil hresolve
    exact ⟨f, rfl, Except.error.inj (h.symm.trans hmoved)⟩
  | ok table =>
    obtain ⟨joint, hmoved, -⟩ := resolve_behind_ok (μ := μ) hnone trivial .nil hresolve
    cases h.symm.trans hmoved

/-! ## Failures -/

/-- Whether a failure tells, up to lines, what a stage reports of the tokens of a source on
the lines of their places, and tells it in the order of the tokens, except for some pairs. -/
def Failure.InSourceOrder {Cause : Type} (failure : Failure) (tokens : List Token)
    (report : Blame Cause → Diagnostic) (exempt : Blame Cause → Blame Cause → Prop)
    (f : Failure) : Prop :=
  ∃ bs, f.diagnostics = bs.map report ∧ failure.Follows tokens report exempt bs

variable {source : String}

/-- What a parser reports is in the order of its tokens. -/
theorem Traced.Orders.inSourceOrder {α : Type} {p : Traced α} {f : Failure} (hp : p.Orders (· ≤ ·))
    (hlex : (lex source).toExcept = .ok tokens)
    (hrun : (p.parser.run (placed tokens) firstId).1 = .error f) :
    (f.move (.back tokens)).InSourceOrder tokens .syntactic (IsInUntargeted (placed tokens)) f := by
  obtain ⟨bs, hdiagnostics, hne, hmem, horder⟩ :=
    hp.of_run_error pairwise_placed (ends_placed (ends_of_lex hlex)) hrun
  refine ⟨bs, hdiagnostics, .of_order (lines_of_lex hlex) (fun _ => rfl) hne ?_ hmem horder⟩
  rw [Failure.diagnostics_move, hdiagnostics, List.map_map]
  rfl

/-- What binding the names of a program reports is in the order of its tokens. -/
theorem resolve_inSourceOrder {program : List Stmt} {f : Failure}
    (hlex : (lex source).toExcept = .ok tokens)
    (hparse : parseProgram (placed tokens) firstId = (.ok program, nextId))
    (hresolve : resolve program = .error f) :
    (f.move (.back tokens)).InSourceOrder tokens .scoping
      (IsTurned (placed tokens) (sites program)) f := by
  obtain ⟨read, line, rfl, hread⟩ := lex_body hlex
  obtain ⟨body, eof, hplaced, heof, hbody⟩ :=
    placed_body (rfl : (Token.endOfInput line).isEnd = true) hread
  have hrising : Rising (body ++ [eof]) := hplaced ▸ pairwise_placed.imp Nat.le_of_lt
  have hwritten : Stmt.AllWrittenIn program body :=
    writtenIn_of_parseProgram heof hbody (hplaced ▸ hparse)
  have htold := told_breaches hrising (List.sublist_append_left body [eof]) hwritten
  have hdiagnostics := (resolve_reports_breaches program).2 f hresolve
  refine ⟨breaches program, hdiagnostics, .of_order (lines_of_lex hlex) (fun _ => rfl) ?_ ?_ ?_
    (hplaced ▸ htold.order)⟩
  · exact (breaches_ne_nil_iff program).mpr ((resolve_reports_breaches program).1.mp ⟨f, hresolve⟩)
  · rw [Failure.diagnostics_move, hdiagnostics, List.map_map]
    rfl
  · intro b hb
    rw [hplaced]
    exact List.mem_append_left _ (htold.among b hb)

/-- What is told of a source is told in the order of its tokens, except that a missing target is
told behind what is told in the value that is assigned, and that names are bound in a value
before the object whose property it becomes, and in the body of a `for` loop before the increment.
But for these, lines do not fall, and the line of a failure is the least of them. -/
theorem diagnostics_follow_source (source : String) (tokens : List Token) (firstId : NodeId)
    (hlex : (lex source).toExcept = .ok tokens) :
    (∀ failure nextId, parseProgram tokens firstId = (.error failure, nextId) →
      ∃ f, parseProgram (placed tokens) firstId = (.error f, nextId) ∧
        failure.InSourceOrder tokens .syntactic (IsInUntargeted (placed tokens)) f) ∧
    (∀ failure nextId, parseExpression tokens firstId = (.error failure, nextId) →
      ∃ f, parseExpression (placed tokens) firstId = (.error f, nextId) ∧
        failure.InSourceOrder tokens .syntactic (IsInUntargeted (placed tokens)) f) ∧
    ∀ program nextId failure, parseProgram tokens firstId = (.ok program, nextId) →
      resolve program = .error failure →
        ∃ program' f, parseProgram (placed tokens) firstId = (.ok program', nextId) ∧
          resolve program' = .error f ∧
          failure.InSourceOrder tokens .scoping
            (IsTurned (placed tokens) (sites program')) f := by
  have hends := ends_of_lex hlex
  refine ⟨fun failure nextId h => ?_, fun failure nextId h => ?_,
    fun program nextId failure h hresolve => ?_⟩
  · rw [parseProgram_placed hends] at h
    obtain ⟨f, hplaced, rfl⟩ := Parser.of_moveAnswer_error h
    refine ⟨f, hplaced, ?_⟩
    rw [parseProgram, ← Traced.parser_program] at hplaced
    exact (Traced.Orders.composesDeclarations.program _).inSourceOrder hlex
      (congrArg Prod.fst hplaced)
  · rw [parseExpression_placed hends] at h
    obtain ⟨f, hplaced, rfl⟩ := Parser.of_moveAnswer_error h
    refine ⟨f, hplaced, ?_⟩
    rw [parseExpression, ← Traced.parser_wholeExpression] at hplaced
    exact (Traced.Orders.composesDeclarations.wholeExpression _).inSourceOrder hlex
      (congrArg Prod.fst hplaced)
  · rw [parseProgram_placed hends] at h
    obtain ⟨program', hplaced, rfl⟩ := Parser.of_moveAnswer_ok h
    obtain ⟨f, hf, rfl⟩ := resolve_of_move hresolve
    exact ⟨program', f, hplaced, hf, resolve_inSourceOrder hlex hplaced hf⟩

/-- A program and an expression in which a value has no target in a value that has none, and a
program in which a receiver is missing in an object and in the value for its property. -/
theorem diagnostics_follow_source_turned :
    (∃ tokens failure nextId f, (lex "nil =\nnil =\nnil;").toExcept = .ok tokens ∧
      parseProgram tokens 0 = (.error failure, nextId) ∧
      parseProgram (placed tokens) 0 = (.error f, nextId) ∧
      failure.InSourceOrder tokens .syntactic (IsInUntargeted (placed tokens)) f) ∧
    (∃ tokens failure nextId f, (lex "nil =\nnil =\nnil").toExcept = .ok tokens ∧
      parseExpression tokens 0 = (.error failure, nextId) ∧
      parseExpression (placed tokens) 0 = (.error f, nextId) ∧
      failure.InSourceOrder tokens .syntactic (IsInUntargeted (placed tokens)) f) ∧
    ∃ tokens program nextId failure program' f, (lex "this.a =\nthis;").toExcept = .ok tokens ∧
      parseProgram tokens 0 = (.ok program, nextId) ∧ resolve program = .error failure ∧
      parseProgram (placed tokens) 0 = (.ok program', nextId) ∧ resolve program' = .error f ∧
      failure.InSourceOrder tokens .scoping (IsTurned (placed tokens) (sites program')) f := by
  refine ⟨?_, ?_, ?_⟩
  · obtain ⟨tokens, failure, nextId, hlex, hparse⟩ : ∃ tokens failure nextId,
        (lex "nil =\nnil =\nnil;").toExcept = .ok tokens ∧
        parseProgram tokens 0 = (.error failure, nextId) := ⟨_, _, _, by cbv, by cbv⟩
    obtain ⟨f, hf⟩ := (diagnostics_follow_source _ tokens 0 hlex).1 failure nextId hparse
    exact ⟨tokens, failure, nextId, f, hlex, hparse, hf⟩
  · obtain ⟨tokens, failure, nextId, hlex, hparse⟩ : ∃ tokens failure nextId,
        (lex "nil =\nnil =\nnil").toExcept = .ok tokens ∧
        parseExpression tokens 0 = (.error failure, nextId) := ⟨_, _, _, by cbv, by cbv⟩
    obtain ⟨f, hf⟩ := (diagnostics_follow_source _ tokens 0 hlex).2.1 failure nextId hparse
    exact ⟨tokens, failure, nextId, f, hlex, hparse, hf⟩
  · obtain ⟨tokens, program, nextId, failure, hlex, hparse, hresolve⟩ :
        ∃ tokens program nextId failure, (lex "this.a =\nthis;").toExcept = .ok tokens ∧
        parseProgram tokens 0 = (.ok program, nextId) ∧ resolve program = .error failure :=
      ⟨_, _, _, _, by cbv, by cbv, by cbv⟩
    obtain ⟨program', f, hf⟩ :=
      (diagnostics_follow_source _ tokens 0 hlex).2.2 program nextId failure hparse hresolve
    exact ⟨tokens, program, nextId, failure, program', f, hlex, hparse, hresolve, hf⟩

/-- A missing target in a value, an object whose property gets a value, and an increment, each
told behind what is written after it: the lines fall, and the first one is not the least. -/
theorem diagnostics_out_of_order :
    (∃ tokens failure nextId, (lex "nil =\nnil =\nnil;").toExcept = .ok tokens ∧
      parseProgram tokens 0 = (.error failure, nextId) ∧
      failure.diagnostics.map Diagnostic.line = [2, 1] ∧ failure.line? = some 2) ∧
    (∃ tokens failure nextId, (lex "nil =\nnil =\nnil").toExcept = .ok tokens ∧
      parseExpression tokens 0 = (.error failure, nextId) ∧
      failure.diagnostics.map Diagnostic.line = [2, 1] ∧ failure.line? = some 2) ∧
    (∃ tokens program nextId failure, (lex "this.a =\nthis;").toExcept = .ok tokens ∧
      parseProgram tokens 0 = (.ok program, nextId) ∧ resolve program = .error failure ∧
      failure.diagnostics.map Diagnostic.line = [2, 1] ∧ failure.line? = some 2) ∧
    (∃ tokens program nextId failure, (lex "for (;; this)\nthis;").toExcept = .ok tokens ∧
      parseProgram tokens 0 = (.ok program, nextId) ∧ resolve program = .error failure ∧
      failure.diagnostics.map Diagnostic.line = [2, 1] ∧ failure.line? = some 2) ∧
    ¬ [2, 1].Pairwise (· ≤ ·) :=
  ⟨⟨_, _, _, by cbv, by cbv, by cbv, by cbv⟩, ⟨_, _, _, by cbv, by cbv, by cbv, by cbv⟩,
    ⟨_, _, _, _, by cbv, by cbv, by cbv, by cbv, by cbv⟩,
    ⟨_, _, _, _, by cbv, by cbv, by cbv, by cbv, by cbv⟩, by decide⟩

end Lox
