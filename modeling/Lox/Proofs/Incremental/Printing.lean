import Lox.Proofs.Activation.Outcomes
import Lox.Proofs.History.Mentions
import Lox.Proofs.Incremental.Parsing
import Lox.Proofs.Incremental.Lexing
import Mathlib

/-!
# Printing instead of evaluating

A source that is an expression can be evaluated, and it can be made a program that
prints its value. The program is read with the same tree and the same numbers. No
scope is open around the tree, so the walk over it finds out nothing; and the machine
does for the program what it does for the expression, and then prints.

## Implementation notes

The semicolon stands on a line of its own, where no comment of the source can hide it.
A receiver cannot be printed in this way: the walk rejects it outside of a class, while
an evaluation looks for it among the globals.
-/

namespace Lox

/-! ## The source -/

/-- The program that prints the value of an expression. -/
def printing (source : String) : String :=
  "print " ++ source ++ "\n;"

/-- The word in front of a source is cut off as a token on the first line. -/
theorem lex_print_append (source : String) :
    lex ("print " ++ source) = (lex source).cons ⟨.keyword .print, "print", 1⟩ := by
  have hword (more : List Char) : Chunk.first 'p' ("rint ".toList ++ more) =
      .lexeme (.keyword .print) "print".toList (' ' :: more) := by
    rfl
  have hblank (more : List Char) : Chunk.first ' ' more = .blank [' '] more := rfl
  have hsource : ("print " ++ source).toList = 'p' :: ("rint ".toList ++ source.toList) := by
    simp
  rw [lex, hsource, lexFrom_lexeme _ (hword _), lexFrom_blank _ (hblank _)]
  rfl

/-- The program has the tokens of the expression on their lines, between two others. -/
theorem lex_printing {source : String} {tokens : List Token}
    (h : (lex source).toExcept = .ok tokens) :
    ∃ body line, tokens = body ++ [.endOfInput line] ∧ (∀ t ∈ body, t.isEnd = false) ∧
      (lex (printing source)).toExcept = .ok (⟨.keyword .print, "print", 1⟩ :: body ++
        [⟨.symbol .semicolon, ";", 1 + linesOf source⟩, .endOfInput (1 + linesOf source)]) := by
  obtain ⟨body, line, rfl, hbody, hcut⟩ := lex_append h ";"
  have hlast : lex ";" = ⟨[⟨.symbol .semicolon, ";", 1⟩, .endOfInput 1], none⟩ := by cbv
  have hsource : printing source = "print " ++ (source ++ "\n" ++ ";") := by
    simp only [printing, String.append_assoc]
    rfl
  refine ⟨body, line, rfl, hbody, ?_⟩
  rw [hsource, lex_print_append, hcut, hlast]
  rfl

/-! ## The tree -/

namespace Parser

variable {a b : Nat} {ts : List Token} {nextId lastId : NodeId} {e : Expr}

/-- An expression that is all there is is read in the same way in front of a semicolon. -/
theorem wholeExpression_copies (h : a ≤ b) :
    (wholeExpression a).Meets fun c e c' => ∃ w, c.rest = w ++ c'.rest ∧
      ∀ rest errors, next rest = .symbol .semicolon →
        expression b ⟨w ++ rest, c.nextId, c.depth, errors⟩ =
          .ok e ⟨rest, c'.nextId, c.depth, errors⟩ := by
  rw [Parser.wholeExpression]
  refine .bind (copiesExpressions h).expression fun e => .bind atEnd_meets.result fun ends =>
    .ite (fun hends => ?_) (fun _ => refuse_meets _ _)
  refine .pure _ fun c₂ c₁ _ h₁ c _ h₀ => ?_
  obtain ⟨rfl, hread⟩ := h₁
  obtain ⟨w, hw, -, hcopy⟩ := h₀
  simp only [Parser.atEnd, EStateM.Result.ok.injEq] at hread
  have hend : next c₂.rest = .endOfInput := Cursor.atEnd_iff.mp (hread.1.trans hends)
  exact ⟨w, hw, fun rest errors hnext => hcopy rest errors (.inr ⟨hend, hnext⟩)⟩

/-- The tokens of an expression are read in front of a semicolon. -/
theorem expression_of_run {body more : List Token} {eof : Token} (heof : eof.isEnd = true)
    (hbody : ∀ t ∈ body, t.isEnd = false)
    (h : parseExpression (body ++ [eof]) nextId = (.ok e, lastId))
    (hb : fuelFor (body ++ [eof]) ≤ b) (hmore : next more = .symbol .semicolon) :
    expression b ⟨body ++ more, nextId, 0, []⟩ = .ok e ⟨more, lastId, 0, []⟩ := by
  obtain ⟨c, rfl, hcopy⟩ :=
    (wholeExpression_reads _).run_all (wholeExpression_copies hb) heof hbody h
  exact hcopy more [] hmore

section

variable {rest : List Token} {depth : Nat} {errors : List SyntaxError} {word semicolon : String}
  {line last : Nat}
  (h : expression b ⟨ts, nextId, depth, errors⟩ =
    .ok e ⟨⟨.symbol .semicolon, semicolon, last⟩ :: rest, lastId, depth, errors⟩)

include h

/-- What is read as an expression up to a semicolon can be printed. -/
theorem statement_print :
    statement (b + 1) ⟨⟨.keyword .print, word, line⟩ :: ts, nextId, depth, errors⟩ =
      .ok (.print e) ⟨rest, lastId, depth, errors⟩ := by
  have hword : statement (b + 1) ⟨⟨.keyword .print, word, line⟩ :: ts, nextId, depth, errors⟩ =
      (do
        let value ← expression b
        let _ ← expectSymbol .semicolon .afterPrintedValue
        return .print value : Parser Stmt) ⟨ts, nextId, depth, errors⟩ := by
    rw [Parser.statement]
    rfl
  rw [hword]
  simp only [Bind.bind, EStateM.bind, h]
  rfl

theorem declaration_print :
    declaration (b + 2) ⟨⟨.keyword .print, word, line⟩ :: ts, nextId, depth, errors⟩ =
      .ok (some (.print e)) ⟨rest, lastId, depth, errors⟩ := by
  have hword :
      declaration (b + 2) ⟨⟨.keyword .print, word, line⟩ :: ts, nextId, depth, errors⟩ =
        recovering (statement (b + 1))
          ⟨⟨.keyword .print, word, line⟩ :: ts, nextId, depth, errors⟩ := by
    rw [Parser.declaration]
    rfl
  rw [hword, recovering, statement_print h]

theorem program_print {eof : Token} (heof : eof.isEnd = true) (hrest : rest = [eof]) :
    program (b + 3) ⟨⟨.keyword .print, word, line⟩ :: ts, nextId, depth, errors⟩ =
      .ok [.print e] ⟨[eof], lastId, depth, errors⟩ := by
  subst hrest
  have hword : program (b + 3) ⟨⟨.keyword .print, word, line⟩ :: ts, nextId, depth, errors⟩ =
      (do
        let first ← declaration (b + 2)
        let others ← program (b + 2)
        return first.toList ++ others : Parser (List Stmt))
          ⟨⟨.keyword .print, word, line⟩ :: ts, nextId, depth, errors⟩ := by
    rw [Parser.program]
    rfl
  have hends : program (b + 2) ⟨[eof], lastId, depth, errors⟩ =
      .ok [] ⟨[eof], lastId, depth, errors⟩ := by
    have hend : Cursor.atEnd ⟨[eof], lastId, depth, errors⟩ = true := heof
    rw [Parser.program]
    simp only [Bind.bind, EStateM.bind, Parser.atEnd, hend, if_true]
    rfl
  rw [hword]
  simp only [Bind.bind, EStateM.bind, declaration_print h, hends]
  rfl

end

end Parser

/-- The tokens of an expression are read as what is to be printed. -/
theorem parseProgram_print {body : List Token} {eof eof' : Token} {firstId nextId : NodeId}
    {e : Expr} (heof : eof.isEnd = true) (hbody : ∀ t ∈ body, t.isEnd = false)
    (h : parseExpression (body ++ [eof]) firstId = (.ok e, nextId)) (heof' : eof'.isEnd = true)
    (word semicolon : String) (line last : Nat) :
    parseProgram (⟨.keyword .print, word, line⟩ :: body ++
      [⟨.symbol .semicolon, semicolon, last⟩, eof']) firstId = (.ok [.print e], nextId) := by
  obtain ⟨b, hb, hfuel⟩ : ∃ b, Parser.fuelFor (body ++ [eof]) ≤ b ∧
      Parser.fuelFor (⟨.keyword .print, word, line⟩ :: body ++
        [⟨.symbol .semicolon, semicolon, last⟩, eof']) = b + 3 := by
    refine ⟨20 * (body.length + 4) - 3, ?_, ?_⟩ <;>
      simp only [Parser.fuelFor, Parser.callsPerToken, List.length_append, List.length_cons,
        List.length_nil] <;>
      omega
  have hexpression := Parser.expression_of_run heof hbody h hb
    (show next [⟨.symbol .semicolon, semicolon, last⟩, eof'] = .symbol .semicolon from rfl)
  rw [parseProgram, hfuel, Parser.run, List.cons_append,
    Parser.program_print hexpression heof' rfl]
  rfl

/-! ## Words for receivers -/

/-- Whether what a rule derives as expressions mentions no receiver. -/
def Rule.MentionsNone : (r : Rule) → r.Tree → Prop
  | .primary, e | .call, e | .unary, e | .operand _, e | .tier _, e | .assignment, e
  | .expression, e => Expr.mentions 0 e = []
  | .moreArguments, es | .arguments, es => Expr.mentionsAll 0 es = []
  | _, _ => True

/-- Whether a token is neither of the words for receivers. -/
def Token.IsNoReceiver (t : Token) : Prop :=
  t.kind ≠ .keyword .this ∧ t.kind ≠ .keyword .super

/-- What is derived from tokens mentions a receiver only if they do. -/
theorem Derives.mentions_eq_nil {nearest : Prop} {r : Rule} {room : Nat} {w : List Token}
    {tree : r.Tree} (h : Derives nearest r room w tree) (hw : ∀ t ∈ w, t.IsNoReceiver) :
    r.MentionsNone tree := by
  induction h with
  | this ht => exact absurd ht (hw _ List.mem_cons_self).1
  | super hs => exact absurd hs (hw _ List.mem_cons_self).2
  | @operator _ _ _ o _ _ _ node _ hop _ ih ih' =>
    simp only [List.forall_mem_append, List.forall_mem_cons] at hw
    have hnode (left right : Expr) :
        (node o left right).mentions 0 = left.mentions 0 ++ right.mentions 0 := by
      generalize o.kind = k at hop
      cases hop <;> rfl
    exact (hnode _ _).trans (List.append_eq_nil_iff.mpr ⟨ih hw.1, ih' hw.2.2⟩)
  | _ => simp_all [Rule.MentionsNone, Expr.mentions, Expr.mentionsAll, or_imp, forall_and]

mutual

theorem Expr.words_unnumbered (depth : Nat) : ∀ e : Expr,
    (e.unnumbered.mentions depth).map Mention.word = (e.mentions depth).map Mention.word
  | .literal _ | .variable _ | .receiver _ | .inherited _ _ => rfl
  | .grouping e | .unary _ _ e | .assign _ e | .get e _ => Expr.words_unnumbered depth e
  | .binary _ _ l r | .logical _ _ l r | .set l _ r => by
    simp only [Expr.unnumbered, Expr.mentions, List.map_append, Expr.words_unnumbered depth l,
      Expr.words_unnumbered depth r]
  | .call c _ as => by
    simp only [Expr.unnumbered, Expr.mentions, List.map_append, Expr.words_unnumbered depth c,
      Expr.words_unnumberedAll depth as]

theorem Expr.words_unnumberedAll (depth : Nat) : ∀ es : List Expr,
    (Expr.mentionsAll depth (Expr.unnumberedAll es)).map Mention.word =
      (Expr.mentionsAll depth es).map Mention.word
  | [] => rfl
  | e :: es => by
    simp only [Expr.unnumberedAll, Expr.mentionsAll, List.map_append,
      Expr.words_unnumbered depth e, Expr.words_unnumberedAll depth es]

end

mutual

/-- Outside all scopes there is nothing to find out about an expression that mentions no
receiver, and nothing to report. -/
theorem Expr.walk_eq_self {w : Walk} (hw : w.scopes = []) : ∀ e : Expr,
    e.mentions 0 = [] → e.walk w = w
  | .literal _, _ => rfl
  | .variable target, _ => by
    have hready : w.isUnready target.name = false := by
      rw [Walk.isUnready, hw]
    rw [Expr.walk, hready, Walk.reportIf, if_neg Bool.false_ne_true, Walk.lookUp, hw]
    rfl
  | .receiver _, h => absurd h (List.cons_ne_nil _ _)
  | .inherited _ _, h => absurd h (List.cons_ne_nil _ _)
  | .grouping e, h => Expr.walk_eq_self hw e h
  | .unary _ _ e, h => Expr.walk_eq_self hw e h
  | .binary _ _ l r, h => by
    obtain ⟨hl, hr⟩ := List.append_eq_nil_iff.mp h
    rw [Expr.walk, Expr.walk_eq_self hw l hl, Expr.walk_eq_self hw r hr]
  | .logical _ _ l r, h => by
    obtain ⟨hl, hr⟩ := List.append_eq_nil_iff.mp h
    rw [Expr.walk, Expr.walk_eq_self hw l hl, Expr.walk_eq_self hw r hr]
  | .assign target e, h => by
    rw [Expr.walk, Expr.walk_eq_self hw e h, Walk.lookUp, hw]
    rfl
  | .get e _, h => Expr.walk_eq_self hw e h
  | .set o _ v, h => by
    obtain ⟨ho, hv⟩ := List.append_eq_nil_iff.mp h
    rw [Expr.walk, Expr.walk_eq_self hw v hv, Expr.walk_eq_self hw o ho]
  | .call c _ as, h => by
    obtain ⟨hc, has⟩ := List.append_eq_nil_iff.mp h
    rw [Expr.walk, Expr.walk_eq_self hw c hc, Expr.walkAll_eq_self hw as has]

theorem Expr.walkAll_eq_self {w : Walk} (hw : w.scopes = []) : ∀ es : List Expr,
    Expr.mentionsAll 0 es = [] → Expr.walkAll es w = w
  | [], _ => rfl
  | e :: es, h => by
    obtain ⟨he, hes⟩ := List.append_eq_nil_iff.mp h
    rw [Expr.walkAll, Expr.walk_eq_self hw e he, Expr.walkAll_eq_self hw es hes]

end

/-- Nothing is found out about a program that prints such an expression. -/
theorem resolve_print {e : Expr} (h : e.mentions 0 = []) : resolve [.print e] = .ok ∅ := by
  have hwalk : Stmt.walkAll [.print e] .start = .start := e.walk_eq_self rfl h
  rw [resolve, hwalk]
  rfl

/-- An expression that is read from tokens without receivers mentions none. -/
theorem mentions_eq_nil_of_parseExpression {body : List Token} {eof : Token}
    {firstId nextId : NodeId} {e : Expr} (heof : eof.isEnd = true)
    (hbody : ∀ t ∈ body, t.isEnd = false)
    (h : parseExpression (body ++ [eof]) firstId = (.ok e, nextId))
    (hwords : ∀ t ∈ body, t.IsNoReceiver) : e.mentions 0 = [] := by
  have hnone : e.unnumbered.mentions 0 = [] :=
    (parseExpression_sound heof hbody h).mentions_eq_nil hwords
  have hsame := e.words_unnumbered 0
  rw [hnone] at hsame
  exact List.map_eq_nil_iff.mp hsame.symm

/-! ## Runs -/

namespace Session

variable {s : Session} {source : String} {tokens : List Token} {e : Expr} {nextId : NodeId}
  {calls : Nat}

/-- How the evaluation of a source ends, with no count of steps. -/
theorem evaluate_ends_iff (hlex : (lex source).toExcept = .ok tokens)
    (hparse : parseExpression tokens s.nextId = (.ok e, nextId))
    {answer : Except Failure Value × Session} :
    (∃ steps, s.evaluate ⟨calls, steps⟩ source = some answer) ↔
      ∃ res, (Activation.evaluate e).Ends calls s.state res ∧
        answer = (res.1.mapError Failure.ofRuntime, ⟨res.2, nextId⟩) := by
  simp only [evaluate_eq_machine hlex hparse]
  exact Step.exists_run_map_iff

/-- How the run of a source ends, with no count of steps. -/
theorem Accepts.run_ends_iff {program : List Stmt} {table : BindingTable}
    (h : s.Accepts source program table nextId) {answer : Except Failure Unit × Session} :
    (∃ steps, s.run ⟨calls, steps⟩ source = some answer) ↔
      ∃ res, (Step.next (Machine.program program) (s.state.learn table)).Ends calls res ∧
        answer = ((res.1.map fun _ => ()).mapError Failure.ofRuntime, ⟨res.2, nextId⟩) := by
  simp only [h.run_eq_machine]
  exact Step.exists_run_map_iff

/-- A source that is an expression without a receiver can be printed, with nothing to
find out about it. -/
theorem accepts_printing (hlex : (lex source).toExcept = .ok tokens)
    (hparse : parseExpression tokens s.nextId = (.ok e, nextId))
    (hwords : ∀ t ∈ tokens, t.IsNoReceiver) :
    s.Accepts (printing source) [.print e] ∅ nextId := by
  obtain ⟨body, line, rfl, hbody, hprinting⟩ := lex_printing hlex
  rw [List.forall_mem_append] at hwords
  have hmentions := mentions_eq_nil_of_parseExpression rfl hbody hparse hwords.1
  exact ⟨⟨_, hprinting, parseProgram_print rfl hbody hparse rfl _ _ _ _⟩, resolve_print hmentions⟩

/-- What a session answers if it prints the value that it would have answered. -/
def printed : Except Failure Value × Session → Except Failure Unit × Session
  | (.ok v, s) => (.ok (), { s with state := s.state.print (s.state.store.display v) })
  | (.error failure, s) => (.error failure, s)

/-- In every session, a source that is an expression without a receiver can be printed as
well as evaluated. Nothing is found out about it then. The one ends if the other ends, and
in the same way: the value is printed behind what its evaluation has printed, or both fail
with the same error; and the same is left behind. -/
theorem evaluation_agrees_with_printing (hlex : (lex source).toExcept = .ok tokens)
    (hparse : parseExpression tokens s.nextId = (.ok e, nextId))
    (hwords : ∀ t ∈ tokens, t.IsNoReceiver) :
    s.Accepts (printing source) [.print e] ∅ nextId ∧ s.state.learn ∅ = s.state ∧
      ∀ calls answer, (∃ steps, s.run ⟨calls, steps⟩ (printing source) = some answer) ↔
        ∃ value, (∃ steps, s.evaluate ⟨calls, steps⟩ source = some value) ∧
          answer = printed value := by
  have haccepts := accepts_printing hlex hparse hwords
  refine ⟨haccepts, rfl, fun calls answer => ?_⟩
  rw [haccepts.run_ends_iff]
  constructor
  · rintro ⟨⟨r, st⟩, hrun, rfl⟩
    have hprint := (Machine.program_singleton_ends_iff _).mp hrun
    obtain ⟨v, st', hv, hres⟩ | ⟨error, st', herror, hres⟩ :=
      (Activation.print_ends_iff e).mp hprint
    · cases hres
      exact ⟨_, (evaluate_ends_iff hlex hparse).mpr ⟨_, hv, rfl⟩, rfl⟩
    · cases hres
      exact ⟨_, (evaluate_ends_iff hlex hparse).mpr ⟨_, herror, rfl⟩, rfl⟩
  · rintro ⟨value, hvalue, rfl⟩
    obtain ⟨⟨r, st⟩, hends, rfl⟩ := (evaluate_ends_iff hlex hparse).mp hvalue
    cases r with
    | ok v =>
      have hprint := (Activation.print_ends_iff e).mpr (.inl ⟨v, st, hends, rfl⟩)
      exact ⟨_, (Machine.program_singleton_ends_iff _).mpr hprint, rfl⟩
    | error error =>
      have hprint := (Activation.print_ends_iff e).mpr (.inr ⟨error, st, hends, rfl⟩)
      exact ⟨_, (Machine.program_singleton_ends_iff _).mpr hprint, rfl⟩

/-- A function of an earlier source finds its own variable in both ways. -/
theorem evaluation_agrees_with_printing_closure : ∃ s tokens e nextId,
    (∃ steps, fresh.run ⟨9, steps⟩
      "fun f() \x7b var a = \"x\"; fun g() \x7b return a; \x7d return g; \x7d var g = f();" =
        some (.ok (), s)) ∧
    (lex "g() + g()").toExcept = .ok tokens ∧
    parseExpression tokens s.nextId = (.ok e, nextId) ∧ (∀ t ∈ tokens, t.IsNoReceiver) ∧
    ∃ steps last, s.run ⟨9, steps⟩ (printing "g() + g()") = some (.ok (), last) ∧
      last.state.output = "xx\n" := by
  obtain ⟨s, tokens, e, nextId, last, hbefore, hlex, hparse, hwords, hvalue, houtput⟩ :
      ∃ s tokens e nextId last,
        fresh.run ⟨9, 99⟩
          "fun f() \x7b var a = \"x\"; fun g() \x7b return a; \x7d return g; \x7d var g = f();" =
            some (.ok (), s) ∧
        (lex "g() + g()").toExcept = .ok tokens ∧
        parseExpression tokens s.nextId = (.ok e, nextId) ∧ (∀ t ∈ tokens, t.IsNoReceiver) ∧
        s.evaluate ⟨9, 99⟩ "g() + g()" = some (.ok (.string "xx"), last) ∧
        last.state.output = "" :=
    ⟨_, _, _, _, _, by cbv, by cbv, by cbv, by simp [Token.IsNoReceiver], by cbv, by cbv⟩
  obtain ⟨-, -, hagree⟩ := evaluation_agrees_with_printing hlex hparse hwords
  obtain ⟨steps, hrun⟩ := (hagree 9 _).mpr ⟨_, ⟨99, hvalue⟩, rfl⟩
  refine ⟨s, tokens, e, nextId, ⟨99, hbefore⟩, hlex, hparse, hwords, steps, _, hrun, ?_⟩
  change last.state.output ++ "xx" ++ "\n" = "xx\n"
  rw [houtput]
  rfl

end Session

end Lox
