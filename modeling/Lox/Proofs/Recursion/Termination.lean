import Lox.Proofs.Recursion.ServedGrammar

/-!
# Reading comes to an end

A parser is done with any list of tokens, whether it has an end or not, and however
much fuel it is given. It never goes back, declarations that do not parse are left
behind, and a program is read up to the first end. What stands behind that makes no
difference to the answer.
-/

namespace Lox

/-- The cursor that a run starts with. -/
def Cursor.first (tokens : List Token) (firstId : NodeId) : Cursor :=
  ⟨tokens, firstId, 0, []⟩

namespace Traced

variable {α : Type}

/-- Whether a parser that reads all tokens for a routine is never cut, only makes such
calls as a routine makes, and gives an answer. -/
structure Completes (r : Routine) (p : Traced α) (tokens : List Token) (firstId : NodeId)
    (answer : Except Failure α × NodeId) : Prop where
  runs : Runs r 0 tokens (p.calls (.first tokens firstId))
    (p.parser.finish (.first tokens firstId)).rest
  answers : p.parser.run tokens firstId = answer

theorem run_eq_of_sameAnswer {p q : Parser α} {tokens others : List Token} {firstId : NodeId}
    (h : SameAnswer (p (.first tokens firstId)) (q (.first others firstId))) :
    p.run tokens firstId = q.run others firstId := by
  unfold Parser.run
  unfold Cursor.first at h
  generalize p _ = answer, q _ = answer' at h
  cases h with
  | ok hc =>
    obtain ⟨-, hid, -, herrors⟩ := Cursor.upToEnd_eq_iff.mp hc
    simp only [hid, herrors]
  | error hc =>
    obtain ⟨-, hid, -, herrors⟩ := Cursor.upToEnd_eq_iff.mp hc
    simp only [hid, herrors]

/-- Parsers with any fuel that read all tokens for a routine, and their answers. -/
structure ReadsAll (r : Routine) (p : Nat → Traced α) (q : Nat → Parser α) : Prop where
  parser (fuel : Nat) : (p fuel).parser = q fuel
  serves {a b : Nat} : a ≤ b → Serves r a 19 0 (p a) (q b)

theorem program_readsAll : ReadsAll .program program Parser.program :=
  ⟨parser_program, program_serves⟩

theorem wholeExpression_readsAll :
    ReadsAll .wholeExpression wholeExpression Parser.wholeExpression :=
  ⟨parser_wholeExpression, fun h =>
    (wholeExpression_serves h).weaken (by decide) (Nat.le_refl 0)⟩

theorem le_fuelFor (tokens : List Token) : 20 * tokens.length + 19 ≤ Parser.fuelFor tokens := by
  simp only [Parser.fuelFor, Parser.callsPerToken]
  omega

namespace ReadsAll

variable {r : Routine} {p : Nat → Traced α} {q : Nat → Parser α} {tokens others : List Token}

theorem run_eq_of_le (h : ReadsAll r p q) (hsame : upToEnd tokens = upToEnd others) {a b : Nat}
    (ha : Parser.fuelFor tokens ≤ a) (hab : a ≤ b) (firstId : NodeId) :
    (q a).run tokens firstId = (q b).run others firstId := by
  have hfirst : (Cursor.first tokens firstId).upToEnd = (Cursor.first others firstId).upToEnd :=
    Cursor.upToEnd_eq_iff.mpr ⟨hsame, rfl, rfl, rfl⟩
  have hserves := h.serves hab (.first tokens firstId) (Nat.le_trans (le_fuelFor tokens) ha)
  rw [← h.parser a]
  exact run_eq_of_sameAnswer (hserves.agrees _ hfirst)

/-- Lists that are the same up to the end are read alike. -/
theorem run_eq (h : ReadsAll r p q) (hsame : upToEnd tokens = upToEnd others) (firstId : NodeId) :
    (q (Parser.fuelFor tokens)).run tokens firstId =
      (q (Parser.fuelFor others)).run others firstId := by
  obtain hle | hle := Nat.le_total (Parser.fuelFor tokens) (Parser.fuelFor others)
  · exact h.run_eq_of_le hsame (Nat.le_refl _) hle firstId
  · exact (h.run_eq_of_le hsame.symm (Nat.le_refl _) hle firstId).symm

/-- Enough fuel is not used up, and more of it makes no difference. -/
theorem completes (h : ReadsAll r p q) {fuel : Nat} (hfuel : Parser.fuelFor tokens ≤ fuel)
    (firstId : NodeId) :
    (p fuel).Completes r tokens firstId ((q (Parser.fuelFor tokens)).run tokens firstId) := by
  refine ⟨?_, ?_⟩
  · exact (h.serves (Nat.le_refl fuel) (.first tokens firstId)
      (Nat.le_trans (le_fuelFor tokens) hfuel)).runs
  · rw [h.parser fuel]
    exact (h.run_eq_of_le rfl (Nat.le_refl _) hfuel firstId).symm

/-- Whoever is at the end has read up to the first end. -/
theorem rest_eq (h : ReadsAll r p q) {fuel : Nat} (hfuel : Parser.fuelFor tokens ≤ fuel)
    {firstId : NodeId} {a : α} {c : Cursor} (hread : q fuel (.first tokens firstId) = .ok a c)
    (hend : c.atEnd = true) : c.rest = tokens.dropWhile fun t => !t.isEnd := by
  have hruns := (h.completes hfuel firstId).runs
  rw [h.parser fuel, Parser.finish_of_ok hread] at hruns
  exact hruns.onward.eq_dropWhile hend

end ReadsAll

end Traced

/-! ## Programs -/

namespace Parser

/-- What skips a declaration that does not parse does not fail. -/
theorem recovering_ok (p : Parser Stmt) (c : Cursor) : ∃ s d, recovering p c = .ok s d := by
  unfold recovering
  split
  · exact ⟨_, _, rfl⟩
  · exact ⟨_, _, rfl⟩

/-- A program is always read to the end. -/
theorem program_ok (fuel : Nat) (c : Cursor) (hroom : 20 * c.rest.length + 19 ≤ fuel) :
    ∃ ss d, program fuel c = .ok ss d ∧ d.atEnd = true := by
  induction fuel generalizing c with
  | zero => exact absurd hroom (by omega)
  | succ fuel ih =>
    by_cases hend : c.atEnd = true
    · refine ⟨[], c, ?_, hend⟩
      simp only [program, atEnd, hend, Bind.bind, EStateM.bind, if_true]
      rfl
    · obtain ⟨s, d, hs⟩ : ∃ s d, declaration fuel c = .ok s d := by
        cases fuel with
        | zero => exact absurd hroom (by omega)
        | succ fuel => exact recovering_ok _ c
      have hserves : Traced.ServesAt .program 1 (Traced.declaration fuel) (declaration fuel) c :=
        (Traced.servesStatements (Nat.le_refl fuel)).declaration (by decide) c
          (Bool.eq_false_iff.mpr hend) (by omega)
      have hlength : d.rest.length + 1 ≤ c.rest.length := by
        refine hserves.takes s d ?_
        rw [(Traced.erasesStatements _).declaration]
        exact hs
      obtain ⟨ss, d', hss, hend'⟩ := ih d (by omega)
      refine ⟨s.toList ++ ss, d', ?_, hend'⟩
      simp only [program, atEnd, hend, Bind.bind, EStateM.bind, Bool.false_eq_true, if_false, hs,
        hss]
      rfl

theorem atEnd_of_wholeExpression {fuel : Nat} {c d : Cursor} {e : Expr}
    (h : wholeExpression fuel c = .ok e d) : d.atEnd = true := by
  simp only [wholeExpression, Bind.bind, EStateM.bind] at h
  cases he : expression fuel c with
  | error e d => simp [he] at h
  | ok e d' =>
    simp only [he, atEnd] at h
    by_cases hend : d'.atEnd = true
    · simp only [hend, if_true] at h
      cases h
      exact hend
    · simp only [hend] at h
      cases h

end Parser

/-- Reading comes to an end, whatever the tokens are. No amount of fuel from the one on
that a run starts with is used up, nor does it change the answer. The calls never go back,
declarations that are begun before the end take or skip a token, a program is read up to
the first end, and so is an expression that is read without an error. The answer depends
on the tokens up to the first end alone, and an end on line 0 can be left out. -/
theorem parsing_comes_to_an_end (tokens : List Token) (firstId : NodeId) :
    (∀ fuel, Parser.fuelFor tokens ≤ fuel →
      (Traced.program fuel).Completes .program tokens firstId (parseProgram tokens firstId) ∧
      (Traced.wholeExpression fuel).Completes .wholeExpression tokens firstId
        (parseExpression tokens firstId) ∧
      (∃ tree c, Parser.program fuel (.first tokens firstId) = .ok tree c ∧
        c.rest = tokens.dropWhile fun t => !t.isEnd) ∧
      ∀ tree c, Parser.wholeExpression fuel (.first tokens firstId) = .ok tree c →
        c.rest = tokens.dropWhile fun t => !t.isEnd) ∧
    (∀ others, upToEnd tokens = upToEnd others →
      parseProgram tokens firstId = parseProgram others firstId ∧
      parseExpression tokens firstId = parseExpression others firstId) ∧
    ((∀ t ∈ tokens, t.isEnd = false) →
      parseProgram tokens firstId = parseProgram (tokens ++ [.endOfInput 0]) firstId ∧
      parseExpression tokens firstId = parseExpression (tokens ++ [.endOfInput 0]) firstId) := by
  have hprogram := Traced.program_readsAll
  have hexpression := Traced.wholeExpression_readsAll
  refine ⟨fun fuel hfuel => ⟨hprogram.completes hfuel firstId, hexpression.completes hfuel firstId,
    ?_, fun tree c htree => ?_⟩, fun others hsame => ?_, fun hall => ?_⟩
  · obtain ⟨tree, c, htree, hend⟩ := Parser.program_ok fuel (.first tokens firstId)
      (Nat.le_trans (Traced.le_fuelFor tokens) hfuel)
    exact ⟨tree, c, htree, hprogram.rest_eq hfuel htree hend⟩
  · exact hexpression.rest_eq hfuel htree (Parser.atEnd_of_wholeExpression htree)
  · exact ⟨hprogram.run_eq hsame firstId, hexpression.run_eq hsame firstId⟩
  · have hsame : upToEnd tokens = upToEnd (tokens ++ [.endOfInput 0]) := by
      rw [← upToEnd_of_forall hall, upToEnd_upToEnd]
    exact ⟨hprogram.run_eq hsame firstId, hexpression.run_eq hsame firstId⟩

/-- A brace that closes nothing is left behind, and what stands behind the end is not read. -/
theorem parsing_comes_to_an_end_brace :
    let brace : Token := ⟨.symbol .rightBrace, "\x7d", 1⟩
    let tokens : List Token := [brace, .endOfInput 1, brace]
    (∃ tree c, Parser.program (Parser.fuelFor tokens) (.first tokens 0) = .ok tree c ∧
      c.rest = [.endOfInput 1, brace]) ∧
    parseProgram tokens 0 = parseProgram [brace, .endOfInput 1] 0 ∧
    parseProgram [brace] 0 = parseProgram [brace, .endOfInput 0] 0 := by
  intro brace tokens
  obtain ⟨hends, hsame, -⟩ := parsing_comes_to_an_end tokens 0
  obtain ⟨-, -, hall⟩ := parsing_comes_to_an_end [brace] 0
  exact ⟨(hends _ (Nat.le_refl _)).2.2.1, (hsame [brace, .endOfInput 1] rfl).1,
    (hall (by decide)).1⟩

end Lox
