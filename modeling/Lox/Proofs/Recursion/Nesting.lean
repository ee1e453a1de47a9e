import Lox.Proofs.Recursion.Termination
import Lox.Proofs.Syntax.AcceptStatements

/-!
# How deep calls nest

The limit on nesting counts expressions and blocks. Between two of them the routines
of the grammar are called from the loosest to the tightest, which bounds how many calls
can be inside one another, but for three rules that call themselves: an operator before
an operand that has one, an assignment to the value of an assignment, and a statement
that ends in a statement. Nothing counts these, so calls nest without a bound.

## Implementation notes

A `rank` of a routine bounds the calls that nest in a call of it, as long as none of
them is counted and no rule calls itself.
-/

namespace Lox

/-- Whether routines are active at a moment of making calls, each called by the one in
front of it. -/
inductive Nests : List Call → List Routine → Prop
  | nil (calls) : Nests calls []
  | cons {calls r start finish inner rs} : .of r start finish inner ∈ calls → Nests inner rs →
      Nests calls (r :: rs)

namespace Routine

/-- Whether a rule calls itself at the same depth, statements by way of the statement
that they end in. -/
def recurs : (caller callee : Routine) → Bool
  | assignment, assignment => true
  | unary, unary => true
  | forStatement, statement => true
  | ifStatement, statement => true
  | whileStatement, statement => true
  | _, _ => false

/-- How many routines can be active from one on, if none after it is counted and no rule
calls itself. -/
def rank : Routine → Nat
  | program => 5
  | declaration => 4
  | classDeclaration => 2
  | statement => 3
  | forStatement => 2
  | ifStatement => 2
  | whileStatement => 2
  | block => 5
  | expression => 11
  | assignment => 10
  | operators .disjunction => 9
  | operators .conjunction => 8
  | operators .equality => 7
  | operators .comparison => 6
  | operators .term => 5
  | operators .factor => 4
  | unary => 3
  | call => 2
  | _ => 1

theorem rank_pos (r : Routine) : 1 ≤ r.rank := by
  cases r with
  | operators t => cases t <;> decide
  | _ => decide

/-- A callee is counted, its rule calls itself, or it has a smaller rank. -/
theorem rank_of_mem_callees {r r' : Routine} (h : r' ∈ r.callees) :
    r'.isCounted = true ∧ r'.rank ≤ 11 ∨ r.recurs r' = true ∧ r'.rank ≤ r.rank + 1 ∨
      r'.rank + 1 ≤ r.rank := by
  revert r'
  cases r with
  | operators t => cases t <;> decide
  | _ => decide

end Routine

/-- How many of the routines go one level deeper. -/
def levels (rs : List Routine) : Nat :=
  rs.countP Routine.isCounted

/-- How often a rule calls itself among routines that call each other. -/
def recursions : List Routine → Nat
  | r :: r' :: rs => (if r.recurs r' then 1 else 0) + recursions (r' :: rs)
  | _ => 0

namespace Runs

variable {caller : Routine} {depth : Nat} {ts ts' : List Token} {calls : List Call}
  {rs : List Routine}

theorem of_mem {r : Routine} {start finish : Cursor} {inner : List Call}
    (h : Runs caller depth ts calls ts') (hmem : .of r start finish inner ∈ calls) :
    r ∈ caller.callees ∧ (r.isCounted = true → Parser.maxNesting ≤ depth → inner = []) ∧
      Runs r (r.innerDepth depth) start.rest inner finish.rest := by
  induction h with
  | done => cases hmem
  | call _ hr _ _ hcount hinner _ _ ih =>
    cases hmem with
    | head => exact ⟨hr, hcount, hinner⟩
    | tail _ hmem => exact ih hmem

/-- Whatever is counted fits into the limit, but for one call that is refused. -/
theorem levels_le (h : Runs caller depth ts calls ts') (hnests : Nests calls rs)
    (hdepth : depth ≤ Parser.maxNesting) : levels rs + depth ≤ Parser.maxNesting + 1 := by
  induction hnests generalizing caller depth ts ts' with
  | nil => simpa [levels] using Nat.le_succ_of_le hdepth
  | @cons calls r start finish inner rs hmem hrs ih =>
    obtain ⟨-, hfull, hinner⟩ := h.of_mem hmem
    cases hcount : r.isCounted with
    | false =>
      have hlevels : levels (r :: rs) = levels rs := by simp [levels, hcount]
      have hsame : r.innerDepth depth = depth := by simp [Routine.innerDepth, hcount]
      rw [hlevels]
      exact ih (hsame ▸ hinner) hdepth
    | true =>
      have hlevels : levels (r :: rs) = levels rs + 1 := by simp [levels, hcount]
      have hdeeper : r.innerDepth depth = depth + 1 := by simp [Routine.innerDepth, hcount]
      obtain hless | heq := Nat.lt_or_eq_of_le hdepth
      · have := ih (hdeeper ▸ hinner) hless
        omega
      · obtain rfl := hfull hcount (Nat.le_of_eq heq.symm)
        have hnone : rs = [] := by
          cases hrs with
          | nil => rfl
          | cons hmem => cases hmem
        rw [hlevels, hnone, heq]
        simp [levels, Nat.add_comm]

/-- Between two levels, calls nest no deeper than there are rules, unless a rule calls
itself. -/
theorem length_le (h : Runs caller depth ts calls ts') (hnests : Nests calls rs) :
    rs.length + 1 ≤ caller.rank + 11 * levels rs + 2 * recursions (caller :: rs) := by
  induction hnests generalizing caller depth ts ts' with
  | nil => exact Nat.le_add_right_of_le (Nat.le_add_right_of_le caller.rank_pos)
  | @cons calls r start finish inner rs hmem _ ih =>
    obtain ⟨hr, -, hinner⟩ := h.of_mem hmem
    have hrs := ih hinner
    have hlevels : levels (r :: rs) = levels rs + if r.isCounted then 1 else 0 := by
      simp [levels, List.countP_cons]
    have hrecursions : recursions (caller :: r :: rs) =
        (if caller.recurs r then 1 else 0) + recursions (r :: rs) := rfl
    rw [hlevels, hrecursions, List.length_cons]
    obtain ⟨hcount, hrank⟩ | ⟨hrecurs, hrank⟩ | hrank := Routine.rank_of_mem_callees hr
    · have := caller.rank_pos
      rw [if_pos hcount]
      omega
    · rw [if_pos hrecurs]
      omega
    · omega

end Runs

/-- What rules that call themselves do not add to the calls that nest. -/
theorem Runs.bounds {caller : Routine} {ts ts' : List Token} {calls : List Call}
    {rs : List Routine} (h : Runs caller 0 ts calls ts') (hnests : Nests calls rs)
    (hrecursions : recursions (caller :: rs) = recursions rs) (hrank : caller.rank ≤ 5) :
    levels rs ≤ Parser.maxNesting + 1 ∧
      rs.length ≤ 4 + 11 * (Parser.maxNesting + 1) + 2 * recursions rs := by
  have hlevels := h.levels_le hnests (Nat.zero_le _)
  have hlength := h.length_le hnests
  rw [hrecursions] at hlength
  omega

theorem recursions_cons {caller : Routine} (rs : List Routine)
    (h : ∀ r, caller.recurs r = false) : recursions (caller :: rs) = recursions rs := by
  cases rs with
  | nil => rfl
  | cons r rs => rw [recursions, h r, if_neg Bool.false_ne_true, Nat.zero_add]

/-! ## Operators before operands -/

namespace Nests

variable {α β : Type} {calls calls' : List Call} {rs : List Routine} {p : Traced α}
  {f : α → Traced β} {c d : Cursor}

theorem mono (h : Nests calls rs) (hsub : calls ⊆ calls') : Nests calls' rs := by
  cases h with
  | nil => exact .nil _
  | cons hmem hrs => exact .cons (hsub hmem) hrs

theorem during (r : Routine) (h : Nests (p.calls c) rs) :
    Nests ((Traced.during r p).calls c) (r :: rs) :=
  .cons (List.mem_singleton_self _) h

theorem nested (hdepth : c.depth < Parser.maxNesting)
    (h : Nests (p.calls { c with depth := c.depth + 1 }) rs) :
    Nests ((Traced.nested p).calls c) rs := by
  have hcalls : (Traced.nested p).calls c = p.calls { c with depth := c.depth + 1 } :=
    if_neg (Nat.not_le_of_lt hdepth)
  rwa [hcalls]

/-- What comes first makes its calls whatever comes after it. -/
theorem bind (h : Nests (p.calls c) rs) : Nests ((p >>= f).calls c) rs :=
  h.mono (List.subset_append_left _ _)

/-- What comes after a parser that calls nothing. -/
theorem read {look : Parser α} {a : α} (hread : look c = .ok a d)
    (h : Nests ((f a).calls d) rs) : Nests ((Traced.lift look >>= f).calls c) rs := by
  have hcalls : (Traced.lift look >>= f).calls c = (f a).calls d := by
    simp only [Bind.bind, Traced.lift, hread, List.nil_append]
  rwa [hcalls]

end Nests

/-- The token of a negation. -/
def bang : Token :=
  ⟨.symbol .bang, "!", 1⟩

/-- So many negations of a constant as tokens. -/
def negationTokens (n : Nat) : List Token :=
  List.replicate n bang ++ [⟨.number 1, "1", 1⟩]

/-- So many negations of a constant as a tree. -/
def negation : Nat → Expr
  | 0 => .literal (.number 1)
  | n + 1 => .unary .not bang (negation n)

/-- A token that does not pass a test is not read. -/
theorem Parser.accept_stays {test : TokenKind → Bool} {c : Cursor} {t : Token} {ts : List Token}
    (hrest : c.rest = t :: ts) (htest : test t.kind = false) : accept test c = .ok none c := by
  have hread : accept? (fun k => if test k then some () else none) c = .ok none c := by
    unfold accept?
    rw [hrest]
    simp [htest]
  simp only [accept, Bind.bind, EStateM.bind, hread]
  rfl

namespace Traced

variable {fuel : Nat} {c : Cursor} {rs : List Routine} {rest : List Token}

/-- Each operator is read by a call of its own, inside that of the operator before it. -/
theorem unary_nests (n : Nat) (hfuel : n < fuel) (hrest : c.rest = negationTokens n ++ rest) :
    Nests ((unary fuel).calls c) (List.replicate (n + 1) .unary) := by
  induction n generalizing fuel c with
  | zero =>
    obtain ⟨fuel, rfl⟩ := Nat.exists_eq_succ_of_ne_zero (Nat.ne_of_gt hfuel)
    rw [unary]
    exact (Nests.nil _).during _
  | succ n ih =>
    obtain ⟨fuel, rfl⟩ := Nat.exists_eq_succ_of_ne_zero (Nat.ne_of_gt (Nat.zero_lt_of_lt hfuel))
    have hread : Parser.accept? UnaryOp.ofKind? c =
        .ok (some (.not, bang)) { c with rest := negationTokens n ++ rest } := by
      rw [Parser.accept?, hrest]
      rfl
    rw [unary]
    exact Nests.during _ (.read hread (ih (Nat.lt_of_succ_lt_succ hfuel) rfl).bind)

theorem operators_nests {t inner : Tier} (ht : t.operand? = some inner)
    (h : Nests ((operators fuel inner).calls c) rs) :
    Nests ((operators (fuel + 2) t).calls c) (.operators t :: rs) := by
  have hoperand : operand (fuel + 1) t = operators fuel inner := by simp only [operand, ht]
  rw [operators]
  exact Nests.during _ (Nests.bind (hoperand ▸ h))

/-- An operand of operators is read inside calls for all tiers. -/
theorem expression_nests (hdepth : c.depth < Parser.maxNesting)
    (h : Nests ((unary fuel).calls { c with depth := c.depth + 1 }) rs) :
    Nests ((expression (fuel + 14)).calls c)
      (.expression :: .assignment :: .operators .disjunction :: .operators .conjunction ::
        .operators .equality :: .operators .comparison :: .operators .term ::
        .operators .factor :: rs) := by
  have hfactor : Nests ((operators (fuel + 2) .factor).calls { c with depth := c.depth + 1 })
      (.operators .factor :: rs) := by
    rw [operators]
    exact Nests.during _ (Nests.bind h)
  have hcomparison := operators_nests (t := .comparison) rfl
    (operators_nests (t := .term) rfl hfactor)
  have hconjunction := operators_nests (t := .conjunction) rfl
    (operators_nests (t := .equality) rfl hcomparison)
  have hoperators := operators_nests (t := .disjunction) rfl hconjunction
  rw [expression]
  refine Nests.during _ (.nested hdepth ?_)
  rw [assignment]
  exact Nests.during _ hoperators.bind

/-- What no keyword starts is read as an expression. -/
theorem program_nests {t : Token} {ts : List Token} (hrest : c.rest = t :: ts)
    (hend : t.isEnd = false) (hwords : ∀ k, t.kind.isKeyword k = false)
    (hbrace : t.kind.isSymbol .leftBrace = false) (h : Nests ((expression fuel).calls c) rs) :
    Nests ((program (fuel + 3)).calls c)
      (.declaration :: .statement :: .expressionStatement :: rs) := by
  have hkeyword (k : Keyword) : Parser.keyword k c = .ok none c :=
    Parser.accept_stays hrest (hwords k)
  have hsymbol : Parser.symbol .leftBrace c = .ok none c := Parser.accept_stays hrest hbrace
  have hstatement : Nests ((statement (fuel + 1)).calls c)
      (.statement :: .expressionStatement :: rs) := by
    rw [statement]
    exact Nests.during _ (.read (hkeyword _) (.read (hkeyword _) (.read (hkeyword _)
      (.read (hkeyword _) (.read (hkeyword _) (.read hsymbol (Nests.during _ h.bind)))))))
  have hdeclaration : Nests ((declaration (fuel + 2)).calls c)
      (.declaration :: .statement :: .expressionStatement :: rs) := by
    rw [declaration]
    exact Nests.during _
      (.read (hkeyword _) (.read (hkeyword _) (.read (hkeyword _) hstatement)))
  have hmore : Parser.atEnd c = .ok false c := by
    rw [Parser.atEnd, Cursor.atEnd, Cursor.peek, hrest, List.headD_cons, hend]
  rw [program]
  exact .read hmore hdeclaration.bind

end Traced

/-! ## Programs that nest deeper -/

/-- So many negations as a program. -/
def negationProgram (n : Nat) : List Token :=
  negationTokens n ++ [⟨.symbol .semicolon, ";", 1⟩, .endOfInput 1]

theorem negation_derives (n room : Nat) :
    Derives True .unary room (negationTokens n) (negation n) := by
  induction n with
  | zero => exact .noOperation (.callee (.constant (.number 1)))
  | succ n ih => exact .operation .bang ih

theorem negation_unnumbered {n : Nat} {e : Expr} (h : e.unnumbered = negation n) :
    e = negation n := by
  induction n generalizing e with
  | zero =>
    cases e with
    | literal v => exact h
    | _ => cases h
  | succ n ih =>
    cases e with
    | unary op operator operand =>
      injection h with hop hoperator hoperand
      rw [hop, hoperator, ih hoperand]
      rfl
    | _ => cases h

theorem eq_of_unnumberedAll {n : Nat} {ss : List Stmt}
    (h : Stmt.unnumberedAll ss = [.expression (negation n)]) : ss = [.expression (negation n)] := by
  cases ss with
  | nil => cases h
  | cons s ss =>
    obtain ⟨hs, hss⟩ := List.cons.inj h
    cases ss with
    | cons s' ss => cases hss
    | nil =>
      cases s with
      | expression value =>
        injection hs with hvalue
        rw [negation_unnumbered hvalue]
      | _ => cases hs

/-- Any number of negations is accepted, each inside the one before it. -/
theorem negationProgram_accepted (n : Nat) :
    ∃ nextId, parseProgram (negationProgram n) 0 = (.ok [.expression (negation n)], nextId) := by
  have htier : Derives True (.tier .factor) 254 (negationTokens n) (negation n) :=
    .operand (.operandOfFactor (negation_derives n _))
  have hexpression : Derives True .expression Parser.maxNesting (negationTokens n) (negation n) :=
    .expression <| .noAssignment <| .operand <| .operandOfTier .disjunction <|
      .operand <| .operandOfTier .conjunction <| .operand <| .operandOfTier .equality <|
      .operand <| .operandOfTier .comparison <| .operand <| .operandOfTier .term htier
  have hbody : Derives True .declarations Parser.maxNesting
      (negationTokens n ++ [⟨.symbol .semicolon, ";", 1⟩] ++ []) [.expression (negation n)] :=
    .declarations (.statement (.evaluate (.exprStmt hexpression rfl))) .noDeclaration
  obtain ⟨ss, nextId, hparse, hss⟩ := parseProgram_complete (Token.isEnd_endOfInput 1) hbody 0
  rw [List.append_nil, List.append_assoc] at hparse
  refine ⟨nextId, hparse.trans ?_⟩
  rw [eq_of_unnumberedAll hss]

/-- As many calls are inside one another as there are negations. -/
theorem negationProgram_nests (n : Nat) :
    ∃ rs, Nests ((Traced.program (Parser.fuelFor (negationProgram n))).calls
      (.first (negationProgram n) 0)) rs ∧ n < rs.length := by
  obtain ⟨fuel, hfuel, hn⟩ : ∃ fuel, Parser.fuelFor (negationProgram n) = fuel + 14 + 3 ∧
      n < fuel := by
    refine ⟨20 * n + 63, ?_, by omega⟩
    simp only [Parser.fuelFor, Parser.callsPerToken, negationProgram, negationTokens,
      List.length_append, List.length_replicate, List.length_cons, List.length_nil]
    omega
  have hunary : Nests ((Traced.unary fuel).calls ⟨negationProgram n, 0, 1, []⟩)
      (List.replicate (n + 1) .unary) :=
    Traced.unary_nests n hn rfl
  have hexpression := Traced.expression_nests (c := .first (negationProgram n) 0)
    (Nat.zero_lt_succ 254) hunary
  obtain ⟨t, ts, hts, hend, hwords, hbrace⟩ : ∃ t ts, negationProgram n = t :: ts ∧
      t.isEnd = false ∧ (∀ k, t.kind.isKeyword k = false) ∧
        t.kind.isSymbol .leftBrace = false := by
    cases n <;> exact ⟨_, _, rfl, rfl, fun _ => rfl, rfl⟩
  rw [hfuel]
  refine ⟨_, Traced.program_nests hts hend hwords hbrace hexpression, ?_⟩
  simp only [List.length_cons, List.length_replicate]
  omega

/-! ## The bound -/

/-- At every moment of reading, the counted routines that are active are as many as the
limit and one, which is refused. All that are active are bounded by the limit too, except
that each time a rule calls itself two more can be. -/
theorem nesting_is_bounded_up_to_recursions (tokens : List Token) (firstId : NodeId) (fuel : Nat)
    (rs : List Routine) (hfuel : Parser.fuelFor tokens ≤ fuel)
    (hnests : Nests ((Traced.program fuel).calls (.first tokens firstId)) rs ∨
      Nests ((Traced.wholeExpression fuel).calls (.first tokens firstId)) rs) :
    levels rs ≤ Parser.maxNesting + 1 ∧
      rs.length ≤ 4 + 11 * (Parser.maxNesting + 1) + 2 * recursions rs := by
  have hprogram := (Traced.program_readsAll.completes hfuel firstId).runs
  have hexpression := (Traced.wholeExpression_readsAll.completes hfuel firstId).runs
  obtain hnests | hnests := hnests
  · exact hprogram.bounds hnests (recursions_cons rs fun _ => rfl) (by decide)
  · exact hexpression.bounds hnests (recursions_cons rs fun _ => rfl) (by decide)

/-- Three thousand negations nest deeper than all that is counted. -/
theorem nesting_is_bounded_up_to_recursions_negations :
    ∃ rs, Nests ((Traced.program (Parser.fuelFor (negationProgram 3000))).calls
        (.first (negationProgram 3000) 0)) rs ∧
      levels rs ≤ Parser.maxNesting + 1 ∧ 4 + 11 * (Parser.maxNesting + 1) < rs.length ∧
      rs.length ≤ 4 + 11 * (Parser.maxNesting + 1) + 2 * recursions rs := by
  obtain ⟨rs, hrs, hlength⟩ := negationProgram_nests 3000
  obtain ⟨hlevels, hbound⟩ := nesting_is_bounded_up_to_recursions (negationProgram 3000) 0 _ rs
    (Nat.le_refl _) (.inl hrs)
  have hmax : Parser.maxNesting = 255 := rfl
  exact ⟨rs, hrs, hlevels, by omega, hbound⟩

/-- No number bounds the calls inside one another, not even for programs that are accepted,
nor the steps down a tree. -/
theorem nesting_has_no_bound :
    (¬∃ bound, ∀ tokens ss nextId rs, parseProgram tokens 0 = (.ok ss, nextId) →
      Nests ((Traced.program (Parser.fuelFor tokens)).calls (.first tokens 0)) rs →
        rs.length ≤ bound) ∧
    ¬∃ bound, ∀ tokens n nextId,
      parseProgram tokens 0 = (.ok [.expression (negation n)], nextId) → n ≤ bound := by
  refine ⟨fun ⟨bound, hbound⟩ => ?_, fun ⟨bound, hbound⟩ => ?_⟩
  · obtain ⟨nextId, haccepted⟩ := negationProgram_accepted bound
    obtain ⟨rs, hrs, hlength⟩ := negationProgram_nests bound
    exact absurd (hbound _ _ nextId rs haccepted hrs) (Nat.not_le_of_lt hlength)
  · obtain ⟨nextId, haccepted⟩ := negationProgram_accepted (bound + 1)
    exact absurd (hbound _ _ nextId haccepted) (Nat.not_succ_le_self bound)

end Lox
