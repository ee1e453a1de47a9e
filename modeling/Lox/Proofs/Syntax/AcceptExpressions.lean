import Lox.Proofs.Syntax.LookAhead

/-!
# What the parsers of expressions accept

Whatever a rule for expressions derives is accepted by its parser, with the tree
of the derivation, in front of all rests that the parser cannot take for more.

## Implementation notes

A derivation of operators grows at its right end, and so does one of a call, but
their parsers start at the left. Thus a parser `LeadsInto` a loop: after the
tokens of a derivation it does what the loop does that has its tree so far. Fuel
is counted from the tokens: `callsPerToken` for each of them, less what `cost`
does not use up in front of the first.
-/

namespace Lox

namespace Parser

/-- Whether there is fuel for some tokens and room for what is nested in them. -/
structure Supplied (cost room : Nat) (w : List Token) (fuel depth : Nat) : Prop where
  fuel : 20 * w.length + cost ≤ fuel + 20
  room : depth + room ≤ maxNesting

theorem Supplied.pos {cost room fuel depth : Nat} {w : List Token}
    (h : Supplied (cost + 1) room w fuel depth) (hw : 0 < w.length) :
    ∃ fuel', fuel = fuel' + 1 ∧ Supplied cost room w fuel' depth := by
  obtain ⟨hfuel, hroom⟩ := h
  exact ⟨fuel - 1, by omega, by omega, hroom⟩

/-- Whether a parser accepts some tokens in front of all rests that pass a test. -/
def Takes {α : Type} (p : Nat → Parser α) (cost room : Nat) (stops : TokenKind → Prop)
    (w : List Token) (Q : α → Prop) : Prop :=
  ∀ fuel depth rest, Supplied cost room w fuel depth → stops (next rest) →
    (p fuel).Accepts depth (w ++ rest) rest Q

/-- Whether a parser, after some tokens, does as a loop does from their tree on. -/
def LeadsInto (p : Nat → Parser Expr) (loop : Nat → Expr → Parser Expr) (cost room : Nat)
    (stops : TokenKind → Prop) (w : List Token) (e : Expr) : Prop :=
  ∀ fuel depth rest final Q, Supplied cost room w fuel depth → stops (next rest) →
    (∀ fuel' e', fuel ≤ fuel' + w.length → e'.unnumbered = e →
      (loop fuel' e').Accepts depth rest final Q) →
    (p fuel).Accepts depth (w ++ rest) final Q

variable {room : Nat} {w w' : List Token} {e e' : Expr} {t : Tier}

/-- Whether the parser of a rule for expressions accepts some tokens as a tree. -/
abbrev TakesExpr (p : Nat → Parser Expr) (cost room : Nat) (stops : TokenKind → Prop)
    (w : List Token) (e : Expr) : Prop :=
  Takes p cost room stops w fun e' => e'.unnumbered = e

/-! ## Primary expressions -/

theorem constant_takes {t : Token} {v : Literal} (h : Literal.Constant t.kind v) :
    TakesExpr primary 1 room (fun _ => True) [t] (.literal v) := by
  intro fuel depth rest hs _
  obtain ⟨fuel, rfl, -⟩ := hs.pos Nat.one_pos
  rw [Parser.primary]
  exact .bind_eq (accept?_some (Token.isEnd_eq_false h.ne_endOfInput) h.ofKind?) (.pure _ rfl)

theorem super_takes {s d m : Token} (hs : s.kind = .keyword .super) (hd : d.kind = .symbol .dot)
    (hm : m.kind = .identifier) :
    TakesExpr primary 1 room (fun _ => True) [s, d, m] (.inherited (.to s) m) := by
  intro fuel depth rest hsupply _
  obtain ⟨fuel, rfl, -⟩ := hsupply.pos (by simp)
  rw [Parser.primary]
  refine .bind_eq (accept?_none (by simp [hs, Literal.ofKind?])) (.bind_eq (keyword_some hs) ?_)
  refine .bind_eq (expectSymbol_accepts _ hd) (.bind_eq (expectName_accepts _ hm) ?_)
  refine .bind (reference_accepts s) fun r hr => .pure _ ?_
  rw [Expr.unnumbered, Reference.unnumbered, Reference.to, hr]

theorem this_takes {t : Token} (h : t.kind = .keyword .this) :
    TakesExpr primary 1 room (fun _ => True) [t] (.receiver (.to t)) := by
  intro fuel depth rest hs _
  obtain ⟨fuel, rfl, -⟩ := hs.pos Nat.one_pos
  rw [Parser.primary]
  refine .bind_eq (accept?_none (by simp [h, Literal.ofKind?])) ?_
  refine .bind_eq (keyword_none (by simp [h])) (.bind_eq (keyword_some h) ?_)
  refine .bind (reference_accepts t) fun r hr => .pure _ ?_
  rw [Expr.unnumbered, Reference.unnumbered, Reference.to, hr]

theorem name_takes {t : Token} (h : t.kind = .identifier) :
    TakesExpr primary 1 room (fun _ => True) [t] (.variable (.to t)) := by
  intro fuel depth rest hs _
  obtain ⟨fuel, rfl, -⟩ := hs.pos Nat.one_pos
  rw [Parser.primary]
  refine .bind_eq (accept?_none (by simp [h, Literal.ofKind?])) ?_
  refine .bind_eq (keyword_none (by simp [h])) (.bind_eq (keyword_none (by simp [h])) ?_)
  refine .bind_eq (identifier_some h) (.bind (reference_accepts t) fun r hr => .pure _ ?_)
  rw [Expr.unnumbered, Reference.unnumbered, Reference.to, hr]

theorem grouping_takes {l r : Token} (hl : l.kind = .symbol .leftParen)
    (he : TakesExpr expression 16 room TokenKind.EndsExpression w e)
    (hr : r.kind = .symbol .rightParen) :
    TakesExpr primary 1 room (fun _ => True) (l :: w ++ [r]) (.grouping e) := by
  intro fuel depth rest hs _
  obtain ⟨fuel, rfl, hfuel, hroom⟩ := hs.pos (by simp)
  simp only [List.length_append, List.length_cons, List.length_nil] at hfuel
  simp only [List.cons_append, List.append_assoc, List.nil_append]
  rw [Parser.primary]
  refine .bind_eq (accept?_none (by simp [hl, Literal.ofKind?])) ?_
  refine .bind_eq (keyword_none (by simp [hl])) (.bind_eq (keyword_none (by simp [hl])) ?_)
  refine .bind_eq (identifier_none (by simp [hl])) (.bind_eq (symbol_some hl) ?_)
  refine .bind (he fuel depth (r :: rest) ⟨by omega, hroom⟩ ?_) fun inner hinner => ?_
  · rw [next_cons, hr]
    exact TokenKind.endsExpression_rightParen
  · refine .bind_eq (expectSymbol_accepts _ hr) (.pure _ ?_)
    rw [Expr.unnumbered, hinner]

/-! ## Calls -/

/-- Whether a call leads into the loop over its suffixes. -/
abbrev CallLeads (room : Nat) (w : List Token) (e : Expr) : Prop :=
  LeadsInto unary callsAfter 2 room (fun _ => True) w e

theorem ofKind?_of_startsPrimary {k : TokenKind} (h : k.startsPrimary = true) :
    UnaryOp.ofKind? k = none := by
  unfold UnaryOp.ofKind?
  split <;> first | rfl | cases h

theorem callee_leads (hw : Rule.primary.Opens w)
    (he : TakesExpr primary 1 room (fun _ => True) w e) : CallLeads room w e := by
  intro fuel depth rest final Q hs _ hloop
  have hpos := hw.length_pos rfl
  obtain ⟨fuel, rfl, hs'⟩ := hs.pos hpos
  rw [Parser.unary]
  refine .bind_eq (accept?_none (ofKind?_of_startsPrimary (hw.next rfl rest))) ?_
  refine .bind (he fuel depth rest hs' trivial) fun callee hcallee => ?_
  exact hloop fuel callee (by omega) hcallee

theorem property_leads {d n : Token} (he : CallLeads room w e) (hd : d.kind = .symbol .dot)
    (hn : n.kind = .identifier) : CallLeads room (w ++ [d, n]) (.get e n) := by
  intro fuel depth rest final Q hs _ hloop
  obtain ⟨hfuel, hroom⟩ := hs
  simp only [List.length_append, List.length_cons, List.length_nil] at hfuel hloop
  rw [List.append_assoc]
  apply he fuel depth _ final Q ⟨by omega, hroom⟩ trivial
  intro fuel' e' hle he'
  obtain ⟨fuel', rfl⟩ : ∃ f, fuel' = f + 1 := ⟨fuel' - 1, by omega⟩
  simp only [List.cons_append, List.nil_append]
  rw [Parser.callsAfter]
  refine .bind_eq (symbol_none (by simp [hd])) (.bind_eq (symbol_some hd) ?_)
  refine .bind_eq (expectName_accepts _ hn) (hloop fuel' _ (by omega) ?_)
  rw [Expr.unnumbered, he']

/-- Whether the parser of argument lists accepts some tokens. -/
def TakesArguments (room : Nat) (w : List Token) (args : List Expr) : Prop :=
  ∀ count, count + args.length ≤ maxArity →
    Takes (arguments · count) 17 room (fun k => k.EndsExpression ∧ k ≠ .symbol .comma) w
      fun args' => Expr.unnumberedAll args' = args

theorem lastArgument_takes (hw : Rule.expression.Opens w)
    (he : TakesExpr expression 16 room TokenKind.EndsExpression w e) :
    TakesArguments room w [e] := by
  intro count hcount fuel depth rest hs hnext
  obtain ⟨fuel, rfl, hs'⟩ := hs.pos (hw.length_pos rfl)
  rw [List.length_singleton] at hcount
  change (arguments (fuel + 1) count).Accepts depth _ rest _
  rw [Parser.arguments]
  refine .if_false (by omega) (.bind (he fuel depth rest hs' hnext.1) fun value hvalue => ?_)
  refine .bind_eq (symbol_none hnext.2) (.pure _ ?_)
  rw [Expr.unnumberedAll, Expr.unnumberedAll, hvalue]

theorem nextArgument_takes {c : Token} {args : List Expr} (hw : Rule.expression.Opens w)
    (he : TakesExpr expression 16 room TokenKind.EndsExpression w e)
    (hc : c.kind = .symbol .comma) (hargs : TakesArguments room w' args) :
    TakesArguments room (w ++ c :: w') (e :: args) := by
  intro count hcount fuel depth rest hs hnext
  have hpos := hw.length_pos rfl
  obtain ⟨fuel, rfl, hfuel, hroom⟩ := hs.pos (by rw [List.length_append]; omega)
  simp only [List.length_append, List.length_cons] at hfuel hcount
  simp only [List.append_assoc, List.cons_append]
  change (arguments (fuel + 1) count).Accepts depth _ rest _
  rw [Parser.arguments]
  refine .if_false (by omega) ?_
  refine .bind (he fuel depth _ ⟨by omega, hroom⟩ ?_) fun value hvalue => ?_
  · rw [next_cons, hc]
    exact TokenKind.endsExpression_comma
  · refine .bind_eq (symbol_some hc) ?_
    refine .bind (hargs (count + 1) (by omega) fuel depth rest ⟨by omega, hroom⟩ hnext) ?_
    intro values hvalues
    refine .pure _ ?_
    rw [Expr.unnumberedAll, hvalue, hvalues]

theorem application_leads {l r : Token} {args : List Expr} (he : CallLeads room w e)
    (hl : l.kind = .symbol .leftParen)
    (hargs : w' = [] ∧ args = [] ∨
      Rule.moreArguments.Opens w' ∧ args.length ≤ maxArity ∧ TakesArguments room w' args)
    (hr : r.kind = .symbol .rightParen) :
    CallLeads room (w ++ l :: w' ++ [r]) (.call e r args) := by
  intro fuel depth rest final Q hs _ hloop
  obtain ⟨hfuel, hroom⟩ := hs
  simp only [List.length_append, List.length_cons, List.length_nil] at hfuel hloop
  simp only [List.append_assoc, List.cons_append, List.nil_append]
  apply he fuel depth _ final Q ⟨by omega, hroom⟩ trivial
  intro fuel' e' hle he'
  obtain ⟨fuel', rfl⟩ : ∃ f, fuel' = f + 1 := ⟨fuel' - 1, by omega⟩
  have hclose (args' : List Expr) (hargs' : Expr.unnumberedAll args' = args) :
      Accepts (do
        let closing ← expectSymbol .rightParen .afterArguments
        callsAfter fuel' (.call e' closing args')) depth (r :: rest) final Q := by
    refine .bind_eq (expectSymbol_accepts _ hr) (hloop fuel' _ (by omega) ?_)
    rw [Expr.unnumbered, he', hargs']
  rw [Parser.callsAfter]
  refine .bind_eq (symbol_some hl) ?_
  obtain ⟨rfl, rfl⟩ | ⟨hw, hlen, hargs⟩ := hargs
  · refine .bind_eq (nextIs_true (by simp [hr])) (.if_true rfl ?_)
    exact hclose [] rfl
  · refine .bind_eq (nextIs_false ?_) (.if_false (by simp) ?_)
    · exact TokenKind.ne_of_test (hw.next rfl _) rfl
    · refine .bind (hargs 0 (by omega) fuel' depth _ ⟨by omega, hroom⟩ ?_) hclose
      rw [next_cons, hr]
      exact ⟨TokenKind.endsExpression_rightParen, by simp⟩

/-! ## Operators -/

theorem noOperation_takes (hw : Rule.call.Opens w) (he : CallLeads room w e) :
    TakesExpr unary 2 room (TokenKind.Stops 6) w e := by
  intro fuel depth rest hs hnext
  have hpos := hw.length_pos rfl
  apply he fuel depth rest rest _ hs trivial
  intro fuel' e' hle he'
  obtain ⟨fuel', rfl⟩ : ∃ f, fuel' = f + 1 := ⟨fuel' - 1, by have := hs.fuel; omega⟩
  rw [Parser.callsAfter]
  exact .bind_eq (symbol_none hnext.leftParen) (.bind_eq (symbol_none hnext.dot) (.pure _ he'))

theorem operation_takes {o : Token} {op : UnaryOp} (ho : UnaryOp.Operator o.kind op)
    (he : TakesExpr unary 2 room (TokenKind.Stops 6) w e) :
    TakesExpr unary 2 room (TokenKind.Stops 6) (o :: w) (.unary op o e) := by
  intro fuel depth rest hs hnext
  obtain ⟨fuel, rfl, hfuel, hroom⟩ := hs.pos (by simp)
  rw [List.length_cons] at hfuel
  rw [Parser.unary]
  refine .bind_eq (accept?_some (Token.isEnd_eq_false ho.ne_endOfInput) ho.ofKind?) ?_
  refine .bind (he fuel depth rest ⟨by omega, hroom⟩ hnext) fun operand hoperand => .pure _ ?_
  rw [Expr.unnumbered, hoperand]

/-- Whether the parser of operands of a tier accepts some tokens. -/
abbrev TakesOperand (t : Tier) (room : Nat) (w : List Token) (e : Expr) : Prop :=
  TakesExpr (operand · t) (13 - 2 * t.level) room (TokenKind.Stops (t.level + 1)) w e

/-- Whether operators of a tier lead into the loop over those that follow. -/
abbrev OperatorsLead (t : Tier) (room : Nat) (w : List Token) (e : Expr) : Prop :=
  LeadsInto (operators · t) (operatorsAfter · t) (14 - 2 * t.level) room
    (TokenKind.Stops (t.level + 1)) w e

/-- Whether the parser of a tier accepts some tokens. -/
abbrev TakesTier (t : Tier) (room : Nat) (w : List Token) (e : Expr) : Prop :=
  TakesExpr (operators · t) (14 - 2 * t.level) room (TokenKind.Stops t.level) w e

theorem operandOfFactor_takes (hw : Rule.unary.Opens w)
    (he : TakesExpr unary 2 room (TokenKind.Stops 6) w e) : TakesOperand .factor room w e := by
  intro fuel depth rest hs hnext
  obtain ⟨fuel, rfl, hs'⟩ := hs.pos (hw.length_pos rfl)
  change (operand (fuel + 1) .factor).Accepts depth _ rest _
  rw [Parser.operand]
  exact he fuel depth rest hs' hnext

theorem operandOfTier_takes {t' : Tier} (ha : t.Above t') (hw : (Rule.tier t').Opens w)
    (he : TakesTier t' room w e) : TakesOperand t room w e := by
  intro fuel depth rest hs hnext
  have hl := ha.level
  have hcost : 13 - 2 * t.level = 14 - 2 * t'.level + 1 := by
    cases ha <;> rfl
  rw [hcost] at hs
  obtain ⟨fuel, rfl, hs'⟩ := hs.pos (hw.length_pos rfl)
  change (operand (fuel + 1) t).Accepts depth _ rest _
  rw [Parser.operand, ha.operand?]
  exact he fuel depth rest hs' (hl ▸ hnext)

theorem operand_leads (hw : (Rule.operand t).Opens w) (he : TakesOperand t room w e) :
    OperatorsLead t room w e := by
  intro fuel depth rest final Q hs hnext hloop
  have hpos := hw.length_pos rfl
  have hcost : 14 - 2 * t.level = 13 - 2 * t.level + 1 := by
    cases t <;> rfl
  rw [hcost] at hs
  obtain ⟨fuel, rfl, hs'⟩ := hs.pos hpos
  change (operators (fuel + 1) t).Accepts depth _ final _
  rw [Parser.operators]
  refine .bind (he fuel depth rest hs' hnext) fun left hleft => ?_
  exact hloop fuel left (by omega) hleft

theorem operator_leads {o : Token} {node : Token → Expr → Expr → Expr}
    (hl : OperatorsLead t room w e) (ho : t.Operator o.kind node)
    (hr : TakesOperand t room w' e') : OperatorsLead t room (w ++ o :: w') (node o e e') := by
  intro fuel depth rest final Q hs hnext hloop
  obtain ⟨hfuel, hroom⟩ := hs
  simp only [List.length_append, List.length_cons] at hfuel hloop
  simp only [List.append_assoc, List.cons_append]
  have hlevel : t.level ≤ 5 := by
    cases t <;> simp [Tier.level]
  refine hl fuel depth _ final Q ⟨by omega, hroom⟩ ?_ fun fuel' left hle hleft => ?_
  · exact TokenKind.stops_of_operator ho
  · obtain ⟨fuel', rfl⟩ : ∃ f, fuel' = f + 1 := ⟨fuel' - 1, by omega⟩
    change (operatorsAfter (fuel' + 1) t left).Accepts depth _ final _
    rw [Parser.operatorsAfter]
    refine .bind_eq (accept?_some (Token.isEnd_eq_false ho.ne_endOfInput) ho.node?) ?_
    refine .bind (hr fuel' depth rest ⟨by omega, hroom⟩ hnext) fun right hright => ?_
    apply hloop fuel' _ (by omega)
    rw [← ho.unnumbered, hleft, hright]

theorem tier_takes (hw : (Rule.tier t).Opens w) (he : OperatorsLead t room w e) :
    TakesTier t room w e := by
  intro fuel depth rest hs hnext
  have hpos := hw.length_pos rfl
  have hlevel : t.level ≤ 5 := by
    cases t <;> simp [Tier.level]
  apply he fuel depth rest rest _ hs (hnext.weaken (Nat.le_succ _))
  intro fuel' e' hle he'
  obtain ⟨fuel', rfl⟩ : ∃ f, fuel' = f + 1 := ⟨fuel' - 1, by have := hs.fuel; omega⟩
  change (operatorsAfter (fuel' + 1) t e').Accepts depth _ rest _
  rw [Parser.operatorsAfter]
  exact .bind_eq (accept?_none (hnext.node? t (Nat.le_refl _))) (.pure _ he')

/-- A call is read at every tier. -/
theorem call_takes (hw : Rule.call.Opens w) (he : CallLeads room w e) (t : Tier) :
    TakesTier t room w e := by
  have hopens {r : Rule} (hr : ∀ k, k.startsExpression = true → r.Starts k) : r.Opens w :=
    hw.lift rfl fun k hk => hr k (TokenKind.startsExpression_of_primary hk)
  have hbelow {t t' : Tier} (ha : t.Above t') (h : TakesTier t' room w e) : TakesTier t room w e :=
    tier_takes (hopens fun _ hk => hk)
      (operand_leads (hopens fun _ hk => hk) (operandOfTier_takes ha (hopens fun _ hk => hk) h))
  have hfactor : TakesTier .factor room w e :=
    tier_takes (hopens fun _ hk => hk) (operand_leads (hopens fun _ hk => hk)
      (operandOfFactor_takes (hopens fun _ hk => hk) (noOperation_takes hw he)))
  have hcomparison := hbelow .comparison (hbelow .term hfactor)
  cases t with
  | factor => exact hfactor
  | term => exact hbelow .term hfactor
  | comparison => exact hcomparison
  | equality => exact hbelow .equality hcomparison
  | conjunction => exact hbelow .conjunction (hbelow .equality hcomparison)
  | disjunction =>
      exact hbelow .disjunction (hbelow .conjunction (hbelow .equality hcomparison))

/-! ## Assignments -/

/-- Whether the parser of assignments accepts some tokens. -/
abbrev TakesAssignment (room : Nat) (w : List Token) (e : Expr) : Prop :=
  TakesExpr assignment 15 room TokenKind.EndsExpression w e

theorem noAssignment_takes (hw : (Rule.tier .disjunction).Opens w)
    (he : TakesTier .disjunction room w e) : TakesAssignment room w e := by
  intro fuel depth rest hs hnext
  obtain ⟨fuel, rfl, hs'⟩ := hs.pos (hw.length_pos rfl)
  rw [Parser.assignment]
  refine .bind (he fuel depth rest hs' hnext.stops) fun target htarget => ?_
  exact .bind_eq (symbol_none hnext.equal) (.pure _ htarget)

theorem assign_takes {n q : Token} (hn : n.kind = .identifier) (hq : q.kind = .symbol .equal)
    (he : TakesAssignment room w e) :
    TakesAssignment room (n :: q :: w) (.assign (.to n) e) := by
  intro fuel depth rest hs hnext
  have hname : TakesTier .disjunction room [n] (.variable (.to n)) :=
    call_takes (by simp [Rule.Opens, Rule.Starts, hn, TokenKind.startsPrimary])
      (callee_leads (by simp [Rule.Opens, Rule.Starts, hn, TokenKind.startsPrimary])
        (name_takes hn)) _
  obtain ⟨fuel, rfl, hfuel, hroom⟩ := hs.pos (by simp)
  simp only [List.length_cons] at hfuel
  rw [Parser.assignment]
  refine .bind (hname fuel depth (q :: w ++ rest) ⟨?_, hroom⟩ ?_) fun target htarget => ?_
  · change 20 * 1 + 14 ≤ fuel + 20
    omega
  · rw [List.cons_append, next_cons, hq]
    exact TokenKind.stops_equal
  · refine .bind_eq (symbol_some hq) ?_
    refine .bind (he fuel depth rest ⟨by omega, hroom⟩ hnext) fun value hvalue => ?_
    cases target with
    | «variable» target =>
        simp only [Expr.unnumbered, Expr.variable.injEq] at htarget
        refine .bind (reference_accepts _) fun r hr => .pure _ ?_
        rw [Expr.unnumbered, hvalue, ← htarget, Reference.unnumbered, Reference.unnumbered, hr]
    | _ => cases htarget

theorem setProperty_takes {d n q : Token} (hw : Rule.call.Opens w) (he : CallLeads room w e)
    (hd : d.kind = .symbol .dot) (hn : n.kind = .identifier) (hq : q.kind = .symbol .equal)
    (he' : TakesAssignment room w' e') :
    TakesAssignment room (w ++ d :: n :: q :: w') (.set e n e') := by
  intro fuel depth rest hs hnext
  have htarget : TakesTier .disjunction room (w ++ [d, n]) (.get e n) :=
    call_takes (hw.append rfl) (property_leads he hd hn) _
  obtain ⟨fuel, rfl, hfuel, hroom⟩ := hs.pos (by rw [List.length_append, List.length_cons]; omega)
  simp only [List.length_append, List.length_cons] at hfuel
  rw [show w ++ d :: n :: q :: w' ++ rest = (w ++ [d, n]) ++ q :: (w' ++ rest) by simp]
  rw [Parser.assignment]
  refine .bind (htarget fuel depth _ ⟨?_, hroom⟩ ?_) fun target htarget => ?_
  · change 20 * (w ++ [d, n]).length + 14 ≤ fuel + 20
    simp only [List.length_append, List.length_cons, List.length_nil]
    omega
  · rw [next_cons, hq]
    exact TokenKind.stops_equal
  · refine .bind_eq (symbol_some hq) ?_
    refine .bind (he' fuel depth rest ⟨by omega, hroom⟩ hnext) fun value hvalue => ?_
    cases target with
    | get object name =>
        simp only [Expr.unnumbered, Expr.get.injEq] at htarget
        refine .pure _ ?_
        rw [Expr.unnumbered, hvalue, htarget.1, htarget.2]
    | _ => cases htarget

theorem expression_takes (hw : Rule.assignment.Opens w) (he : TakesAssignment room w e) :
    TakesExpr expression 16 (room + 1) TokenKind.EndsExpression w e := by
  intro fuel depth rest hs hnext
  obtain ⟨fuel, rfl, hfuel, hroom⟩ := hs.pos (hw.length_pos rfl)
  rw [Parser.expression]
  exact nested_accepts (by omega) (he fuel (depth + 1) rest ⟨hfuel, by omega⟩ hnext)

/-- What is to be accepted of the derivations of a rule for expressions. -/
def AcceptsRule : (r : Rule) → (room : Nat) → List Token → r.Tree → Prop
  | .primary, room, w, e => TakesExpr primary 1 room (fun _ => True) w e
  | .call, room, w, e => CallLeads room w e
  | .unary, room, w, e => TakesExpr unary 2 room (TokenKind.Stops 6) w e
  | .operand t, room, w, e => TakesOperand t room w e
  | .tier t, room, w, e => OperatorsLead t room w e
  | .assignment, room, w, e => TakesAssignment room w e
  | .expression, room, w, e => TakesExpr expression 16 room TokenKind.EndsExpression w e
  | .moreArguments, room, w, args => TakesArguments room w args
  | .arguments, room, w, args =>
      w = [] ∧ args = [] ∨
        Rule.moreArguments.Opens w ∧ args.length ≤ maxArity ∧ TakesArguments room w args
  | _, _, _, _ => True

/-- The parsers of expressions accept what their rules derive. -/
theorem acceptsRule_of_derives {nearest : Prop} {r : Rule} {tree : r.Tree}
    (h : Derives nearest r room w tree) : AcceptsRule r room w tree := by
  induction h with
  | constant hc => exact constant_takes hc
  | this ht => exact this_takes ht
  | name hn => exact name_takes hn
  | grouping hl _ hr ih => exact grouping_takes hl ih hr
  | super hs hd hm => exact super_takes hs hd hm
  | callee hd ih => exact callee_leads hd.opens ih
  | application _ hl _ hr ih ih' => exact application_leads ih hl ih' hr
  | property _ hd hn ih => exact property_leads ih hd hn
  | noArguments => exact .inl ⟨rfl, rfl⟩
  | someArguments hd hlen ih => exact .inr ⟨hd.opens, hlen, ih⟩
  | lastArgument hd ih => exact lastArgument_takes hd.opens ih
  | nextArgument hd hc _ ih ih' => exact nextArgument_takes hd.opens ih hc ih'
  | operation ho _ ih => exact operation_takes ho ih
  | noOperation hd ih => exact noOperation_takes hd.opens ih
  | operandOfTier ha hd ih => exact operandOfTier_takes ha hd.opens (tier_takes hd.opens ih)
  | operandOfFactor hd ih => exact operandOfFactor_takes hd.opens ih
  | operand hd ih => exact operand_leads hd.opens ih
  | operator _ ho _ ih ih' => exact operator_leads ih ho ih'
  | assign hn hq _ ih => exact assign_takes hn hq ih
  | setProperty hd hdot hn hq _ ih ih' => exact setProperty_takes hd.opens ih hdot hn hq ih'
  | noAssignment hd ih => exact noAssignment_takes hd.opens (tier_takes hd.opens ih)
  | expression hd ih => exact expression_takes hd.opens ih
  | _ => trivial

end Parser

end Lox
