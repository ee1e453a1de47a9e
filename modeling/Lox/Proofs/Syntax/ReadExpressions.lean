import Lox.Proofs.Syntax.Grammar
import Lox.Proofs.Syntax.Reading

/-!
# What the parsers of expressions read

Whenever a parser of expressions succeeds without a report, the tokens that it
took are derived by its rule, with the tree that it returns, and the references
of the tree have fresh numbers.
-/

namespace Lox

/-! ## Tables of the parser -/

theorem UnaryOp.operator_of_ofKind? {k : TokenKind} {op : UnaryOp} (h : UnaryOp.ofKind? k = some op) :
    UnaryOp.Operator k op := by
  unfold UnaryOp.ofKind? at h
  split at h <;> cases h <;> constructor

theorem Literal.constant_of_ofKind? {k : TokenKind} {v : Literal} (h : Literal.ofKind? k = some v) :
    Literal.Constant k v := by
  unfold Literal.ofKind? at h
  split at h <;> cases h <;> constructor

namespace Tier

theorem operator_of_node? {t : Tier} {k : TokenKind} {node : Token → Expr → Expr → Expr}
    (h : t.node? k = some node) : t.Operator k node := by
  unfold node? at h
  split at h <;> cases h <;> constructor

theorem above_of_operand? {t t' : Tier} (h : t.operand? = some t') : t.Above t' := by
  cases t <;> cases h <;> constructor

theorem eq_factor_of_operand? {t : Tier} (h : t.operand? = none) : t = .factor := by
  cases t <;> first | rfl | cases h

theorem Operator.unnumbered {t : Tier} {k : TokenKind} {node : Token → Expr → Expr → Expr}
    (h : t.Operator k node) (operator : Token) (left right : Expr) :
    node operator left.unnumbered right.unnumbered = (node operator left right).unnumbered := by
  cases h <;> rfl

theorem Operator.ids {t : Tier} {k : TokenKind} {node : Token → Expr → Expr → Expr}
    (h : t.Operator k node) (operator : Token) (left right : Expr) :
    (node operator left right).ids = left.ids ++ right.ids := by
  cases h <;> rfl

end Tier

/-! ## Trees that can be assigned to -/

section

variable {nearest : Prop} {room : Nat} {w : List Token}

/-- Whether an expression is made by an operator. -/
def Expr.isOperation : Expr → Bool
  | .unary .. | .binary .. | .logical .. => true
  | _ => false

theorem Tier.Operator.isOperation {t : Tier} {k : TokenKind} {node : Token → Expr → Expr → Expr}
    (h : t.Operator k node) (operator : Token) (left right : Expr) :
    (node operator left right).isOperation = true := by
  cases h <;> rfl

/-- What no operator made is derived by the rule for calls already. -/
theorem call_of_tier {t : Tier} {e : Expr} (h : Derives nearest (.tier t) room w e)
    (he : e.isOperation = false) : Derives nearest .call room w e := by
  have hunary (h : Derives nearest .unary room w e) : Derives nearest .call room w e := by
    cases h with
    | operation hop hd => simp [Expr.isOperation] at he
    | noOperation hd => exact hd
  have hoperand {t : Tier} (h : Derives nearest (.tier t) room w e) :
      Derives nearest (.operand t) room w e := by
    cases h with
    | operand hd => exact hd
    | operator hl hop hr => simp [hop.isOperation] at he
  have hfactor (h : Derives nearest (.tier .factor) room w e) :
      Derives nearest .call room w e := by
    cases hoperand h with
    | operandOfTier ha _ => cases ha
    | operandOfFactor hd => exact hunary hd
  have hbelow {t t' : Tier} (ha : t.Above t') (h : Derives nearest (.tier t) room w e) :
      Derives nearest (.tier t') room w e := by
    cases hoperand h with
    | operandOfTier ha' hd => cases ha <;> cases ha' <;> exact hd
    | operandOfFactor hd => cases ha
  cases t with
  | factor => exact hfactor h
  | term => exact hfactor (hbelow .term h)
  | comparison => exact hfactor (hbelow .term (hbelow .comparison h))
  | equality => exact hfactor (hbelow .term (hbelow .comparison (hbelow .equality h)))
  | conjunction =>
      exact hfactor (hbelow .term (hbelow .comparison (hbelow .equality (hbelow .conjunction h))))
  | disjunction =>
      exact hfactor (hbelow .term (hbelow .comparison (hbelow .equality
        (hbelow .conjunction (hbelow .disjunction h)))))

theorem name_of_tier {t : Tier} {r : Reference}
    (h : Derives nearest (.tier t) room w (.variable r)) :
    ∃ n, w = [n] ∧ n.kind = .identifier ∧ r = .to n := by
  cases call_of_tier h rfl with
  | callee hd =>
      cases hd with
      | name hn => exact ⟨_, rfl, hn, rfl⟩

theorem property_of_tier {t : Tier} {e : Expr} {name : Token}
    (h : Derives nearest (.tier t) room w (.get e name)) :
    ∃ w' d, w = w' ++ [d, name] ∧ Derives nearest .call room w' e ∧
      d.kind = .symbol .dot ∧ name.kind = .identifier := by
  cases call_of_tier h rfl with
  | callee hd => cases hd
  | property hd hdot hname => exact ⟨_, _, rfl, hd, hdot, hname⟩

end

namespace Parser

variable {α : Type}

/-- Whether the tokens between two cursors, put behind others, are derived by a
rule, with the numbers of the references fresh. -/
def Reads (r : Rule) (before : List Token) (tree : α → r.Tree) (ids : α → List NodeId)
    (c : Cursor) (a : α) (c' : Cursor) : Prop :=
  ∃ w, c.rest = w ++ c'.rest ∧
    Derives True r (maxNesting - c.depth) (before ++ w) (tree a) ∧
    Fresh c.nextId c'.nextId (ids a)

theorem Reads.of_derives {r : Rule} {tree : α → r.Tree} {ids : α → List NodeId} {c : Cursor}
    {a : α} {c' : Cursor} {w : List Token} (hw : c.rest = w ++ c'.rest)
    (hd : Derives True r (maxNesting - c.depth) w (tree a))
    (hf : Fresh c.nextId c'.nextId (ids a)) : Reads r [] tree ids c a c' :=
  ⟨w, hw, hd, hf⟩

/-- Whether the tokens between two cursors prolong what a rule derives. -/
def Prolongs (r : Rule) (tree : Expr → r.Tree) (left : Expr) (c : Cursor) (e : Expr)
    (c' : Cursor) : Prop :=
  ∃ w, c.rest = w ++ c'.rest ∧
    (∀ w₀, Derives True r (maxNesting - c.depth) w₀ (tree left) →
      Derives True r (maxNesting - c.depth) (w₀ ++ w) (tree e)) ∧
    ∀ lo : Nat, lo ≤ c.nextId → Fresh lo c.nextId left.ids → Fresh lo c'.nextId e.ids

/-! ## Expressions -/

/-- What the parsers of expressions read with so much fuel. -/
structure ReadsExpressions (fuel : Nat) : Prop where
  expression : (expression fuel).Meets (Reads .expression [] Expr.unnumbered Expr.ids)
  assignment : (assignment fuel).Meets (Reads .assignment [] Expr.unnumbered Expr.ids)
  operators (t : Tier) : (operators fuel t).Meets (Reads (.tier t) [] Expr.unnumbered Expr.ids)
  operatorsAfter (t : Tier) (left : Expr) :
    (operatorsAfter fuel t left).Meets (Prolongs (.tier t) Expr.unnumbered left)
  operand (t : Tier) : (operand fuel t).Meets (Reads (.operand t) [] Expr.unnumbered Expr.ids)
  unary : (unary fuel).Meets (Reads .unary [] Expr.unnumbered Expr.ids)
  callsAfter (callee : Expr) :
    (callsAfter fuel callee).Meets (Prolongs .call Expr.unnumbered callee)
  arguments (count : Nat) : (arguments fuel count).Meets fun c args c' =>
    Reads .moreArguments [] Expr.unnumberedAll Expr.idsAll c args c' ∧
      count + args.length ≤ maxArity
  primary : (primary fuel).Meets (Reads .primary [] Expr.unnumbered Expr.ids)

variable {fuel : Nat}

theorem expression_reads (h : ReadsExpressions fuel) :
    (expression (fuel + 1)).Meets (Reads .expression [] Expr.unnumbered Expr.ids) := by
  rw [Parser.expression]
  apply (nested_meets h.assignment).weaken
  intro c e c' _ hr
  obtain ⟨hd, w, hw, hder, hids⟩ := hr
  refine ⟨w, hw, ?_, hids⟩
  have hroom : maxNesting - c.depth = maxNesting - (c.depth + 1) + 1 := by omega
  rw [hroom]
  exact .expression hder

/-- A reference to the token that stands before the cursor. -/
theorem reference_fresh {c c' : Cursor} {r : Reference} {name : Token}
    (h : r = ⟨c.nextId, name⟩ ∧ c'.rest = c.rest ∧ @Eq Nat c'.nextId (c.nextId + 1)) :
    Fresh c.nextId c'.nextId [r.id] := by
  obtain ⟨rfl, -, hnext⟩ := h
  rw [hnext]
  exact .single (Nat.le_refl _)

theorem assignment_reads (h : ReadsExpressions fuel) :
    (assignment (fuel + 1)).Meets (Reads .assignment [] Expr.unnumbered Expr.ids) := by
  rw [Parser.assignment]
  refine .bind (h.operators .disjunction) fun target => .attempt (symbol_meets _) ?_ ?_
  · refine .pure _ fun c₁ c _ h₀ => ?_
    obtain ⟨w, hw, hd, hf⟩ := h₀
    exact ⟨w, hw, .noAssignment hd, hf⟩
  · refine fun equals => .bind h.assignment fun value => ?_
    cases target with
    | «variable» target =>
        refine .bind (reference_meets _) fun r => .pure _ ?_
        intro c₄ c₃ _ h₃ c₂ hb₂ h₂ c₁ hb₁ h₁ c hb h₀
        have hid := reference_fresh h₃
        obtain ⟨w, hw, hd, _⟩ := h₀
        obtain ⟨hq, ht⟩ := h₁
        obtain ⟨w', hw', hd', hf'⟩ := h₂
        obtain ⟨rfl, hrest, hnext⟩ := h₃
        obtain ⟨n, rfl, hn, hto⟩ := name_of_tier hd
        cases hto
        rw [hb₁.depth, hb.depth] at hd'
        refine ⟨target.name :: equals :: w', by simp [hw, ht.rest, hw', hrest],
          .assign hn hq hd', ?_⟩
        have hlo : (c.nextId : Nat) ≤ c₂.nextId := Nat.le_trans hb.nextId hb₁.nextId
        exact (hf'.weaken hlo (Nat.le_refl _)).append hid (Nat.le_trans hlo hb₂.nextId)
          (by omega)
    | get object name =>
        refine .pure _ fun c₃ c₂ hb₂ h₂ c₁ hb₁ h₁ c hb h₀ => ?_
        obtain ⟨w, hw, hd, hf⟩ := h₀
        obtain ⟨hq, ht⟩ := h₁
        obtain ⟨w', hw', hd', hf'⟩ := h₂
        obtain ⟨w, d, rfl, hobject, hdot, hname⟩ := property_of_tier hd
        rw [hb₁.depth, hb.depth] at hd'
        refine ⟨w ++ d :: name :: equals :: w', by simp [hw, ht.rest, hw'],
          .setProperty hobject hdot hname hq hd', ?_⟩
        rw [ht.nextId] at hf'
        exact hf.append hf' hb.nextId (ht.nextId ▸ hb₂.nextId)
    | _ => exact .bind (report_meets _) fun _ => .pure _ fun _ _ _ h => h.elim

theorem operators_reads (h : ReadsExpressions fuel) (t : Tier) :
    (operators (fuel + 1) t).Meets (Reads (.tier t) [] Expr.unnumbered Expr.ids) := by
  rw [Parser.operators]
  refine .bind (h.operand t) fun left => ?_
  apply (h.operatorsAfter t left).weaken
  intro c₁ e c₂ _ h₁ c hb h₀
  obtain ⟨w, hw, hd, hf⟩ := h₀
  obtain ⟨w', hw', hd', hf'⟩ := h₁
  rw [hb.depth] at hd'
  exact ⟨w ++ w', by simp [hw, hw'], hd' _ (.operand hd), hf' _ hb.nextId hf⟩

theorem operatorsAfter_prolongs (h : ReadsExpressions fuel) (t : Tier) (left : Expr) :
    (operatorsAfter (fuel + 1) t left).Meets (Prolongs (.tier t) Expr.unnumbered left) := by
  rw [Parser.operatorsAfter]
  refine .attempt (accept?_meets _) ?_ ?_
  · exact .pure _ fun c => ⟨[], rfl, fun w₀ hd => by simpa using hd, fun lo _ hf => hf⟩
  · refine fun ⟨node, operator⟩ => .bind (h.operand t) fun right => ?_
    apply (h.operatorsAfter t (node operator left right)).weaken
    intro c₂ e c₃ _ h₂ c₁ hb₁ h₁ c hb h₀
    obtain ⟨hnode, ht⟩ := h₀
    obtain ⟨w, hw, hd, hf⟩ := h₁
    obtain ⟨w', hw', hd', hf'⟩ := h₂
    rw [hb.depth] at hd
    rw [hb₁.depth, hb.depth] at hd'
    have hop := Tier.operator_of_node? hnode
    refine ⟨operator :: w ++ w', by simp [ht.rest, hw, hw'], fun w₀ hleft => ?_, ?_⟩
    · have hd'' := hd' (w₀ ++ operator :: w) (hop.unnumbered operator left right ▸
        .operator hleft hop hd)
      simpa using hd''
    · intro lo hlo hfresh
      apply hf' lo (by have := hb₁.nextId; have := ht.nextId; omega)
      rw [hop.ids operator left right]
      rw [ht.nextId] at hf
      exact hfresh.append hf hlo (ht.nextId ▸ hb₁.nextId)

theorem operand_reads (h : ReadsExpressions fuel) (t : Tier) :
    (operand (fuel + 1) t).Meets (Reads (.operand t) [] Expr.unnumbered Expr.ids) := by
  rw [Parser.operand]
  cases ht : t.operand? with
  | none =>
      apply h.unary.weaken
      intro c e c' _ hr
      obtain ⟨w, hw, hd, hf⟩ := hr
      rw [Tier.eq_factor_of_operand? ht]
      exact ⟨w, hw, .operandOfFactor hd, hf⟩
  | some inner =>
      apply (h.operators inner).weaken
      intro c e c' _ hr
      obtain ⟨w, hw, hd, hf⟩ := hr
      exact ⟨w, hw, .operandOfTier (Tier.above_of_operand? ht) hd, hf⟩

theorem unary_reads (h : ReadsExpressions fuel) :
    (unary (fuel + 1)).Meets (Reads .unary [] Expr.unnumbered Expr.ids) := by
  rw [Parser.unary]
  refine .attempt (accept?_meets _) ?_ ?_
  · refine .bind h.primary fun callee => ?_
    apply (h.callsAfter callee).weaken
    intro c₁ e c₂ _ h₁ c hb h₀
    obtain ⟨w, hw, hd, hf⟩ := h₀
    obtain ⟨w', hw', hd', hf'⟩ := h₁
    rw [hb.depth] at hd'
    exact ⟨w ++ w', by simp [hw, hw'], .noOperation (hd' _ (.callee hd)), hf' _ hb.nextId hf⟩
  · refine fun ⟨op, operator⟩ => .bind h.unary fun operand => .pure _ fun c₂ c₁ hb₁ h₁ c hb h₀ => ?_
    obtain ⟨hop, ht⟩ := h₀
    obtain ⟨w, hw, hd, hf⟩ := h₁
    rw [hb.depth] at hd
    exact ⟨operator :: w, by simp [ht.rest, hw],
      .operation (UnaryOp.operator_of_ofKind? hop) hd, ht.nextId ▸ hf⟩

/-- The rest of a call after its arguments. -/
theorem application_prolongs (h : ReadsExpressions fuel) (callee : Expr) (args : List Expr) :
    Meets (do
      let closing ← expectSymbol .rightParen .afterArguments
      callsAfter fuel (.call callee closing args)) fun c e c' =>
        ∀ opening c₀ c₁, opening.kind = .symbol .leftParen → c₀.Took opening c₁ →
          c₀.Before c₁ → c₁.Before c →
          Reads .arguments [] Expr.unnumberedAll Expr.idsAll c₁ args c →
          Prolongs .call Expr.unnumbered callee c₀ e c' := by
  refine .bind (expectSymbol_meets _ _) fun closing => ?_
  apply (h.callsAfter (.call callee closing args)).weaken
  intro c₃ e c₄ _ h₃ c₂ hb₂ h₂ opening c c₁ hl ht hb hb₁ h₁
  obtain ⟨w, hw, hd, hf⟩ := h₁
  obtain ⟨hr, ht'⟩ := h₂
  obtain ⟨w', hw', hd', hf'⟩ := h₃
  rw [hb.depth] at hd
  rw [hb₂.depth, hb₁.depth, hb.depth] at hd'
  refine ⟨opening :: w ++ closing :: w', by simp [ht.rest, hw, ht'.rest, hw'],
    fun w₀ hcallee => ?_, fun lo hlo hfresh => ?_⟩
  · have hd'' := hd' _ (.application hcallee hl hd hr)
    simpa using hd''
  · have hle := hb₁.nextId
    rw [ht.nextId] at hf hle
    apply hf' lo (by have := ht'.nextId; omega)
    rw [ht'.nextId]
    exact hfresh.append hf hlo hle

theorem callsAfter_prolongs (h : ReadsExpressions fuel) (callee : Expr) :
    (callsAfter (fuel + 1) callee).Meets (Prolongs .call Expr.unnumbered callee) := by
  rw [Parser.callsAfter]
  refine .attempt (symbol_meets _) (.attempt (symbol_meets _) ?_ fun dot => ?_) fun opening => ?_
  · exact .pure _ fun c => ⟨[], rfl, fun w₀ hd => by simpa using hd, fun lo _ hf => hf⟩
  · refine .bind (expectName_meets _) fun name => ?_
    apply (h.callsAfter (.get callee name)).weaken
    intro c₂ e c₃ _ h₂ c₁ hb₁ h₁ c hb h₀
    obtain ⟨hdot, ht⟩ := h₀
    obtain ⟨hname, ht'⟩ := h₁
    obtain ⟨w, hw, hd, hf⟩ := h₂
    rw [hb₁.depth, hb.depth] at hd
    refine ⟨dot :: name :: w, by simp [ht.rest, ht'.rest, hw], fun w₀ hcallee => ?_,
      fun lo hlo hfresh => ?_⟩
    · have hd' := hd _ (.property hcallee hdot hname)
      simpa using hd'
    · have hnext : @Eq Nat c₂.nextId c.nextId := ht'.nextId.trans ht.nextId
      rw [hnext] at hf
      exact hf lo hlo hfresh
  · refine .bind (nextIs_meets _) fun closes => .ite (fun _ => ?_) (fun _ => ?_)
    · apply (application_prolongs h callee []).weaken
      intro c₂ e c₃ _ h₂ c₁ _ h₁ c hb h₀
      subst h₁
      exact h₂ opening c _ h₀.1 h₀.2 hb (.refl _) ⟨[], rfl, .noArguments, .nil⟩
    · refine .bind (h.arguments 0) fun args => ?_
      apply (application_prolongs h callee args).weaken
      intro c₃ e c₄ _ h₃ c₂ hb₂ h₂ c₁ _ h₁ c hb h₀
      obtain ⟨⟨w, hw, hd, hf⟩, hlen⟩ := h₂
      subst h₁
      exact h₃ opening c _ h₀.1 h₀.2 hb hb₂
        ⟨w, hw, .someArguments hd (by simpa using hlen), hf⟩

/-- An argument and those after it, of which there may be no more than fit. -/
theorem argumentsFrom_reads (h : ReadsExpressions fuel) (count : Nat) :
    Meets (do
      let value ← expression fuel
      match ← symbol .comma with
      | some _ => return value :: (← arguments fuel (count + 1))
      | none => return [value]) fun c args c' =>
        Reads .moreArguments [] Expr.unnumberedAll Expr.idsAll c args c' ∧
          (count < maxArity → count + args.length ≤ maxArity) := by
  refine .bind h.expression fun value => .attempt (symbol_meets _) ?_ fun comma => ?_
  · refine .pure _ fun c₁ c _ h₀ => ?_
    obtain ⟨w, hw, hd, hf⟩ := h₀
    exact ⟨⟨w, hw, .lastArgument hd, by simpa [Expr.idsAll] using hf⟩, fun hc => hc⟩
  · refine .bind (h.arguments (count + 1)) fun args => .pure _ ?_
    intro c₃ c₂ hb₂ h₂ c₁ hb₁ h₁ c hb h₀
    obtain ⟨w, hw, hd, hf⟩ := h₀
    obtain ⟨hcomma, ht⟩ := h₁
    obtain ⟨⟨w', hw', hd', hf'⟩, hlen⟩ := h₂
    rw [hb₁.depth, hb.depth] at hd'
    refine ⟨⟨w ++ comma :: w', by simp [hw, ht.rest, hw'], .nextArgument hd hcomma hd', ?_⟩,
      fun _ => by rw [List.length_cons]; omega⟩
    have hle := hb₂.nextId
    rw [ht.nextId] at hf' hle
    exact hf.append hf' hb.nextId hle

theorem arguments_reads (h : ReadsExpressions fuel) (count : Nat) :
    (arguments (fuel + 1) count).Meets fun c args c' =>
      Reads .moreArguments [] Expr.unnumberedAll Expr.idsAll c args c' ∧
        count + args.length ≤ maxArity := by
  rw [Parser.arguments]
  refine .ite (fun _ => ?_) (fun hcount => ?_)
  · refine .bind peek_meets fun t => .bind (report_meets _) fun _ => ?_
    exact (argumentsFrom_reads h count).weaken fun _ _ _ _ _ _ _ hfalse => hfalse.elim
  · apply (argumentsFrom_reads h count).weaken
    intro _ _ _ _ hr
    exact ⟨hr.1, hr.2 (Nat.lt_of_not_le hcount)⟩

theorem primary_reads (h : ReadsExpressions fuel) :
    (primary (fuel + 1)).Meets (Reads .primary [] Expr.unnumbered Expr.ids) := by
  rw [Parser.primary]
  refine .attempt (accept?_meets _) (.attempt (keyword_meets _) (.attempt (keyword_meets _)
    (.attempt (accept_meets _) (.attempt (symbol_meets _) (refuse_meets _ _)
      fun opening => ?_) fun name => ?_) fun this => ?_) fun super => ?_) fun ⟨value, t⟩ => ?_
  case refine_1 =>
    refine .bind h.expression fun inner => .bind (expectSymbol_meets _ _) fun closing => .pure _ ?_
    intro c₃ c₂ _ h₂ c₁ hb₁ h₁ c hb h₀
    obtain ⟨hl, ht⟩ := h₀
    obtain ⟨w, hw, hd, hf⟩ := h₁
    obtain ⟨hr, ht'⟩ := h₂
    rw [hb.depth] at hd
    refine ⟨opening :: w ++ [closing], by simp [ht.rest, hw, ht'.rest],
      .grouping hl hd hr, ?_⟩
    rw [ht'.nextId, ← ht.nextId]
    exact hf
  case refine_2 =>
    refine .bind (reference_meets _) fun r => .pure _ ?_
    intro c₂ c₁ _ h₁ c _ h₀
    have hf := reference_fresh h₁
    obtain ⟨rfl, hrest, -⟩ := h₁
    refine ⟨[name], by simp [h₀.2.rest, hrest],
      .name (TokenKind.isIdentifier_iff.mp h₀.1), ?_⟩
    rw [← h₀.2.nextId]
    exact hf
  case refine_3 =>
    refine .bind (reference_meets _) fun r => .pure _ ?_
    intro c₂ c₁ _ h₁ c _ h₀
    have hf := reference_fresh h₁
    obtain ⟨rfl, hrest, -⟩ := h₁
    refine ⟨[this], by simp [h₀.2.rest, hrest], .this h₀.1, ?_⟩
    rw [← h₀.2.nextId]
    exact hf
  case refine_4 =>
    refine .bind (expectSymbol_meets _ _) fun dot => .bind (expectName_meets _) fun method => ?_
    refine .bind (reference_meets _) fun r => .pure _ ?_
    intro c₄ c₃ _ h₃ c₂ _ h₂ c₁ _ h₁ c _ h₀
    have hf := reference_fresh h₃
    obtain ⟨rfl, hrest, -⟩ := h₃
    have hnext : @Eq Nat c₃.nextId c.nextId :=
      h₂.2.nextId.trans (h₁.2.nextId.trans h₀.2.nextId)
    refine ⟨[super, dot, method], by simp [h₀.2.rest, h₁.2.rest, h₂.2.rest, hrest],
      .super h₀.1 h₁.1 h₂.1, ?_⟩
    rw [← hnext]
    exact hf
  case refine_5 =>
    refine .pure _ fun c₁ c _ h₀ => ?_
    exact ⟨[t], by simp [h₀.2.rest], .constant (Literal.constant_of_ofKind? h₀.1), .nil⟩

theorem readsExpressions (fuel : Nat) : ReadsExpressions fuel := by
  induction fuel with
  | zero =>
      constructor <;> intros <;>
        simp only [Parser.expression, Parser.assignment, Parser.operators, Parser.operatorsAfter,
          Parser.operand, Parser.unary, Parser.callsAfter, Parser.arguments, Parser.primary] <;>
        exact refuse_meets _ _
  | succ fuel ih =>
      exact ⟨expression_reads ih, assignment_reads ih, operators_reads ih,
        operatorsAfter_prolongs ih, operand_reads ih, unary_reads ih, callsAfter_prolongs ih,
        arguments_reads ih, primary_reads ih⟩

theorem optionalExpression_reads (fuel : Nat) (stop : Symbol) :
    (optionalExpression fuel stop).Meets
      (Reads .optionalExpression [] (Option.map Expr.unnumbered) Expr.idsOptional) := by
  rw [Parser.optionalExpression]
  refine .bind (nextIs_meets _) fun stops => .ite (fun _ => ?_) (fun _ => ?_)
  · refine .pure _ fun c₁ c _ h₀ => ?_
    subst h₀
    exact ⟨[], rfl, .noExpression, .nil⟩
  · refine .bind (readsExpressions fuel).expression fun e => .pure _ fun c₂ c₁ _ h₁ c _ h₀ => ?_
    obtain ⟨w, hw, hd, hf⟩ := h₁
    subst h₀
    exact ⟨w, hw, .someExpression hd, hf⟩

/-! ## Simple statements -/

theorem expressionStatement_reads (fuel : Nat) :
    (expressionStatement fuel).Meets (Reads .exprStmt [] Stmt.unnumbered Stmt.ids) := by
  rw [Parser.expressionStatement]
  refine .bind (readsExpressions fuel).expression fun e => .bind (expectSymbol_meets _ _) ?_
  refine fun semicolon => .pure _ fun c₂ c₁ _ h₁ c hb h₀ => ?_
  obtain ⟨w, hw, hd, hf⟩ := h₀
  obtain ⟨hs, ht⟩ := h₁
  refine ⟨w ++ [semicolon], by simp [hw, ht.rest], .exprStmt hd hs, ?_⟩
  rw [ht.nextId]
  exact hf

theorem variableDeclaration_reads (fuel : Nat) :
    (variableDeclaration fuel).Meets fun c s c' =>
      ∀ v, v.kind = .keyword .var → Reads .varDecl [v] Stmt.unnumbered Stmt.ids c s c' := by
  rw [Parser.variableDeclaration]
  refine .bind (expectName_meets _) fun name =>
    .attempt (symbol_meets _) (.pure_bind ?_) fun equals => ?_
  · refine .bind (expectSymbol_meets _ _) fun semicolon => .pure _ ?_
    intro c₂ c₁ _ h₁ c hb h₀ v hv
    exact ⟨[name, semicolon], by simp [h₀.2.rest, h₁.2.rest], .variable hv h₀.1 h₁.1, .nil⟩
  · refine .bind (.map (readsExpressions fuel).expression) fun initializer =>
      .bind (expectSymbol_meets _ _) fun semicolon => .pure _ ?_
    intro c₄ c₃ _ h₃ c₂ hb₂ h₂ c₁ hb₁ h₁ c hb h₀ v hv
    obtain ⟨hn, ht⟩ := h₀
    obtain ⟨hq, ht₁⟩ := h₁
    obtain ⟨e, rfl, w, hw, hd, hf⟩ := h₂
    obtain ⟨hs, ht₃⟩ := h₃
    rw [hb₁.depth, hb.depth] at hd
    refine ⟨name :: equals :: w ++ [semicolon], by simp [ht.rest, ht₁.rest, hw, ht₃.rest],
      .initialized hv hn hq hd hs, ?_⟩
    rw [ht₃.nextId]
    exact hf.weaken (Nat.le_trans hb.nextId hb₁.nextId) (Nat.le_refl _)

theorem parameters_reads (fuel count : Nat) :
    (parameters fuel count).Meets fun c ps c' =>
      Reads .moreParameters [] id (fun _ => []) c ps c' ∧ count + ps.length ≤ maxArity := by
  induction fuel generalizing count with
  | zero =>
      rw [Parser.parameters]
      exact refuse_meets _ _
  | succ fuel ih =>
      have hfrom : Meets (do
          let name ← expectName .parameter
          match ← symbol .comma with
          | some _ => return name :: (← parameters fuel (count + 1))
          | none => return [name]) fun c ps c' =>
            Reads .moreParameters [] id (fun _ => []) c ps c' ∧
              (count < maxArity → count + ps.length ≤ maxArity) := by
        refine .bind (expectName_meets _) fun name =>
          .attempt (symbol_meets _) ?_ fun comma => ?_
        · refine .pure _ fun c₁ c _ h₀ => ?_
          exact ⟨⟨[name], by simp [h₀.2.rest], .lastParameter h₀.1, .nil⟩, fun hc => hc⟩
        · refine .bind (ih (count + 1)) fun names => .pure _ ?_
          intro c₃ c₂ _ h₂ c₁ hb₁ h₁ c hb h₀
          obtain ⟨⟨w, hw, hd, -⟩, hlen⟩ := h₂
          rw [hb₁.depth, hb.depth] at hd
          exact ⟨⟨name :: comma :: w, by simp [h₀.2.rest, h₁.2.rest, hw],
            .nextParameter h₀.1 h₁.1 hd, .nil⟩, fun _ => by rw [List.length_cons]; omega⟩
      rw [Parser.parameters]
      refine .ite (fun _ => ?_) (fun hcount => ?_)
      · refine .bind peek_meets fun t => .bind (report_meets _) fun _ => ?_
        exact hfrom.weaken fun _ _ _ _ _ _ _ hfalse => hfalse.elim
      · apply hfrom.weaken
        intro _ _ _ _ hr
        exact ⟨hr.1, hr.2 (Nat.lt_of_not_le hcount)⟩

end Parser

end Lox
