import Lox.Proofs.Syntax.ReadStatements
import Lox.Token.Lexer

/-!
# Words and operators in trees

A word of a source is a keyword if it is spelled like one, and a name otherwise.
So in a tree that is read from a source no declared name is `this` or `super`,
every operator is what its token says, and only declarations declare.
-/

namespace Lox

/-! ## Tokens -/

/-- Whether a token is not spelled like a keyword. -/
def Token.IsName (t : Token) : Prop :=
  ∀ k : Keyword, t.lexeme ≠ k.text

/-- Whether a word is spelled as its kind says. -/
def Token.IsSpelled (t : Token) : Prop :=
  match t.kind with
  | .keyword k => t.lexeme = k.text
  | .identifier => t.IsName
  | _ => True

theorem Token.IsSpelled.keyword {t : Token} {k : Keyword} (h : t.IsSpelled)
    (hk : t.kind = .keyword k) : t.lexeme = k.text := by
  simpa only [Token.IsSpelled, hk] using h

theorem Token.IsSpelled.name {t : Token} (h : t.IsSpelled) (hk : t.kind = .identifier) :
    t.IsName := by
  simpa only [Token.IsSpelled, hk] using h

theorem wordKind_isSpelled (text : List Char) (line : Nat) :
    Token.IsSpelled ⟨Chunk.wordKind text, .ofList text, line⟩ := by
  unfold Chunk.wordKind
  cases hk : Keyword.ofText? (.ofList text) with
  | some k =>
      have hk := List.find?_some hk
      simpa [Token.IsSpelled] using (beq_iff_eq.mp hk).symm
  | none =>
      intro k hlexeme
      have hk := List.find?_eq_none.mp hk k (Keyword.mem_all k)
      exact hk (beq_iff_eq.mpr hlexeme.symm)

/-- What is cut off a source as a token is spelled as its kind says. -/
theorem Chunk.first_isSpelled {c : Char} {cs text rest : List Char} {kind : TokenKind}
    (h : Chunk.first c cs = .lexeme kind text rest) (line : Nat) :
    Token.IsSpelled ⟨kind, .ofList text, line⟩ := by
  unfold Chunk.first at h
  split at h
  · cases h
  split at h
  · unfold Chunk.slash at h
    split at h <;> cases h
    trivial
  split at h
  · unfold Chunk.quoted at h
    simp only at h
    split at h <;> cases h
    trivial
  split at h
  · unfold Chunk.number at h
    simp only at h
    split at h
    · split at h <;> cases h <;> trivial
    · cases h
      trivial
  split at h
  · cases h
    exact wordKind_isSpelled _ line
  · unfold Chunk.mark at h
    split at h
    · cases h
      trivial
    · split at h <;> cases h <;> trivial
    · cases h

theorem lexFrom_isSpelled (line : Nat) (source : List Char) :
    ∀ t ∈ (lexFrom line source).tokens, t.IsSpelled := by
  fun_induction lexFrom line source with
  | case1 line =>
      intro t ht
      obtain rfl := List.mem_singleton.mp ht
      trivial
  | case2 _ _ _ _ _ _ ih => exact ih
  | case3 line c cs kind text rest h line' ih =>
      intro t ht
      obtain rfl | ht := List.mem_cons.mp ht
      · exact Chunk.first_isSpelled h _
      · exact ih t ht
  | case4 => exact fun t ht => absurd ht List.not_mem_nil

theorem lex_isSpelled {source : String} {tokens : List Token}
    (h : (lex source).toExcept = .ok tokens) : ∀ t ∈ tokens, t.IsSpelled := by
  unfold Lexing.toExcept at h
  split at h <;> cases h
  exact lexFrom_isSpelled 1 source.toList

/-! ## Trees -/

/-- Whether a statement declares nothing. -/
def Stmt.IsPlain : Stmt → Prop
  | .varDecl .. | .funDecl .. | .classDecl .. => False
  | _ => True

/-- The name that a statement declares in the scope around it. -/
def Stmt.declared? : Stmt → Option Token
  | .varDecl name _ => some name
  | .funDecl function => some function.name
  | .classDecl name _ _ => some name
  | _ => none

theorem Stmt.IsPlain.declared? {s : Stmt} (h : s.IsPlain) : s.declared? = none := by
  cases s with
  | varDecl | funDecl | classDecl => cases h
  | _ => rfl

mutual

/-- Whether a statement declares nothing in the scope in which it stands. What is inside a
block stands in the scope of the block. -/
def Stmt.IsBare : Stmt → Prop
  | .varDecl .. | .funDecl .. | .classDecl .. => False
  | .branch _ yes no => yes.IsBare ∧ Stmt.IsBareOptional no
  | .loop _ body => body.IsBare
  | _ => True

/-- Whether a statement that may be left out declares nothing in the scope in which it
stands. -/
def Stmt.IsBareOptional : Option Stmt → Prop
  | none => True
  | some s => s.IsBare

end

mutual

/-- Whether an expression has its words and operators from a source. -/
def Expr.IsSpelled : Expr → Prop
  | .literal _ => True
  | .variable target => target.name.IsName
  | .receiver target => target.name.lexeme = Keyword.this.text
  | .inherited target _ => target.name.lexeme = Keyword.super.text
  | .grouping inner => inner.IsSpelled
  | .unary op operator operand => UnaryOp.Operator operator.kind op ∧ operand.IsSpelled
  | .binary op operator left right =>
      (∃ t : Tier, t.Operator operator.kind (.binary op)) ∧ left.IsSpelled ∧ right.IsSpelled
  | .logical op operator left right =>
      (∃ t : Tier, t.Operator operator.kind (.logical op)) ∧ left.IsSpelled ∧ right.IsSpelled
  | .assign target value => target.name.IsName ∧ value.IsSpelled
  | .get object _ => object.IsSpelled
  | .set object _ value => object.IsSpelled ∧ value.IsSpelled
  | .call callee _ arguments => callee.IsSpelled ∧ Expr.AreSpelled arguments

/-- Whether expressions have their words and operators from a source. -/
def Expr.AreSpelled : List Expr → Prop
  | [] => True
  | e :: es => e.IsSpelled ∧ Expr.AreSpelled es

end

mutual

/-- Whether a statement has its words and operators from a source. -/
def Stmt.IsSpelled : Stmt → Prop
  | .expression value => value.IsSpelled
  | .print value => value.IsSpelled
  | .varDecl name initializer => name.IsName ∧ ∀ e ∈ initializer, e.IsSpelled
  | .funDecl function => function.IsSpelled
  | .classDecl name superclass methods =>
      name.IsName ∧ (∀ r ∈ superclass, r.name.IsName) ∧ FunctionDecl.AreSpelled methods
  | .block body => Stmt.AreSpelled body
  | .branch condition yes no =>
      condition.IsSpelled ∧ yes.IsSpelled ∧ yes.IsPlain ∧ Stmt.IsSpelledOptional no
  | .loop condition body => condition.IsSpelled ∧ body.IsSpelled ∧ body.IsPlain
  | .ret _ value => ∀ e ∈ value, e.IsSpelled

/-- Whether statements have their words and operators from a source. -/
def Stmt.AreSpelled : List Stmt → Prop
  | [] => True
  | s :: ss => s.IsSpelled ∧ Stmt.AreSpelled ss

/-- Whether a statement after `else` has its words and operators from a source. -/
def Stmt.IsSpelledOptional : Option Stmt → Prop
  | none => True
  | some s => s.IsSpelled ∧ s.IsPlain

/-- Whether a function has its words and operators from a source. -/
def FunctionDecl.IsSpelled : FunctionDecl → Prop
  | ⟨name, parameters, body⟩ =>
      name.IsName ∧ (∀ p ∈ parameters, p.IsName) ∧ Stmt.AreSpelled body

/-- Whether functions have their words and operators from a source. -/
def FunctionDecl.AreSpelled : List FunctionDecl → Prop
  | [] => True
  | d :: ds => d.IsSpelled ∧ FunctionDecl.AreSpelled ds

end

/-- Whether the trees of a rule have their words and operators from a source. -/
def Rule.IsSpelled : (r : Rule) → r.Tree → Prop
  | .primary, e | .call, e | .unary, e | .operand _, e | .tier _, e | .assignment, e
  | .expression, e => Expr.IsSpelled e
  | .optionalExpression, o => ∀ e ∈ (o : Option Expr), e.IsSpelled
  | .moreArguments, es | .arguments, es => Expr.AreSpelled es
  | .varDecl, s | .classDecl, s | .declaration, s => Stmt.IsSpelled s
  | .exprStmt, s | .statement _, s => Stmt.IsSpelled s ∧ Stmt.IsPlain s
  | .forInitializer, o => ∀ s ∈ (o : Option Stmt), s.IsSpelled
  | .moreParameters, ps | .parameters, ps => ∀ p ∈ (ps : List Token), p.IsName
  | .callable, d => FunctionDecl.IsSpelled d
  | .methods, ds => FunctionDecl.AreSpelled ds
  | .block, ss | .declarations, ss => Stmt.AreSpelled ss

theorem forLoop_isSpelled {i : Option Stmt} {c e : Option Expr} {s : Stmt}
    (hi : ∀ s ∈ i, s.IsSpelled) (hc : ∀ e ∈ c, e.IsSpelled) (he : ∀ e' ∈ e, e'.IsSpelled)
    (hs : s.IsSpelled ∧ s.IsPlain) :
    (Stmt.forLoop i c e s).IsSpelled ∧ (Stmt.forLoop i c e s).IsPlain := by
  have hcondition : (c.getD (.literal (.bool true))).IsSpelled := by
    cases c with
    | none => trivial
    | some c => exact hc c rfl
  cases i <;> cases e <;>
    simp_all [Stmt.forLoop, Stmt.IsSpelled, Stmt.AreSpelled, Stmt.IsPlain]

theorem Tier.Operator.isSpelled {t : Tier} {o : Token} {node : Token → Expr → Expr → Expr}
    (h : t.Operator o.kind node) {left right : Expr} (hl : left.IsSpelled) (hr : right.IsSpelled) :
    (node o left right).IsSpelled := by
  have hop := h
  generalize o.kind = k at h
  cases h <;> exact ⟨⟨_, hop⟩, hl, hr⟩

/-- What is derived from tokens of a source has its words and operators from it. -/
theorem Derives.isSpelled {nearest : Prop} {r : Rule} {room : Nat} {w : List Token}
    {tree : r.Tree} (h : Derives nearest r room w tree) (hw : ∀ t ∈ w, t.IsSpelled) :
    r.IsSpelled tree := by
  induction h with
  | this ht => exact (hw _ List.mem_cons_self).keyword ht
  | super hs => exact (hw _ List.mem_cons_self).keyword hs
  | name hn => exact (hw _ List.mem_cons_self).name hn
  | operator _ hop _ ih ih' =>
      simp only [List.forall_mem_append, List.forall_mem_cons] at hw
      exact hop.isSpelled (ih hw.1) (ih' hw.2.2)
  | assign hn _ _ ih =>
      simp only [List.forall_mem_cons] at hw
      exact ⟨hw.1.name hn, ih hw.2.2⟩
  | «for» hk hl hi hc hm he hr hs ihi ihc ihe ihs =>
      simp only [List.forall_mem_append, List.forall_mem_cons] at hw
      exact forLoop_isSpelled (ihi (by grind)) (ihc (by grind)) (ihe (by grind)) (ihs (by grind))
  | _ =>
      simp_all [Rule.IsSpelled, Expr.IsSpelled, Expr.AreSpelled, Stmt.IsSpelled, Stmt.AreSpelled,
        Stmt.IsSpelledOptional, FunctionDecl.IsSpelled, FunctionDecl.AreSpelled, Stmt.IsPlain,
        Token.IsSpelled.name, Reference.to, or_imp, forall_and]

/-- A program that is read from a source has its words and operators from it. -/
theorem isSpelled_of_parseProgram {source : String} {tokens : List Token}
    {firstId nextId : NodeId} {ss : List Stmt} (hlex : (lex source).toExcept = .ok tokens)
    (h : parseProgram tokens firstId = (.ok ss, nextId)) :
    Stmt.AreSpelled (Stmt.unnumberedAll ss) := by
  obtain ⟨c', -, ⟨w, hw, hd, -⟩, -⟩ := (Parser.program_reads _).run h
  refine hd.isSpelled fun t ht => lex_isSpelled hlex t ?_
  rw [show tokens = w ++ c'.rest from hw]
  exact List.mem_append_left _ ht

/-- An expression that is read from a source has its words and operators from it. -/
theorem isSpelled_of_parseExpression {source : String} {tokens : List Token}
    {firstId nextId : NodeId} {e : Expr} (hlex : (lex source).toExcept = .ok tokens)
    (h : parseExpression tokens firstId = (.ok e, nextId)) : e.unnumbered.IsSpelled := by
  obtain ⟨c', -, ⟨w, hw, hd, -⟩, -⟩ := (Parser.wholeExpression_reads _).run h
  refine hd.isSpelled fun t ht => lex_isSpelled hlex t ?_
  rw [show tokens = w ++ c'.rest from hw]
  exact List.mem_append_left _ ht

end Lox
