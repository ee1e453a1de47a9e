import Lox.Proofs.Syntax.ReadExpressions

/-!
# What the parsers of statements read

Whenever a parser of statements or declarations succeeds without a report, the
tokens that it took are derived by its rule, as for expressions. A statement
that ends in an `if` without `else` is read only if no `else` follows, so an
`else` belongs to the nearest `if`. Hence what is read as a whole program,
or as a whole expression, is derived as one.
-/

namespace Lox

namespace Parser

/-- What the parser of statements reads. -/
def ReadsStatement (before : List Token) (c : Cursor) (s : Stmt) (c' : Cursor) : Prop :=
  ∃ isOpen, Reads (.statement isOpen) before Stmt.unnumbered Stmt.ids c s c' ∧
    (isOpen = true → ∀ t ∈ c'.rest.head?, t.kind ≠ .keyword .else)

/-- What the parsers of declarations and statements read with so much fuel. -/
structure ReadsStatements (fuel : Nat) : Prop where
  declaration : (declaration fuel).Meets fun c s c' =>
    ∃ t, s = some t ∧ Reads .declaration [] Stmt.unnumbered Stmt.ids c t c'
  declarations :
    (declarations fuel).Meets (Reads .declarations [] Stmt.unnumberedAll Stmt.idsAll)
  block : (block fuel).Meets fun c ss c' =>
    ∀ l, l.kind = .symbol .leftBrace →
      Reads .block [l] Stmt.unnumberedAll Stmt.idsAll c ss c'
  callable (kind : CallableKind) :
    (callable fuel kind).Meets (Reads .callable [] FunctionDecl.unnumbered FunctionDecl.ids)
  methods :
    (methods fuel).Meets (Reads .methods [] FunctionDecl.unnumberedAll FunctionDecl.idsAll)
  classDeclaration : (classDeclaration fuel).Meets fun c s c' =>
    ∀ k, k.kind = .keyword .cls → Reads .classDecl [k] Stmt.unnumbered Stmt.ids c s c'
  statement : (statement fuel).Meets (ReadsStatement [])
  ifStatement : (ifStatement fuel).Meets fun c s c' =>
    ∀ k, k.kind = .keyword .if → ReadsStatement [k] c s c'
  forStatement : (forStatement fuel).Meets fun c s c' =>
    ∀ k, k.kind = .keyword .for → ReadsStatement [k] c s c'

variable {fuel : Nat}

/-! ## Declarations -/

theorem declaration_reads (h : ReadsStatements fuel) :
    (declaration (fuel + 1)).Meets fun c s c' =>
      ∃ t, s = some t ∧ Reads .declaration [] Stmt.unnumbered Stmt.ids c t c' := by
  rw [Parser.declaration]
  refine recovering_meets (.attempt (keyword_meets _) (.attempt (keyword_meets _)
    (.attempt (keyword_meets _) ?_ fun v => ?_) fun f => ?_) fun k => ?_)
  · apply h.statement.weaken
    intro c s c' _ hr
    obtain ⟨isOpen, ⟨w, hw, hd, hf⟩, -⟩ := hr
    exact ⟨w, hw, .statement hd, hf⟩
  · apply (variableDeclaration_reads fuel).weaken
    intro c₁ s c₂ _ h₁ c hb h₀
    obtain ⟨w, hw, hd, hf⟩ := h₁ v h₀.1
    rw [hb.depth] at hd
    exact ⟨v :: w, by simp [h₀.2.rest, hw], .declareVariable hd, h₀.2.nextId ▸ hf⟩
  · apply (Meets.map (h.callable .function)).weaken
    intro c₁ s c₂ _ h₁ c hb h₀
    obtain ⟨d, rfl, w, hw, hd, hf⟩ := h₁
    rw [hb.depth] at hd
    exact ⟨f :: w, by simp [h₀.2.rest, hw], .declareFunction h₀.1 hd, h₀.2.nextId ▸ hf⟩
  · apply h.classDeclaration.weaken
    intro c₁ s c₂ _ h₁ c hb h₀
    obtain ⟨w, hw, hd, hf⟩ := h₁ k h₀.1
    rw [hb.depth] at hd
    exact ⟨k :: w, by simp [h₀.2.rest, hw], .declareClass hd, h₀.2.nextId ▸ hf⟩

/-- A declaration and those after it. -/
theorem declarationsFrom_reads {p : Parser (List Stmt)}
    (hdecl : (declaration fuel).Meets fun c s c' =>
      ∃ t, s = some t ∧ Reads .declaration [] Stmt.unnumbered Stmt.ids c t c')
    (hp : p.Meets (Reads .declarations [] Stmt.unnumberedAll Stmt.idsAll)) :
    Meets (do
      let first ← declaration fuel
      let others ← p
      return first.toList ++ others) (Reads .declarations [] Stmt.unnumberedAll Stmt.idsAll) := by
  refine .bind hdecl fun first => .bind hp fun others => .pure _ fun c₂ c₁ hb₁ h₁ c hb h₀ => ?_
  obtain ⟨s, rfl, w, hw, hd, hf⟩ := h₀
  obtain ⟨w', hw', hd', hf'⟩ := h₁
  rw [hb.depth] at hd'
  exact .of_derives (by simp [hw, hw']) (.declarations hd hd')
    (hf.append hf' hb.nextId hb₁.nextId)

theorem declarations_reads (h : ReadsStatements fuel) :
    (declarations (fuel + 1)).Meets
      (Reads .declarations [] Stmt.unnumberedAll Stmt.idsAll) := by
  rw [Parser.declarations]
  refine .bind (nextIs_meets _) fun closes => .bind atEnd_meets fun ends =>
    .ite (fun _ => ?_) (fun _ => ?_)
  · refine .pure _ fun c₂ c₁ _ h₁ c _ h₀ => ?_
    subst h₁ h₀
    exact ⟨[], rfl, .noDeclaration, .nil⟩
  · apply (declarationsFrom_reads h.declaration h.declarations).weaken
    intro c₂ ss c₃ _ h₂ c₁ _ h₁ c _ h₀
    subst h₁ h₀
    exact h₂

theorem block_reads (h : ReadsStatements fuel) :
    (block (fuel + 1)).Meets fun c ss c' =>
      ∀ l, l.kind = .symbol .leftBrace →
        Reads .block [l] Stmt.unnumberedAll Stmt.idsAll c ss c' := by
  rw [Parser.block]
  refine (nested_meets (Q := fun c ss c' => ∃ w r, c.rest = w ++ r :: c'.rest ∧
    Derives True .declarations (maxNesting - c.depth) w (Stmt.unnumberedAll ss) ∧
    r.kind = .symbol .rightBrace ∧ Fresh c.nextId c'.nextId (Stmt.idsAll ss)) ?_).weaken ?_
  · refine .bind h.declarations fun body => .bind (expectSymbol_meets _ _) fun r => .pure _ ?_
    intro c₂ c₁ _ h₁ c _ h₀
    obtain ⟨w, hw, hd, hf⟩ := h₀
    obtain ⟨hr, ht⟩ := h₁
    exact ⟨w, r, by simp [hw, ht.rest], hd, hr, ht.nextId ▸ hf⟩
  · intro c ss c' _ hread l hl
    obtain ⟨hroom, w, r, hw, hd, hr, hf⟩ := hread
    refine ⟨w ++ [r], by simpa using hw, ?_, hf⟩
    rw [show maxNesting - c.depth = maxNesting - (c.depth + 1) + 1 by omega]
    exact .block hl hd hr

/-! ## Functions and classes -/

/-- The rest of a function after its parameters. -/
theorem callableFrom_reads (h : ReadsStatements fuel) (kind : CallableKind) (name : Token)
    (names : List Token) :
    Meets (do
      let _ ← expectSymbol .rightParen .afterParameters
      let _ ← expectSymbol .leftBrace (.beforeCallableBody kind)
      let body ← block fuel
      return (⟨name, names, body⟩ : FunctionDecl)) fun c d c' =>
        ∀ l c₀ c₁ c₂, name.kind = .identifier → l.kind = .symbol .leftParen →
          c₀.Took name c₁ → c₁.Took l c₂ → c₀.Before c₂ → c₂.Before c →
          Reads .parameters [] id (fun _ => []) c₂ names c →
          Reads .callable [] FunctionDecl.unnumbered FunctionDecl.ids c₀ d c' := by
  refine .bind (expectSymbol_meets _ _) fun r => .bind (expectSymbol_meets _ _) fun l' =>
    .bind h.block fun body => .pure _ ?_
  intro c₆ c₅ _ h₅ c₄ hb₄ h₄ c₃ hb₃ h₃ l c c₁ c₂ hn hl ht ht₁ hb hb₂ h₂
  obtain ⟨w, hw, hd, -⟩ := h₂
  obtain ⟨w', hw', hd', hf'⟩ := h₅ l' h₄.1
  rw [hb.depth] at hd
  rw [hb₄.depth, hb₃.depth, hb₂.depth, hb.depth] at hd'
  refine ⟨name :: l :: w ++ r :: l' :: w', by simp [ht.rest, ht₁.rest, hw, h₃.2.rest,
    h₄.2.rest, hw'], .callable hn hl hd h₃.1 hd', hf'.weaken ?_ (Nat.le_refl _)⟩
  exact Nat.le_trans hb.nextId (Nat.le_trans hb₂.nextId (Nat.le_trans hb₃.nextId hb₄.nextId))

theorem callable_reads (h : ReadsStatements fuel) (kind : CallableKind) :
    (callable (fuel + 1) kind).Meets
      (Reads .callable [] FunctionDecl.unnumbered FunctionDecl.ids) := by
  rw [Parser.callable]
  refine .bind (expectName_meets _) fun name => .bind (expectSymbol_meets _ _) fun l =>
    .bind (nextIs_meets _) fun closes => .ite (fun _ => .pure_bind ?_) (fun _ => ?_)
  · apply (callableFrom_reads h kind name []).weaken
    intro c₃ d c₄ _ h₃ c₂ _ h₂ c₁ hb₁ h₁ c hb h₀
    subst h₂
    exact h₃ l c c₁ _ h₀.1 h₁.1 h₀.2 h₁.2 (hb.trans hb₁) (.refl _) ⟨[], rfl, .noParameters, .nil⟩
  · refine .bind (parameters_reads fuel 0) fun names => ?_
    apply (callableFrom_reads h kind name names).weaken
    intro c₄ d c₅ _ h₄ c₃ hb₃ h₃ c₂ _ h₂ c₁ hb₁ h₁ c hb h₀
    obtain ⟨⟨w, hw, hd, hf⟩, hlen⟩ := h₃
    subst h₂
    exact h₄ l c c₁ _ h₀.1 h₁.1 h₀.2 h₁.2 (hb.trans hb₁) hb₃
      ⟨w, hw, .someParameters hd (by simpa using hlen), hf⟩

/-- A method and those after it, behind the word `fun` or not. -/
theorem methodsFrom_reads (h : ReadsStatements fuel) :
    Meets (do
      let first ← callable fuel .method
      let others ← methods fuel
      return first :: others) fun c ds c' =>
        ∃ d ds' w w', ds = d :: ds' ∧ c.rest = w ++ w' ++ c'.rest ∧
          Derives True .callable (maxNesting - c.depth) w d.unnumbered ∧
          Derives True .methods (maxNesting - c.depth) w' (FunctionDecl.unnumberedAll ds') ∧
          Fresh c.nextId c'.nextId (FunctionDecl.idsAll ds) := by
  refine .bind (h.callable .method) fun d => .bind h.methods fun ds => .pure _ ?_
  intro c₂ c₁ hb₁ h₁ c hb h₀
  obtain ⟨w, hw, hd, hf⟩ := h₀
  obtain ⟨w', hw', hd', hf'⟩ := h₁
  rw [hb.depth] at hd'
  exact ⟨d, ds, w, w', rfl, by simp [hw, hw'], hd, hd', hf.append hf' hb.nextId hb₁.nextId⟩

theorem methods_reads (h : ReadsStatements fuel) :
    (methods (fuel + 1)).Meets
      (Reads .methods [] FunctionDecl.unnumberedAll FunctionDecl.idsAll) := by
  rw [Parser.methods]
  refine .bind (nextIs_meets _) fun closes => .bind atEnd_meets fun ends =>
    .ite (fun _ => ?_) (fun _ => .attempt (keyword_meets _) ?_ fun f => ?_)
  · refine .pure _ fun c₂ c₁ _ h₁ c _ h₀ => ?_
    subst h₁ h₀
    exact ⟨[], rfl, .noMethods, .nil⟩
  · apply (methodsFrom_reads h).weaken
    intro c₂ ds c₃ _ h₂ c₁ _ h₁ c _ h₀
    obtain ⟨d, ds, w, w', rfl, hw, hd, hd', hf⟩ := h₂
    subst h₁ h₀
    exact .of_derives hw (.method hd hd') hf
  · apply (methodsFrom_reads h).weaken
    intro c₃ ds c₄ _ h₃ c₂ hb₂ h₂ c₁ _ h₁ c _ h₀
    obtain ⟨d, ds, w, w', rfl, hw, hd, hd', hf⟩ := h₃
    subst h₁ h₀
    rw [hb₂.depth] at hd hd'
    exact ⟨f :: w ++ w', by simp [h₂.2.rest, hw], .funMethod h₂.1 hd hd', h₂.2.nextId ▸ hf⟩

/-- The braces of a class and what stands between them. -/
theorem classBody_reads (h : ReadsStatements fuel) (name : Token) (superclass : Option Reference) :
    Meets (do
      let _ ← expectSymbol .leftBrace .beforeClassBody
      let members ← methods fuel
      let _ ← expectSymbol .rightBrace .afterClassBody
      return Stmt.classDecl name superclass members) fun c s c' =>
        ∃ l w r ds, s = .classDecl name superclass ds ∧ c.rest = l :: w ++ r :: c'.rest ∧
          l.kind = .symbol .leftBrace ∧ r.kind = .symbol .rightBrace ∧
          Derives True .methods (maxNesting - c.depth) w (FunctionDecl.unnumberedAll ds) ∧
          Fresh c.nextId c'.nextId (FunctionDecl.idsAll ds) := by
  refine .bind (expectSymbol_meets _ _) fun l => .bind h.methods fun ds =>
    .bind (expectSymbol_meets _ _) fun r => .pure _ ?_
  intro c₃ c₂ _ h₂ c₁ _ h₁ c hb h₀
  obtain ⟨w, hw, hd, hf⟩ := h₁
  rw [hb.depth] at hd
  refine ⟨l, w, r, ds, rfl, by simp [h₀.2.rest, hw, h₂.2.rest], h₀.1, h₂.1, hd, ?_⟩
  rw [h₂.2.nextId, ← h₀.2.nextId]
  exact hf

theorem classDeclaration_reads (h : ReadsStatements fuel) :
    (classDeclaration (fuel + 1)).Meets fun c s c' =>
      ∀ k, k.kind = .keyword .cls → Reads .classDecl [k] Stmt.unnumbered Stmt.ids c s c' := by
  rw [Parser.classDeclaration]
  refine .bind (expectName_meets _) fun name =>
    .attempt (symbol_meets _) (.pure_bind ?_) fun less => ?_
  · apply (classBody_reads h name none).weaken
    intro c₁ s c₂ _ h₁ c hb h₀ k hk
    obtain ⟨l, w, r, ds, rfl, hw, hl, hr, hd, hf⟩ := h₁
    rw [hb.depth] at hd
    exact ⟨name :: l :: w ++ [r], by simp [h₀.2.rest, hw], .baseClass hk h₀.1 hl hd hr,
      h₀.2.nextId ▸ hf⟩
  · refine .bind (expectName_meets _) fun p => .bind (.map (reference_meets p)) fun superclass => ?_
    apply (classBody_reads h name superclass).weaken
    intro c₄ s c₅ hb₄ h₄ c₃ hb₃ h₃ c₂ hb₂ h₂ c₁ hb₁ h₁ c hb h₀ k hk
    obtain ⟨l, w, r, ds, rfl, hw, hl, hr, hd, hf⟩ := h₄
    obtain ⟨ref, rfl, href⟩ := h₃
    have hid := reference_fresh href
    obtain ⟨rfl, hrest, -⟩ := href
    rw [hb₃.depth, hb₂.depth, hb₁.depth, hb.depth] at hd
    have hlo : (c.nextId : Nat) ≤ c₃.nextId :=
      Nat.le_trans hb.nextId (Nat.le_trans hb₁.nextId hb₂.nextId)
    refine ⟨name :: less :: p :: l :: w ++ [r],
      by simp [h₀.2.rest, h₁.2.rest, h₂.2.rest, ← hrest, hw],
      .subclass hk h₀.1 h₁.1 h₂.1 hl hd hr, ?_⟩
    exact (hid.weaken hlo (Nat.le_refl _)).append hf (Nat.le_trans hlo hb₃.nextId) hb₄.nextId

/-! ## Statements -/

theorem ReadsStatement.of_closed {before w : List Token} {c c' : Cursor} {s : Stmt}
    (hw : c.rest = w ++ c'.rest)
    (hd : Derives True (.statement false) (maxNesting - c.depth) (before ++ w) s.unnumbered)
    (hf : Fresh c.nextId c'.nextId s.ids) : ReadsStatement before c s c' :=
  ⟨false, ⟨w, hw, hd, hf⟩, nofun⟩

/-- A statement that starts before its own parser does. -/
theorem ReadsStatement.behind {k : Token} {c c₁ c' : Cursor} {s : Stmt}
    (h : ReadsStatement [k] c₁ s c') (hb : c.Before c₁) (ht : c.Took k c₁) :
    ReadsStatement [] c s c' := by
  obtain ⟨isOpen, ⟨w, hw, hd, hf⟩, helse⟩ := h
  rw [hb.depth] at hd
  exact ⟨isOpen, ⟨k :: w, by simp [ht.rest, hw], hd, ht.nextId ▸ hf⟩, helse⟩

theorem unnumbered_forLoop (i : Option Stmt) (c e : Option Expr) (s : Stmt) :
    (forLoop i c e s).unnumbered =
      .forLoop (Stmt.unnumberedOptional i) (c.map Expr.unnumbered) (e.map Expr.unnumbered)
        s.unnumbered := by
  cases i <;> cases c <;> cases e <;> rfl

/-- The increment is read before the body that it follows. -/
theorem ids_forLoop (i : Option Stmt) (c e : Option Expr) (s : Stmt) :
    (Stmt.idsOptional i ++ (Expr.idsOptional c ++ (Expr.idsOptional e ++ s.ids))).Perm
      (forLoop i c e s).ids := by
  have hcondition : (c.getD (.literal (.bool true))).ids = Expr.idsOptional c := by
    cases c <;> rfl
  cases e with
  | none =>
      cases i <;> simp [forLoop, Stmt.ids, Stmt.idsAll, Stmt.idsOptional, hcondition,
        Expr.idsOptional]
  | some e =>
      have hround : (e.ids ++ s.ids).Perm (s.ids ++ e.ids) := List.perm_append_comm
      have hrounds := hround.append_left (Expr.idsOptional c)
      cases i with
      | none =>
          simpa only [forLoop, Stmt.ids, Stmt.idsAll, Stmt.idsOptional, Expr.idsOptional,
            Option.elim, hcondition, List.nil_append, List.append_nil]
      | some i =>
          simpa only [forLoop, Stmt.ids, Stmt.idsAll, Stmt.idsOptional, Expr.idsOptional,
            Option.elim, hcondition, List.append_nil] using hrounds.append_left i.ids

/-- The initializer of a loop, up to its semicolon. -/
def ReadsInitializer : Cursor → Option Stmt → Cursor → Prop :=
  Reads .forInitializer [] Stmt.unnumberedOptional Stmt.idsOptional

/-- The rest of a loop after its initializer. -/
theorem forStatementFrom_reads (h : ReadsStatements fuel) (initializer : Option Stmt) :
    Meets (do
      let condition ← optionalExpression fuel .semicolon
      let _ ← expectSymbol .semicolon .afterLoopCondition
      let increment ← optionalExpression fuel .rightParen
      let _ ← expectSymbol .rightParen .afterForClauses
      let body ← statement fuel
      return forLoop initializer condition increment body) fun c s c' =>
        ∀ k l c₀ c₁, k.kind = .keyword .for → l.kind = .symbol .leftParen → c₀.Took l c₁ →
          c₀.Before c₁ → c₁.Before c → ReadsInitializer c₁ initializer c →
          ReadsStatement [k] c₀ s c' := by
  refine .bind (optionalExpression_reads _ _) fun condition => .bind (expectSymbol_meets _ _)
    fun m => .bind (optionalExpression_reads _ _) fun increment =>
    .bind (expectSymbol_meets _ _) fun r => .bind h.statement fun body => .pure _ ?_
  intro c₇ c₆ hb₆ h₆ c₅ hb₅ h₅ c₄ hb₄ h₄ c₃ hb₃ h₃ c₂ hb₂ h₂ k l c c₁ hk hl ht hb hb₁ h₁
  obtain ⟨w, hw, hd, hf⟩ := h₁
  obtain ⟨w₁, hw₁, hd₁, hf₁⟩ := h₂
  obtain ⟨w₂, hw₂, hd₂, hf₂⟩ := h₄
  obtain ⟨isOpen, ⟨w', hw', hd', hf'⟩, helse⟩ := h₆
  rw [hb.depth] at hd
  rw [hb₁.depth, hb.depth] at hd₁
  rw [hb₃.depth, hb₂.depth, hb₁.depth, hb.depth] at hd₂
  rw [hb₅.depth, hb₄.depth, hb₃.depth, hb₂.depth, hb₁.depth, hb.depth] at hd'
  refine ⟨isOpen, ⟨l :: w ++ w₁ ++ m :: w₂ ++ r :: w', by simp [ht.rest, hw, hw₁, h₃.2.rest,
    hw₂, h₅.2.rest, hw'], ?_, ?_⟩, helse⟩
  · rw [unnumbered_forLoop]
    exact .for hk hl hd hd₁ h₃.1 hd₂ h₅.1 hd'
  · refine Fresh.perm ?_ (ids_forLoop initializer condition increment body)
    rw [h₃.2.nextId] at hf₂
    rw [h₅.2.nextId] at hf'
    rw [← ht.nextId]
    have hle₄ : (c₃.nextId : Nat) ≤ c₅.nextId := h₃.2.nextId ▸ hb₄.nextId
    have hle₆ : (c₅.nextId : Nat) ≤ c₇.nextId := h₅.2.nextId ▸ hb₆.nextId
    exact hf.append (hf₁.append (hf₂.append hf' hle₄ hle₆) hb₂.nextId (Nat.le_trans hle₄ hle₆))
      hb₁.nextId (Nat.le_trans hb₂.nextId (Nat.le_trans hle₄ hle₆))

theorem forStatement_reads (h : ReadsStatements fuel) :
    (forStatement (fuel + 1)).Meets fun c s c' =>
      ∀ k, k.kind = .keyword .for → ReadsStatement [k] c s c' := by
  rw [Parser.forStatement]
  refine .bind (expectSymbol_meets _ _) fun l => .attempt (symbol_meets _)
    (.attempt (keyword_meets _) ?_ fun v => ?_) fun m => .pure_bind ?_
  · refine .bind (.map (expressionStatement_reads fuel)) fun initializer => ?_
    apply (forStatementFrom_reads h initializer).weaken
    intro c₂ s c₃ _ h₂ c₁ hb₁ h₁ c hb h₀ k hk
    obtain ⟨s, rfl, w, hw, hd, hf⟩ := h₁
    exact h₂ k l c c₁ hk h₀.1 h₀.2 hb hb₁ ⟨w, hw, .exprInitializer hd, hf⟩
  · refine .bind (.map (variableDeclaration_reads fuel)) fun initializer => ?_
    apply (forStatementFrom_reads h initializer).weaken
    intro c₃ s c₄ _ h₃ c₂ hb₂ h₂ c₁ hb₁ h₁ c hb h₀ k hk
    obtain ⟨s, rfl, hs⟩ := h₂
    obtain ⟨w, hw, hd, hf⟩ := hs v h₁.1
    refine h₃ k l c c₁ hk h₀.1 h₀.2 hb (hb₁.trans hb₂) ⟨v :: w, by simp [h₁.2.rest, hw], ?_, ?_⟩
    · rw [hb₁.depth] at hd
      exact .varInitializer hd
    · rw [← h₁.2.nextId]
      exact hf
  · apply (forStatementFrom_reads h none).weaken
    intro c₂ s c₃ _ h₂ c₁ hb₁ h₁ c hb h₀ k hk
    exact h₂ k l c c₁ hk h₀.1 h₀.2 hb hb₁ ⟨[m], by simp [h₁.2.rest], .noInitializer h₁.1, .nil⟩

theorem loop_reads (h : ReadsStatements fuel) :
    Meets (do
      let _ ← expectSymbol .leftParen .afterWhile
      let condition ← expression fuel
      let _ ← expectSymbol .rightParen .afterWhileCondition
      let body ← statement fuel
      return Stmt.loop condition body) fun c s c' =>
        ∀ k, k.kind = .keyword .while → ReadsStatement [k] c s c' := by
  refine .bind (expectSymbol_meets _ _) fun l => .bind (readsExpressions fuel).expression
    fun e => .bind (expectSymbol_meets _ _) fun r => .bind h.statement fun s => .pure _ ?_
  intro c₄ c₃ hb₃ h₃ c₂ hb₂ h₂ c₁ hb₁ h₁ c hb h₀ k hk
  obtain ⟨w, hw, hd, hf⟩ := h₁
  obtain ⟨isOpen, ⟨w', hw', hd', hf'⟩, helse⟩ := h₃
  rw [hb.depth] at hd
  rw [hb₂.depth, hb₁.depth, hb.depth] at hd'
  refine ⟨isOpen, ⟨l :: w ++ r :: w', by simp [h₀.2.rest, hw, h₂.2.rest, hw'],
    .while hk h₀.1 hd h₂.1 hd', ?_⟩, helse⟩
  rw [h₂.2.nextId] at hf'
  rw [← h₀.2.nextId]
  exact hf.append hf' hb₁.nextId (h₂.2.nextId ▸ hb₃.nextId)

theorem ifStatement_reads (h : ReadsStatements fuel) :
    (ifStatement (fuel + 1)).Meets fun c s c' =>
      ∀ k, k.kind = .keyword .if → ReadsStatement [k] c s c' := by
  rw [Parser.ifStatement]
  refine .bind (expectSymbol_meets _ _) fun l => .bind (readsExpressions fuel).expression
    fun e => .bind (expectSymbol_meets _ _) fun r => .bind h.statement fun yes =>
    .bind (keyword_meets .else).result fun o => ?_
  cases o with
  | none =>
      refine .pure_bind (.pure _ ?_)
      intro c₅ c₄ _ h₄ c₃ hb₃ h₃ c₂ hb₂ h₂ c₁ hb₁ h₁ c hb h₀ k hk
      obtain ⟨rfl, hread⟩ := h₄
      obtain ⟨w, hw, hd, hf⟩ := h₁
      obtain ⟨isOpen, ⟨w', hw', hd', hf'⟩, -⟩ := h₃
      rw [hb.depth] at hd
      rw [hb₂.depth, hb₁.depth, hb.depth] at hd'
      refine ⟨true, ⟨l :: w ++ r :: w', by simp [h₀.2.rest, hw, h₂.2.rest, hw'],
        .ifThen hk h₀.1 hd h₂.1 hd', ?_⟩, fun _ => keyword_absent .else hread⟩
      rw [h₂.2.nextId] at hf'
      rw [← h₀.2.nextId]
      simpa [Stmt.ids, Stmt.idsOptional] using
        hf.append hf' hb₁.nextId (h₂.2.nextId ▸ hb₃.nextId)
  | some x =>
      refine .bind (.map h.statement) fun no => .pure _ ?_
      intro c₆ c₅ hb₅ h₅ c₄ hb₄ h₄ c₃ hb₃ h₃ c₂ hb₂ h₂ c₁ hb₁ h₁ c hb h₀ k hk
      obtain ⟨⟨hx, ht⟩, -⟩ := h₄
      obtain ⟨w, hw, hd, hf⟩ := h₁
      obtain ⟨yesOpen, ⟨w₁, hw₁, hd₁, hf₁⟩, hyes⟩ := h₃
      obtain ⟨no, rfl, isOpen, ⟨w₂, hw₂, hd₂, hf₂⟩, helse⟩ := h₅
      -- The statement before an `else` that is read cannot be open.
      obtain rfl : yesOpen = false := by
        cases yesOpen with
        | false => rfl
        | true => exact absurd hx (hyes rfl x (by simp [ht.rest]))
      rw [hb.depth] at hd
      rw [hb₂.depth, hb₁.depth, hb.depth] at hd₁
      rw [hb₄.depth, hb₃.depth, hb₂.depth, hb₁.depth, hb.depth] at hd₂
      refine ⟨isOpen, ⟨l :: w ++ r :: w₁ ++ x :: w₂, by simp [h₀.2.rest, hw, h₂.2.rest, hw₁,
        ht.rest, hw₂], .ifThenElse hk h₀.1 hd h₂.1 hd₁ (fun _ => rfl) hx hd₂, ?_⟩, helse⟩
      rw [h₂.2.nextId] at hf₁
      rw [ht.nextId] at hf₂
      rw [← h₀.2.nextId]
      have hle₃ : (c₂.nextId : Nat) ≤ c₄.nextId := h₂.2.nextId ▸ hb₃.nextId
      have hle₅ : (c₄.nextId : Nat) ≤ c₆.nextId := ht.nextId ▸ hb₅.nextId
      exact hf.append (hf₁.append hf₂ hle₃ hle₅) hb₁.nextId (Nat.le_trans hle₃ hle₅)

theorem statement_reads (h : ReadsStatements fuel) :
    (statement (fuel + 1)).Meets (ReadsStatement []) := by
  rw [Parser.statement]
  refine .attempt (keyword_meets _) (.attempt (keyword_meets _) (.attempt (keyword_meets _)
    (.attempt (keyword_meets _) (.attempt (keyword_meets _) (.attempt (symbol_meets _) ?_
      fun l => ?_) fun k => ?_) fun k => ?_) fun k => ?_) fun k => ?_) fun k => ?_
  · apply (expressionStatement_reads fuel).weaken
    intro c s c' _ hr
    obtain ⟨w, hw, hd, hf⟩ := hr
    exact .of_closed hw (.evaluate hd) hf
  · apply (Meets.map h.block).weaken
    intro c₁ s c₂ _ h₁ c hb h₀
    obtain ⟨ss, rfl, hss⟩ := h₁
    obtain ⟨w, hw, hd, hf⟩ := hss l h₀.1
    rw [hb.depth] at hd
    exact .of_closed (w := l :: w) (by simp [h₀.2.rest, hw]) (.blockStmt hd) (h₀.2.nextId ▸ hf)
  · apply (loop_reads h).weaken
    intro c₁ s c₂ _ h₁ c hb h₀
    exact (h₁ k h₀.1).behind hb h₀.2
  · refine .bind (optionalExpression_reads fuel .semicolon) fun e =>
      .bind (expectSymbol_meets _ _) fun m => .pure _ ?_
    intro c₃ c₂ _ h₂ c₁ _ h₁ c hb h₀
    obtain ⟨w, hw, hd, hf⟩ := h₁
    rw [hb.depth] at hd
    refine .of_closed (w := k :: w ++ [m]) (by simp [h₀.2.rest, hw, h₂.2.rest])
      (.return h₀.1 hd h₂.1) ?_
    rw [h₂.2.nextId, ← h₀.2.nextId]
    exact hf
  · refine .bind (readsExpressions fuel).expression fun e =>
      .bind (expectSymbol_meets _ _) fun m => .pure _ ?_
    intro c₃ c₂ _ h₂ c₁ _ h₁ c hb h₀
    obtain ⟨w, hw, hd, hf⟩ := h₁
    rw [hb.depth] at hd
    refine .of_closed (w := k :: w ++ [m]) (by simp [h₀.2.rest, hw, h₂.2.rest])
      (.print h₀.1 hd h₂.1) ?_
    rw [h₂.2.nextId, ← h₀.2.nextId]
    exact hf
  · apply h.ifStatement.weaken
    intro c₁ s c₂ _ h₁ c hb h₀
    exact (h₁ k h₀.1).behind hb h₀.2
  · apply h.forStatement.weaken
    intro c₁ s c₂ _ h₁ c hb h₀
    exact (h₁ k h₀.1).behind hb h₀.2

theorem readsStatements (fuel : Nat) : ReadsStatements fuel := by
  induction fuel with
  | zero =>
      constructor <;> intros <;>
        simp only [Parser.declaration, Parser.declarations, Parser.block, Parser.callable,
          Parser.methods, Parser.classDeclaration, Parser.statement, Parser.ifStatement,
          Parser.forStatement] <;>
        exact refuse_meets _ _
  | succ fuel ih =>
      exact ⟨declaration_reads ih, declarations_reads ih, block_reads ih, callable_reads ih,
        methods_reads ih, classDeclaration_reads ih, statement_reads ih, ifStatement_reads ih,
        forStatement_reads ih⟩

/-! ## Whole inputs -/

/-- A program stops only at the end of the tokens. -/
theorem program_reads (fuel : Nat) :
    (program fuel).Meets fun c ss c' =>
      Reads .declarations [] Stmt.unnumberedAll Stmt.idsAll c ss c' ∧ c'.atEnd = true := by
  induction fuel with
  | zero =>
      rw [Parser.program]
      exact refuse_meets _ _
  | succ fuel ih =>
      rw [Parser.program]
      refine .bind atEnd_meets.result fun ends => .ite (fun hends => ?_) (fun _ => ?_)
      · refine .pure _ fun c₁ c _ h₀ => ?_
        obtain ⟨rfl, hread⟩ := h₀
        refine ⟨⟨[], rfl, .noDeclaration, .nil⟩, ?_⟩
        simp only [Parser.atEnd, EStateM.Result.ok.injEq] at hread
        exact hread.1.trans hends
      · refine .bind (readsStatements fuel).declaration fun first => .bind ih fun others =>
          .pure _ ?_
        intro c₃ c₂ hb₂ h₂ c₁ hb₁ h₁ c _ h₀
        obtain ⟨s, rfl, w, hw, hd, hf⟩ := h₁
        obtain ⟨⟨w', hw', hd', hf'⟩, hends⟩ := h₂
        obtain ⟨rfl, -⟩ := h₀
        rw [hb₁.depth] at hd'
        exact ⟨.of_derives (by simp [hw, hw']) (.declarations hd hd')
          (hf.append hf' hb₁.nextId hb₂.nextId), hends⟩

theorem wholeExpression_reads (fuel : Nat) :
    (wholeExpression fuel).Meets fun c e c' =>
      Reads .expression [] Expr.unnumbered Expr.ids c e c' ∧ c'.atEnd = true := by
  rw [Parser.wholeExpression]
  refine .bind (readsExpressions fuel).expression fun e => .bind atEnd_meets.result fun ends =>
    .ite (fun hends => ?_) (fun _ => refuse_meets _ _)
  refine .pure _ fun c₂ c₁ _ h₁ c _ h₀ => ?_
  obtain ⟨rfl, hread⟩ := h₁
  simp only [Parser.atEnd, EStateM.Result.ok.injEq] at hread
  exact ⟨h₀, hread.1.trans hends⟩

/-- A run that succeeds has met the condition, and has reported nothing. -/
theorem Meets.run {α : Type} {p : Parser α} {Q : Cursor → α → Cursor → Prop} (h : p.Meets Q)
    {tokens : List Token} {firstId nextId : NodeId} {a : α}
    (hrun : p.run tokens firstId = (.ok a, nextId)) :
    ∃ c', c'.nextId = nextId ∧ Q ⟨tokens, firstId, 0, []⟩ a c' := by
  have hc := h ⟨tokens, firstId, 0, []⟩
  unfold Parser.run at hrun
  cases hp : p ⟨tokens, firstId, 0, []⟩ with
  | error e c' => simp [hp] at hrun
  | ok b c' =>
      rw [hp] at hc hrun
      cases herrors : c'.errors with
      | nil =>
          simp only [herrors, List.map_nil, Failure.ofList?, Prod.mk.injEq,
            Except.ok.injEq] at hrun
          obtain ⟨rfl, hnext⟩ := hrun
          exact ⟨c', hnext, hc.2 herrors⟩
      | cons e es => cases es <;> simp [herrors, Failure.ofList?] at hrun

/-- References are numbered upwards, also in a run that fails. -/
theorem Meets.le_nextId {α : Type} {p : Parser α} {Q : Cursor → α → Cursor → Prop}
    (h : p.Meets Q) (tokens : List Token) (firstId : NodeId) :
    @LE.le Nat _ firstId (p.run tokens firstId).2 := by
  have hc := h ⟨tokens, firstId, 0, []⟩
  unfold Parser.run
  cases hp : p ⟨tokens, firstId, 0, []⟩ with
  | error e c' =>
      rw [hp] at hc
      exact hc.nextId
  | ok a c' =>
      rw [hp] at hc
      simp only
      cases Failure.ofList? (c'.errors.map .syntactic) <;> exact hc.1.nextId

/-- All tokens before the end of input are read. -/
theorem eq_of_atEnd {body w : List Token} {eof : Token} {c : Cursor} (heof : eof.isEnd = true)
    (hbody : ∀ t ∈ body, t.isEnd = false) (hw : ∀ t ∈ w, t.isEnd = false)
    (hrest : body ++ [eof] = w ++ c.rest) (hc : c.atEnd = true) : w = body := by
  rw [List.append_eq_append_iff] at hrest
  obtain ⟨v, rfl, hv⟩ | ⟨v, rfl, hv⟩ := hrest
  · cases v with
    | nil => simp
    | cons t ts =>
        cases ts with
        | nil =>
            simp only [List.cons_append, List.nil_append, List.cons.injEq] at hv
            have := hw t (by simp)
            rw [← hv.1, heof] at this
            cases this
        | cons u us => simp at hv
  · cases v with
    | nil => simp
    | cons t ts =>
        rw [Cursor.atEnd, Cursor.peek, hv] at hc
        have := hbody t (by simp)
        rw [List.cons_append, List.headD_cons, this] at hc
        cases hc

end Parser

/-- The tokens of a program that is read are derived as its declarations. -/
theorem parseProgram_sound {body : List Token} {eof : Token} {firstId nextId : NodeId}
    {ss : List Stmt} (heof : eof.isEnd = true) (hbody : ∀ t ∈ body, t.isEnd = false)
    (h : parseProgram (body ++ [eof]) firstId = (.ok ss, nextId)) :
    Derives True .declarations Parser.maxNesting body (Stmt.unnumberedAll ss) := by
  obtain ⟨c', -, ⟨w, hw, hd, -⟩, hends⟩ := (Parser.program_reads _).run h
  rw [List.nil_append, Nat.sub_zero] at hd
  exact Parser.eq_of_atEnd heof hbody hd.isEnd_eq_false hw hends ▸ hd

/-- The tokens of an expression that is read are derived as one. -/
theorem parseExpression_sound {body : List Token} {eof : Token} {firstId nextId : NodeId}
    {e : Expr} (heof : eof.isEnd = true) (hbody : ∀ t ∈ body, t.isEnd = false)
    (h : parseExpression (body ++ [eof]) firstId = (.ok e, nextId)) :
    Derives True .expression Parser.maxNesting body e.unnumbered := by
  obtain ⟨c', -, ⟨w, hw, hd, -⟩, hends⟩ := (Parser.wholeExpression_reads _).run h
  rw [List.nil_append, Nat.sub_zero] at hd
  exact Parser.eq_of_atEnd heof hbody hd.isEnd_eq_false hw hends ▸ hd

/-- Reading a program only ever gives out numbers, also if it fails. -/
theorem le_of_parseProgram {tokens : List Token} {firstId nextId : NodeId}
    {parsed : Except Failure (List Stmt)} (h : parseProgram tokens firstId = (parsed, nextId)) :
    @LE.le Nat _ firstId nextId := by
  have hle := (Parser.program_reads (Parser.fuelFor tokens)).le_nextId tokens firstId
  change firstId ≤ (parseProgram tokens firstId).2 at hle
  rwa [h] at hle

/-- Reading an expression only ever gives out numbers, also if it fails. -/
theorem le_of_parseExpression {tokens : List Token} {firstId nextId : NodeId}
    {parsed : Except Failure Expr} (h : parseExpression tokens firstId = (parsed, nextId)) :
    @LE.le Nat _ firstId nextId := by
  have hle := (Parser.wholeExpression_reads (Parser.fuelFor tokens)).le_nextId tokens firstId
  change firstId ≤ (parseExpression tokens firstId).2 at hle
  rwa [h] at hle

/-- The references of a program that is read have fresh numbers. -/
theorem fresh_of_parseProgram {tokens : List Token} {firstId nextId : NodeId} {ss : List Stmt}
    (h : parseProgram tokens firstId = (.ok ss, nextId)) :
    Fresh firstId nextId (Stmt.idsAll ss) := by
  obtain ⟨c', rfl, ⟨w, -, -, hf⟩, -⟩ := (Parser.program_reads _).run h
  exact hf

/-- The references of an expression that is read have fresh numbers. -/
theorem fresh_of_parseExpression {tokens : List Token} {firstId nextId : NodeId} {e : Expr}
    (h : parseExpression tokens firstId = (.ok e, nextId)) : Fresh firstId nextId e.ids := by
  obtain ⟨c', rfl, ⟨w, -, -, hf⟩, -⟩ := (Parser.wholeExpression_reads _).run h
  exact hf

end Lox
