import Lox.Proofs.Syntax.AcceptExpressions
import Lox.Proofs.Syntax.ReadStatements

/-!
# What the parsers of statements accept

Whatever a rule for statements or declarations derives is accepted by its
parser, with the tree of the derivation. Of a derivation in which an `else`
belongs to the nearest `if` this holds in front of every rest, except that no
`else` may follow a statement that is open.
-/

namespace Lox

namespace Parser

variable {room : Nat} {w w' : List Token}

/-! ## Parts of statements -/

/-- Whether expressions that may be left out are accepted in front of a symbol. -/
def TakesOptional (room : Nat) (w : List Token) (e : Option Expr) : Prop :=
  ∀ stop, stop = .semicolon ∨ stop = .rightParen →
    Takes (optionalExpression · stop) 16 room (· = .symbol stop) w
      fun e' => e'.map Expr.unnumbered = e

theorem noExpression_takes : TakesOptional room [] none := by
  intro stop _ fuel depth rest _ hnext
  change (optionalExpression fuel stop).Accepts depth rest rest _
  rw [Parser.optionalExpression]
  exact .bind_eq (nextIs_true hnext) (.if_true rfl (.pure _ rfl))

theorem someExpression_takes {e : Expr} (hw : Rule.expression.Opens w)
    (he : TakesExpr expression 16 room TokenKind.EndsExpression w e) :
    TakesOptional room w (some e) := by
  intro stop hstop fuel depth rest hs hnext
  have hstarts : (next (w ++ rest)).startsExpression = true := hw.next rfl rest
  change (optionalExpression fuel stop).Accepts depth (w ++ rest) rest _
  rw [Parser.optionalExpression]
  refine .bind_eq (nextIs_false ?_) (.if_false (by simp) ?_)
  · obtain rfl | rfl := hstop <;> exact TokenKind.ne_of_test hstarts rfl
  · refine .bind (he fuel depth rest hs ?_) fun value hvalue => .pure _ ?_
    · rw [hnext]
      obtain rfl | rfl := hstop
      · exact TokenKind.endsExpression_semicolon
      · exact TokenKind.endsExpression_rightParen
    · rw [Option.map_some, hvalue]

/-- Whether the parser of a rule for statements accepts some tokens as a tree. -/
abbrev TakesStmt (p : Nat → Parser Stmt) (cost room : Nat) (stops : TokenKind → Prop)
    (w : List Token) (s : Stmt) : Prop :=
  Takes p cost room stops w fun s' => s'.unnumbered = s

theorem exprStmt_takes {m : Token} {e : Expr}
    (he : TakesExpr expression 16 room TokenKind.EndsExpression w e)
    (hm : m.kind = .symbol .semicolon) :
    TakesStmt expressionStatement 16 room (fun _ => True) (w ++ [m]) (.expression e) := by
  intro fuel depth rest hs _
  obtain ⟨hfuel, hroom⟩ := hs
  rw [List.length_append, List.length_singleton] at hfuel
  rw [List.append_assoc, Parser.expressionStatement]
  refine .bind (he fuel depth _ ⟨by omega, hroom⟩ ?_) fun value hvalue => ?_
  · rw [List.singleton_append, next_cons, hm]
    exact TokenKind.endsExpression_semicolon
  · refine .bind_eq (expectSymbol_accepts _ hm) (.pure _ ?_)
    rw [Stmt.unnumbered, hvalue]

/-- Whether what follows the word `var` is accepted. -/
def TakesVariable (room : Nat) (w : List Token) (s : Stmt) : Prop :=
  ∃ v w', w = v :: w' ∧ v.kind = .keyword .var ∧
    TakesStmt variableDeclaration 16 room (fun _ => True) w' s

theorem variable_takes {v n m : Token} (hv : v.kind = .keyword .var) (hn : n.kind = .identifier)
    (hm : m.kind = .symbol .semicolon) : TakesVariable room [v, n, m] (.varDecl n none) := by
  refine ⟨v, [n, m], rfl, hv, fun fuel depth rest _ _ => ?_⟩
  rw [Parser.variableDeclaration]
  refine .bind_eq (expectName_accepts _ hn) (.bind_eq (symbol_none ?_) ?_)
  · simp [hm]
  · exact .bind_eq (.pure _ rfl) (.bind_eq (expectSymbol_accepts _ hm) (.pure _ rfl))

theorem initialized_takes {v n q m : Token} {e : Expr} (hv : v.kind = .keyword .var)
    (hn : n.kind = .identifier) (hq : q.kind = .symbol .equal)
    (he : TakesExpr expression 16 room TokenKind.EndsExpression w e)
    (hm : m.kind = .symbol .semicolon) :
    TakesVariable room (v :: n :: q :: w ++ [m]) (.varDecl n (some e)) := by
  refine ⟨v, n :: q :: w ++ [m], rfl, hv, fun fuel depth rest hs _ => ?_⟩
  obtain ⟨hfuel, hroom⟩ := hs
  simp only [List.length_append, List.length_cons] at hfuel
  simp only [List.cons_append, List.append_assoc, List.nil_append]
  rw [Parser.variableDeclaration]
  have hvalue : (expression fuel).Accepts depth (w ++ m :: rest) (m :: rest)
      fun e' => (some e').map Expr.unnumbered = some e := by
    refine (he fuel depth _ ⟨by omega, hroom⟩ ?_).weaken fun e' he' => by simp [he']
    rw [next_cons, hm]
    exact TokenKind.endsExpression_semicolon
  refine .bind_eq (expectName_accepts _ hn) (.bind_eq (symbol_some hq) ?_)
  refine .bind (.map (R := fun i => i.map Expr.unnumbered = some e) hvalue) fun i hi => ?_
  refine .bind_eq (expectSymbol_accepts _ hm) (.pure _ ?_)
  rw [Stmt.unnumbered, hi]

/-- What is to be accepted of the initializer of a loop. -/
def TakesInitializer (room : Nat) (w : List Token) : Option Stmt → Prop
  | none => ∃ m, w = [m] ∧ m.kind = .symbol .semicolon
  | some s => TakesVariable room w s ∨
      Rule.exprStmt.Opens w ∧ TakesStmt expressionStatement 16 room (fun _ => True) w s

/-! ## Statements -/

/-- Whether the parser of statements accepts some tokens. -/
abbrev TakesStatement (isOpen : Bool) (room : Nat) (w : List Token) (s : Stmt) : Prop :=
  TakesStmt statement 17 room (fun k => isOpen = true → k ≠ .keyword .else) w s

theorem evaluate_takes {s : Stmt} (hw : Rule.exprStmt.Opens w)
    (he : TakesStmt expressionStatement 16 room (fun _ => True) w s) :
    TakesStatement false room w s := by
  intro fuel depth rest hs _
  obtain ⟨fuel, rfl, hs'⟩ := hs.pos (hw.length_pos rfl)
  have hstarts : (next (w ++ rest)).startsExpression = true := hw.next rfl rest
  have hne {k : TokenKind} (hk : k.startsExpression = false) : next (w ++ rest) ≠ k :=
    TokenKind.ne_of_test hstarts hk
  rw [Parser.statement]
  refine .bind_eq (keyword_none (hne rfl)) (.bind_eq (keyword_none (hne rfl)) ?_)
  refine .bind_eq (keyword_none (hne rfl)) (.bind_eq (keyword_none (hne rfl)) ?_)
  refine .bind_eq (keyword_none (hne rfl)) (.bind_eq (symbol_none (hne rfl)) ?_)
  exact he fuel depth rest hs' trivial

theorem print_takes {p m : Token} {e : Expr} (hp : p.kind = .keyword .print)
    (he : TakesExpr expression 16 room TokenKind.EndsExpression w e)
    (hm : m.kind = .symbol .semicolon) :
    TakesStatement false room (p :: w ++ [m]) (.print e) := by
  intro fuel depth rest hs _
  obtain ⟨fuel, rfl, hfuel, hroom⟩ := hs.pos (by simp)
  simp only [List.length_append, List.length_cons] at hfuel
  simp only [List.cons_append, List.append_assoc, List.nil_append]
  rw [Parser.statement]
  refine .bind_eq (keyword_none (by simp [hp])) (.bind_eq (keyword_none (by simp [hp])) ?_)
  refine .bind_eq (keyword_some hp) ?_
  refine .bind (he fuel depth _ ⟨by omega, hroom⟩ ?_) fun value hvalue => ?_
  · rw [next_cons, hm]
    exact TokenKind.endsExpression_semicolon
  · refine .bind_eq (expectSymbol_accepts _ hm) (.pure _ ?_)
    rw [Stmt.unnumbered, hvalue]

theorem return_takes {k m : Token} {e : Option Expr} (hk : k.kind = .keyword .return)
    (he : TakesOptional room w e) (hm : m.kind = .symbol .semicolon) :
    TakesStatement false room (k :: w ++ [m]) (.ret k e) := by
  intro fuel depth rest hs _
  obtain ⟨fuel, rfl, hfuel, hroom⟩ := hs.pos (by simp)
  simp only [List.length_append, List.length_cons] at hfuel
  simp only [List.cons_append, List.append_assoc, List.nil_append]
  rw [Parser.statement]
  refine .bind_eq (keyword_none (by simp [hk])) (.bind_eq (keyword_none (by simp [hk])) ?_)
  refine .bind_eq (keyword_none (by simp [hk])) (.bind_eq (keyword_some hk) ?_)
  refine .bind (he .semicolon (.inl rfl) fuel depth _ ⟨by omega, hroom⟩ hm) fun value hvalue => ?_
  refine .bind_eq (expectSymbol_accepts _ hm) (.pure _ ?_)
  rw [Stmt.unnumbered, hvalue]

/-- Whether what follows the brace of a block is accepted. -/
def TakesBlock (room : Nat) (w : List Token) (ss : List Stmt) : Prop :=
  ∃ l w', w = l :: w' ∧ l.kind = .symbol .leftBrace ∧
    Takes block 2 room (fun _ => True) w' fun ss' => Stmt.unnumberedAll ss' = ss

theorem blockStmt_takes {ss : List Stmt} (h : TakesBlock room w ss) :
    TakesStatement false room w (.block ss) := by
  obtain ⟨l, w, rfl, hl, hss⟩ := h
  intro fuel depth rest hs _
  obtain ⟨fuel, rfl, hfuel, hroom⟩ := hs.pos (by simp)
  rw [List.length_cons] at hfuel
  rw [Parser.statement]
  refine .bind_eq (keyword_none (by simp [hl])) (.bind_eq (keyword_none (by simp [hl])) ?_)
  refine .bind_eq (keyword_none (by simp [hl])) (.bind_eq (keyword_none (by simp [hl])) ?_)
  refine .bind_eq (keyword_none (by simp [hl])) (.bind_eq (symbol_some hl) (.map ?_))
  apply (hss fuel depth rest ⟨by omega, hroom⟩ trivial).weaken
  intro body hbody
  rw [Stmt.unnumbered, hbody]

theorem while_takes {k l r : Token} {e : Expr} {isOpen : Bool} {s : Stmt}
    (hk : k.kind = .keyword .while) (hl : l.kind = .symbol .leftParen)
    (he : TakesExpr expression 16 room TokenKind.EndsExpression w e)
    (hr : r.kind = .symbol .rightParen) (hbody : TakesStatement isOpen room w' s) :
    TakesStatement isOpen room (k :: l :: w ++ r :: w') (.loop e s) := by
  intro fuel depth rest hs hnext
  obtain ⟨fuel, rfl, hfuel, hroom⟩ := hs.pos (by simp)
  simp only [List.length_append, List.length_cons] at hfuel
  simp only [List.cons_append, List.append_assoc]
  rw [Parser.statement]
  refine .bind_eq (keyword_none (by simp [hk])) (.bind_eq (keyword_none (by simp [hk])) ?_)
  refine .bind_eq (keyword_none (by simp [hk])) (.bind_eq (keyword_none (by simp [hk])) ?_)
  refine .bind_eq (keyword_some hk) (.bind_eq (expectSymbol_accepts _ hl) ?_)
  refine .bind (he fuel depth _ ⟨by omega, hroom⟩ ?_) fun value hvalue => ?_
  · rw [next_cons, hr]
    exact TokenKind.endsExpression_rightParen
  · refine .bind_eq (expectSymbol_accepts _ hr) ?_
    refine .bind (hbody fuel depth rest ⟨by omega, hroom⟩ hnext) fun body hbody => .pure _ ?_
    rw [Stmt.unnumbered, hvalue, hbody]

theorem ifThen_takes {k l r : Token} {e : Expr} {isOpen : Bool} {s : Stmt}
    (hk : k.kind = .keyword .if) (hl : l.kind = .symbol .leftParen)
    (he : TakesExpr expression 16 room TokenKind.EndsExpression w e)
    (hr : r.kind = .symbol .rightParen) (hyes : TakesStatement isOpen room w' s) :
    TakesStatement true room (k :: l :: w ++ r :: w') (.branch e s none) := by
  intro fuel depth rest hs hnext
  obtain ⟨fuel, rfl, hfuel, hroom⟩ := hs.pos (by simp)
  simp only [List.length_append, List.length_cons] at hfuel
  obtain ⟨fuel, rfl⟩ : ∃ f, fuel = f + 1 := ⟨fuel - 1, by omega⟩
  simp only [List.cons_append, List.append_assoc]
  rw [Parser.statement, Parser.ifStatement]
  refine .bind_eq (keyword_none (by simp [hk])) (.bind_eq (keyword_some hk) ?_)
  refine .bind_eq (expectSymbol_accepts _ hl) ?_
  refine .bind (he fuel depth _ ⟨by omega, hroom⟩ ?_) fun value hvalue => ?_
  · rw [next_cons, hr]
    exact TokenKind.endsExpression_rightParen
  · refine .bind_eq (expectSymbol_accepts _ hr) ?_
    refine .bind (hyes fuel depth rest ⟨by omega, hroom⟩ fun _ => hnext rfl) fun yes hyes => ?_
    refine .bind_eq (keyword_none (hnext rfl)) (.bind_eq (.pure _ rfl) (.pure _ ?_))
    rw [Stmt.unnumbered, Stmt.unnumberedOptional, hvalue, hyes]

theorem ifThenElse_takes {k l r x : Token} {w₁ w₂ : List Token} {e : Expr} {isOpen : Bool}
    {s s' : Stmt} (hk : k.kind = .keyword .if) (hl : l.kind = .symbol .leftParen)
    (he : TakesExpr expression 16 room TokenKind.EndsExpression w e)
    (hr : r.kind = .symbol .rightParen) (hyes : TakesStatement false room w₁ s)
    (hx : x.kind = .keyword .else) (hno : TakesStatement isOpen room w₂ s') :
    TakesStatement isOpen room (k :: l :: w ++ r :: w₁ ++ x :: w₂) (.branch e s (some s')) := by
  intro fuel depth rest hs hnext
  obtain ⟨fuel, rfl, hfuel, hroom⟩ := hs.pos (by simp)
  simp only [List.length_append, List.length_cons] at hfuel
  obtain ⟨fuel, rfl⟩ : ∃ f, fuel = f + 1 := ⟨fuel - 1, by omega⟩
  simp only [List.cons_append, List.append_assoc]
  have hno : (statement fuel).Accepts depth (w₂ ++ rest) rest
      fun no => Stmt.unnumberedOptional (some no) = some s' := by
    apply (hno fuel depth rest ⟨by omega, hroom⟩ hnext).weaken
    intro no hno
    rw [Stmt.unnumberedOptional, hno]
  rw [Parser.statement, Parser.ifStatement]
  refine .bind_eq (keyword_none (by simp [hk])) (.bind_eq (keyword_some hk) ?_)
  refine .bind_eq (expectSymbol_accepts _ hl) ?_
  refine .bind (he fuel depth _ ⟨by omega, hroom⟩ ?_) fun value hvalue => ?_
  · rw [next_cons, hr]
    exact TokenKind.endsExpression_rightParen
  · refine .bind_eq (expectSymbol_accepts _ hr) ?_
    refine .bind (hyes fuel depth _ ⟨by omega, hroom⟩ (by simp)) fun yes hyes => ?_
    refine .bind_eq (keyword_some hx) ?_
    refine .bind (.map (R := fun no => Stmt.unnumberedOptional no = some s') hno) fun no hno => ?_
    refine .pure _ ?_
    rw [Stmt.unnumbered, hvalue, hyes, hno]

theorem for_takes {k l m r : Token} {w₁ w₂ : List Token} {i : Option Stmt} {c e : Option Expr}
    {isOpen : Bool} {s : Stmt} (hk : k.kind = .keyword .for) (hl : l.kind = .symbol .leftParen)
    (hi : TakesInitializer room w i) (hc : TakesOptional room w₁ c)
    (hm : m.kind = .symbol .semicolon) (he : TakesOptional room w₂ e)
    (hr : r.kind = .symbol .rightParen) (hbody : TakesStatement isOpen room w' s) :
    TakesStatement isOpen room (k :: l :: w ++ w₁ ++ m :: w₂ ++ r :: w') (.forLoop i c e s) := by
  intro fuel depth rest hs hnext
  obtain ⟨fuel, rfl, hfuel, hroom⟩ := hs.pos (by simp)
  simp only [List.length_append, List.length_cons] at hfuel
  obtain ⟨fuel, rfl⟩ : ∃ f, fuel = f + 1 := ⟨fuel - 1, by omega⟩
  have hfrom (i' : Option Stmt) (hi' : Stmt.unnumberedOptional i' = i) :
      Accepts (do
        let condition ← optionalExpression fuel .semicolon
        let _ ← expectSymbol .semicolon .afterLoopCondition
        let increment ← optionalExpression fuel .rightParen
        let _ ← expectSymbol .rightParen .afterForClauses
        let body ← statement fuel
        return forLoop i' condition increment body) depth (w₁ ++ m :: (w₂ ++ r :: (w' ++ rest)))
        rest fun s' => s'.unnumbered = .forLoop i c e s := by
    refine .bind (hc .semicolon (.inl rfl) fuel depth _ ⟨by omega, hroom⟩ hm) fun c' hc' => ?_
    refine .bind_eq (expectSymbol_accepts _ hm) ?_
    refine .bind (he .rightParen (.inr rfl) fuel depth _ ⟨by omega, hroom⟩ hr) fun e' he' => ?_
    refine .bind_eq (expectSymbol_accepts _ hr) ?_
    refine .bind (hbody fuel depth rest ⟨by omega, hroom⟩ hnext) fun s' hs' => .pure _ ?_
    rw [unnumbered_forLoop, hi', hc', he', hs']
  simp only [List.cons_append, List.append_assoc]
  rw [Parser.statement, Parser.forStatement]
  refine .bind_eq (keyword_some hk) (.bind_eq (expectSymbol_accepts _ hl) ?_)
  cases i with
  | none =>
      obtain ⟨m', rfl, hm'⟩ := hi
      exact .bind_eq (symbol_some hm') (.bind_eq (.pure _ rfl) (hfrom none rfl))
  | some i =>
      have hsome {i' : Stmt} (hi' : i'.unnumbered = i) :
          Stmt.unnumberedOptional (some i') = some i := by
        rw [Stmt.unnumberedOptional, hi']
      obtain ⟨v, w, rfl, hv, hi⟩ | ⟨hw, hi⟩ := hi
      · rw [List.length_cons] at hfuel
        rw [List.cons_append]
        refine .bind_eq (symbol_none (by simp [hv])) (.bind_eq (keyword_some hv) ?_)
        refine .bind (.map (R := fun i' => Stmt.unnumberedOptional i' = some i) ?_) hfrom
        exact (hi fuel depth _ ⟨by omega, hroom⟩ trivial).weaken fun _ => hsome
      · have hstarts := hw.next rfl (w₁ ++ m :: (w₂ ++ r :: (w' ++ rest)))
        refine .bind_eq (symbol_none (TokenKind.ne_of_test hstarts rfl)) ?_
        refine .bind_eq (keyword_none (TokenKind.ne_of_test hstarts rfl)) ?_
        refine .bind (.map (R := fun i' => Stmt.unnumberedOptional i' = some i) ?_) hfrom
        exact (hi fuel depth _ ⟨by omega, hroom⟩ trivial).weaken fun _ => hsome

/-! ## Functions and classes -/

/-- Whether the parser of parameter lists accepts some tokens. -/
def TakesParameters (room : Nat) (w : List Token) (ps : List Token) : Prop :=
  ∀ count, count + ps.length ≤ maxArity →
    Takes (parameters · count) 1 room (· ≠ .symbol .comma) w (· = ps)

theorem lastParameter_takes {n : Token} (hn : n.kind = .identifier) :
    TakesParameters room [n] [n] := by
  intro count hcount fuel depth rest hs hnext
  obtain ⟨fuel, rfl, -⟩ := hs.pos Nat.one_pos
  rw [List.length_singleton] at hcount
  change (parameters (fuel + 1) count).Accepts depth (n :: rest) rest _
  rw [Parser.parameters]
  refine .if_false (by omega) (.bind_eq (expectName_accepts _ hn) ?_)
  exact .bind_eq (symbol_none hnext) (.pure _ rfl)

theorem nextParameter_takes {n c : Token} {ps : List Token} (hn : n.kind = .identifier)
    (hc : c.kind = .symbol .comma) (hps : TakesParameters room w ps) :
    TakesParameters room (n :: c :: w) (n :: ps) := by
  intro count hcount fuel depth rest hs hnext
  obtain ⟨fuel, rfl, hfuel, hroom⟩ := hs.pos (by simp)
  simp only [List.length_cons] at hfuel hcount
  change (parameters (fuel + 1) count).Accepts depth (n :: c :: (w ++ rest)) rest _
  rw [Parser.parameters]
  refine .if_false (by omega) (.bind_eq (expectName_accepts _ hn) (.bind_eq (symbol_some hc) ?_))
  refine .bind (hps (count + 1) (by omega) fuel depth rest ⟨by omega, hroom⟩ hnext) ?_
  rintro _ rfl
  exact .pure _ rfl

/-- Whether the parser of functions and methods accepts some tokens. -/
def TakesCallable (room : Nat) (w : List Token) (d : FunctionDecl) : Prop :=
  ∀ kind, Takes (callable · kind) 1 room (fun _ => True) w fun d' => d'.unnumbered = d

theorem callable_takes {n l r : Token} {ps : List Token} {body : List Stmt}
    (hn : n.kind = .identifier) (hl : l.kind = .symbol .leftParen)
    (hps : w = [] ∧ ps = [] ∨
      Rule.moreParameters.Opens w ∧ ps.length ≤ maxArity ∧ TakesParameters room w ps)
    (hr : r.kind = .symbol .rightParen) (hbody : TakesBlock room w' body) :
    TakesCallable room (n :: l :: w ++ r :: w') ⟨n, ps, body⟩ := by
  obtain ⟨l', w', rfl, hl', hbody⟩ := hbody
  intro kind fuel depth rest hs _
  obtain ⟨fuel, rfl, hfuel, hroom⟩ := hs.pos (by simp)
  simp only [List.length_append, List.length_cons] at hfuel
  have hfrom : Accepts (do
      let _ ← expectSymbol .rightParen .afterParameters
      let _ ← expectSymbol .leftBrace (.beforeCallableBody kind)
      let body ← block fuel
      return (⟨n, ps, body⟩ : FunctionDecl)) depth (r :: l' :: (w' ++ rest)) rest
      fun d => d.unnumbered = ⟨n, ps, body⟩ := by
    refine .bind_eq (expectSymbol_accepts _ hr) (.bind_eq (expectSymbol_accepts _ hl') ?_)
    refine .bind (hbody fuel depth rest ⟨by omega, hroom⟩ trivial) fun body' hbody' => .pure _ ?_
    rw [FunctionDecl.unnumbered, hbody']
  simp only [List.cons_append, List.append_assoc]
  change (callable (fuel + 1) kind).Accepts depth _ rest _
  rw [Parser.callable]
  refine .bind_eq (expectName_accepts _ hn) (.bind_eq (expectSymbol_accepts _ hl) ?_)
  obtain ⟨rfl, rfl⟩ | ⟨hw, hlen, hps⟩ := hps
  · exact .bind_eq (nextIs_true hr) (.if_true rfl (.bind_eq (.pure _ rfl) hfrom))
  · refine .bind_eq (nextIs_false ?_) (.if_false (by simp) ?_)
    · have hname : next (w ++ r :: l' :: (w' ++ rest)) = .identifier := hw.next rfl _
      simp [hname]
    · refine .bind_eq (hps 0 (by omega) fuel depth _ ⟨by omega, hroom⟩ ?_) hfrom
      simp [hr]

/-- Whether the parser of methods accepts some tokens in front of a brace. -/
abbrev TakesMethods (room : Nat) (w : List Token) (ds : List FunctionDecl) : Prop :=
  Takes methods 21 room (· = .symbol .rightBrace) w fun ds' => FunctionDecl.unnumberedAll ds' = ds

theorem noMethods_takes : TakesMethods room [] [] := by
  intro fuel depth rest hs hnext
  obtain ⟨fuel, rfl⟩ : ∃ f, fuel = f + 1 := ⟨fuel - 1, by have := hs.fuel; simp at this; omega⟩
  rw [Parser.methods, List.nil_append]
  refine .bind_eq (nextIs_true hnext) (.bind_eq (atEnd_false ?_) (.if_true rfl (.pure _ rfl)))
  simp [hnext]

/-- A method and those after it, behind the word `fun` or not. -/
theorem method_takes {d : FunctionDecl} {ds : List FunctionDecl} {before : List Token}
    (hbefore : before = [] ∨ ∃ f, before = [f] ∧ f.kind = .keyword .fun)
    (hw : Rule.callable.Opens w) (hd : TakesCallable room w d) (hds : TakesMethods room w' ds) :
    TakesMethods room (before ++ w ++ w') (d :: ds) := by
  intro fuel depth rest hs hnext
  have hpos := hw.length_pos rfl
  obtain ⟨hfuel, hroom⟩ := hs
  simp only [List.length_append] at hfuel
  obtain ⟨fuel, rfl⟩ : ∃ f, fuel = f + 1 := ⟨fuel - 1, by omega⟩
  have hname : next (w ++ (w' ++ rest)) = .identifier := hw.next rfl _
  have hfrom : Accepts (do
      let first ← callable fuel .method
      let others ← methods fuel
      return first :: others) depth (w ++ (w' ++ rest)) rest
      fun ds' => FunctionDecl.unnumberedAll ds' = d :: ds := by
    refine .bind (hd .method fuel depth _ ⟨by omega, hroom⟩ trivial) fun first hfirst => ?_
    refine .bind (hds fuel depth rest ⟨by omega, hroom⟩ hnext) fun others hothers => .pure _ ?_
    rw [FunctionDecl.unnumberedAll, hfirst, hothers]
  simp only [List.append_assoc]
  rw [Parser.methods]
  obtain rfl | ⟨f, rfl, hf⟩ := hbefore
  · rw [List.nil_append]
    refine .bind_eq (nextIs_false (by simp [hname])) (.bind_eq (atEnd_false (by simp [hname])) ?_)
    exact .if_false (by simp) (.bind_eq (keyword_none (by simp [hname])) hfrom)
  · rw [List.singleton_append]
    refine .bind_eq (nextIs_false (by simp [hf])) (.bind_eq (atEnd_false (by simp [hf])) ?_)
    exact .if_false (by simp) (.bind_eq (keyword_some hf) hfrom)

/-- Whether what follows the word `class` is accepted. -/
def TakesClass (room : Nat) (w : List Token) (s : Stmt) : Prop :=
  ∃ c w', w = c :: w' ∧ c.kind = .keyword .cls ∧
    TakesStmt classDeclaration 1 room (fun _ => True) w' s

theorem baseClass_takes {c n l r : Token} {ds : List FunctionDecl} (hc : c.kind = .keyword .cls)
    (hn : n.kind = .identifier) (hl : l.kind = .symbol .leftBrace) (hds : TakesMethods room w ds)
    (hr : r.kind = .symbol .rightBrace) :
    TakesClass room (c :: n :: l :: w ++ [r]) (.classDecl n none ds) := by
  refine ⟨c, n :: l :: w ++ [r], rfl, hc, fun fuel depth rest hs _ => ?_⟩
  obtain ⟨fuel, rfl, hfuel, hroom⟩ := hs.pos (by simp)
  simp only [List.length_append, List.length_cons] at hfuel
  simp only [List.cons_append, List.append_assoc, List.nil_append]
  rw [Parser.classDeclaration]
  refine .bind_eq (expectName_accepts _ hn) (.bind_eq (symbol_none (by simp [hl])) ?_)
  refine .bind_eq (.pure _ rfl) (.bind_eq (expectSymbol_accepts _ hl) ?_)
  refine .bind (hds fuel depth _ ⟨by omega, hroom⟩ hr) fun ds' hds' => ?_
  refine .bind_eq (expectSymbol_accepts _ hr) (.pure _ ?_)
  rw [Stmt.unnumbered, hds', Option.map_none]

theorem subclass_takes {c n q p l r : Token} {ds : List FunctionDecl}
    (hc : c.kind = .keyword .cls) (hn : n.kind = .identifier) (hq : q.kind = .symbol .less)
    (hp : p.kind = .identifier) (hl : l.kind = .symbol .leftBrace)
    (hds : TakesMethods room w ds) (hr : r.kind = .symbol .rightBrace) :
    TakesClass room (c :: n :: q :: p :: l :: w ++ [r]) (.classDecl n (some (.to p)) ds) := by
  refine ⟨c, n :: q :: p :: l :: w ++ [r], rfl, hc, fun fuel depth rest hs _ => ?_⟩
  obtain ⟨fuel, rfl, hfuel, hroom⟩ := hs.pos (by simp)
  simp only [List.length_append, List.length_cons] at hfuel
  simp only [List.cons_append, List.append_assoc, List.nil_append]
  have href : (reference p).Accepts depth (l :: (w ++ r :: rest)) (l :: (w ++ r :: rest))
      fun ref => (some ref).map Reference.unnumbered = some (.to p) :=
    (reference_accepts p).weaken fun ref href => by
      rw [Option.map_some, Reference.unnumbered, Reference.to, href]
  rw [Parser.classDeclaration]
  refine .bind_eq (expectName_accepts _ hn) (.bind_eq (symbol_some hq) ?_)
  refine .bind_eq (expectName_accepts _ hp) ?_
  refine .bind (.map (R := fun s => s.map Reference.unnumbered = some (.to p)) href) ?_
  refine fun superclass hsuper => .bind_eq (expectSymbol_accepts _ hl) ?_
  refine .bind (hds fuel depth _ ⟨by omega, hroom⟩ hr) fun ds' hds' => ?_
  refine .bind_eq (expectSymbol_accepts _ hr) (.pure _ ?_)
  rw [Stmt.unnumbered, hds', hsuper]

/-! ## Declarations -/

/-- Whether the parser of declarations accepts some tokens. -/
abbrev TakesDeclaration (room : Nat) (w : List Token) (s : Stmt) : Prop :=
  Takes declaration 18 room (· ≠ .keyword .else) w fun s' => ∃ t, s' = some t ∧ t.unnumbered = s

theorem declareClass_takes {s : Stmt} (h : TakesClass room w s) : TakesDeclaration room w s := by
  obtain ⟨c, w, rfl, hc, hs⟩ := h
  intro fuel depth rest hsupply _
  obtain ⟨fuel, rfl, hfuel, hroom⟩ := hsupply.pos (by simp)
  rw [List.length_cons] at hfuel
  rw [Parser.declaration]
  refine recovering_accepts (.bind_eq (keyword_some hc) ?_)
  exact hs fuel depth rest ⟨by omega, hroom⟩ trivial

theorem declareFunction_takes {f : Token} {d : FunctionDecl} (hf : f.kind = .keyword .fun)
    (h : TakesCallable room w d) : TakesDeclaration room (f :: w) (.funDecl d) := by
  intro fuel depth rest hs _
  obtain ⟨fuel, rfl, hfuel, hroom⟩ := hs.pos (by simp)
  rw [List.length_cons] at hfuel
  rw [Parser.declaration]
  refine recovering_accepts (.bind_eq (keyword_none (by simp [hf])) ?_)
  refine .bind_eq (keyword_some hf) (.map ?_)
  apply (h .function fuel depth rest ⟨by omega, hroom⟩ trivial).weaken
  intro d' hd'
  rw [Stmt.unnumbered, hd']

theorem declareVariable_takes {s : Stmt} (h : TakesVariable room w s) :
    TakesDeclaration room w s := by
  obtain ⟨v, w, rfl, hv, hs⟩ := h
  intro fuel depth rest hsupply _
  obtain ⟨fuel, rfl, hfuel, hroom⟩ := hsupply.pos (by simp)
  rw [List.length_cons] at hfuel
  rw [Parser.declaration]
  refine recovering_accepts (.bind_eq (keyword_none (by simp [hv])) ?_)
  refine .bind_eq (keyword_none (by simp [hv])) (.bind_eq (keyword_some hv) ?_)
  exact hs fuel depth rest ⟨by omega, hroom⟩ trivial

theorem statement_takes {isOpen : Bool} {s : Stmt} (hw : (Rule.statement isOpen).Opens w)
    (h : TakesStatement isOpen room w s) : TakesDeclaration room w s := by
  intro fuel depth rest hs hnext
  obtain ⟨fuel, rfl, hs'⟩ := hs.pos (hw.length_pos rfl)
  have hstarts : (next (w ++ rest)).startsPlain = true := hw.next rfl rest
  have hne {k : TokenKind} (hk : k.startsPlain = false) : next (w ++ rest) ≠ k :=
    TokenKind.ne_of_test hstarts hk
  rw [Parser.declaration]
  refine recovering_accepts (.bind_eq (keyword_none (hne rfl)) ?_)
  refine .bind_eq (keyword_none (hne rfl)) (.bind_eq (keyword_none (hne rfl)) ?_)
  exact h fuel depth rest hs' fun _ => hnext

/-- Whether the parsers of declarations accept some tokens, inside a block and
as a program. -/
structure TakesDeclarations (room : Nat) (w : List Token) (ss : List Stmt) : Prop where
  declarations :
    Takes declarations 21 room (· = .symbol .rightBrace) w fun ss' => Stmt.unnumberedAll ss' = ss
  program : Takes program 21 room (· = .endOfInput) w fun ss' => Stmt.unnumberedAll ss' = ss

theorem noDeclaration_takes : TakesDeclarations room [] [] := by
  constructor
  · intro fuel depth rest hs hnext
    obtain ⟨fuel, rfl⟩ : ∃ f, fuel = f + 1 := ⟨fuel - 1, by have := hs.fuel; simp at this; omega⟩
    rw [Parser.declarations, List.nil_append]
    refine .bind_eq (nextIs_true hnext) (.bind_eq (atEnd_false ?_) (.if_true rfl (.pure _ rfl)))
    simp [hnext]
  · intro fuel depth rest hs hnext
    obtain ⟨fuel, rfl⟩ : ∃ f, fuel = f + 1 := ⟨fuel - 1, by have := hs.fuel; simp at this; omega⟩
    rw [Parser.program, List.nil_append]
    exact .bind_eq (atEnd_true hnext) (.if_true rfl (.pure _ rfl))

/-- A declaration and those after it, in a list that ends before some kind of
token. -/
theorem declarationsFrom_takes {s : Stmt} {ss : List Stmt} {p : Nat → Parser (List Stmt)}
    (stop : TokenKind) (hstop : stop ≠ .keyword .else) (hw : Rule.declaration.Opens w)
    (hd : TakesDeclaration room w s) (hw' : Rule.declarations.Opens w')
    (hp : Takes p 21 room (· = stop) w' fun ss' => Stmt.unnumberedAll ss' = ss)
    {fuel depth : Nat} {rest : List Token} (hs : Supplied 20 room (w ++ w') fuel depth)
    (hnext : next rest = stop) :
    Accepts (do
      let first ← declaration fuel
      let others ← p fuel
      return first.toList ++ others) depth (w ++ (w' ++ rest)) rest
      fun ss' => Stmt.unnumberedAll ss' = s :: ss := by
  have hpos := hw.length_pos rfl
  obtain ⟨hfuel, hroom⟩ := hs
  rw [List.length_append] at hfuel
  refine .bind (hd fuel depth _ ⟨by omega, hroom⟩ ?_) ?_
  · cases w' with
    | nil =>
        rw [List.nil_append, hnext]
        exact hstop
    | cons t ts => exact TokenKind.ne_of_test (show t.kind.startsDeclaration = true from hw') rfl
  · rintro _ ⟨t, rfl, ht⟩
    refine .bind (hp fuel depth rest ⟨by omega, hroom⟩ hnext) fun others hothers => .pure _ ?_
    rw [Option.toList_some, List.singleton_append, Stmt.unnumberedAll, ht, hothers]

theorem declarations_takes {s : Stmt} {ss : List Stmt} (hw : Rule.declaration.Opens w)
    (hd : TakesDeclaration room w s) (hw' : Rule.declarations.Opens w')
    (hds : TakesDeclarations room w' ss) : TakesDeclarations room (w ++ w') (s :: ss) := by
  have hpos : 0 < (w ++ w').length := by
    have := hw.length_pos rfl
    rw [List.length_append]
    omega
  have hstarts (rest : List Token) : (next (w ++ (w' ++ rest))).startsDeclaration = true :=
    hw.next rfl _
  constructor
  · intro fuel depth rest hs hnext
    obtain ⟨fuel, rfl, hs'⟩ := hs.pos hpos
    rw [Parser.declarations, List.append_assoc]
    refine .bind_eq (nextIs_false (TokenKind.ne_of_test (hstarts rest) rfl)) ?_
    refine .bind_eq (atEnd_false (TokenKind.ne_of_test (hstarts rest) rfl)) (.if_false (by simp) ?_)
    exact declarationsFrom_takes _ (by simp) hw hd hw' hds.declarations hs' hnext
  · intro fuel depth rest hs hnext
    obtain ⟨fuel, rfl, hs'⟩ := hs.pos hpos
    rw [Parser.program, List.append_assoc]
    refine .bind_eq (atEnd_false (TokenKind.ne_of_test (hstarts rest) rfl)) (.if_false (by simp) ?_)
    exact declarationsFrom_takes _ (by simp) hw hd hw' hds.program hs' hnext

theorem block_takes {l r : Token} {ss : List Stmt} (hl : l.kind = .symbol .leftBrace)
    (hss : TakesDeclarations room w ss) (hr : r.kind = .symbol .rightBrace) :
    TakesBlock (room + 1) (l :: w ++ [r]) ss := by
  refine ⟨l, w ++ [r], rfl, hl, fun fuel depth rest hs _ => ?_⟩
  obtain ⟨fuel, rfl, hfuel, hroom⟩ := hs.pos (by simp)
  rw [List.length_append, List.length_singleton] at hfuel
  rw [Parser.block, List.append_assoc]
  apply nested_accepts (by omega)
  refine .bind (hss.declarations fuel (depth + 1) _ ⟨by omega, by omega⟩ hr) fun body hbody => ?_
  exact .bind_eq (expectSymbol_accepts _ hr) (.pure _ hbody)

/-! ## All derivations -/

/-- What is to be accepted of the derivations of a rule for statements. -/
def AcceptsStatementRule : (r : Rule) → (room : Nat) → List Token → r.Tree → Prop
  | .optionalExpression, room, w, e => TakesOptional room w e
  | .varDecl, room, w, s => TakesVariable room w s
  | .exprStmt, room, w, s => TakesStmt expressionStatement 16 room (fun _ => True) w s
  | .forInitializer, room, w, i => TakesInitializer room w i
  | .statement isOpen, room, w, s => TakesStatement isOpen room w s
  | .moreParameters, room, w, ps => TakesParameters room w ps
  | .parameters, room, w, ps =>
      w = [] ∧ ps = [] ∨
        Rule.moreParameters.Opens w ∧ ps.length ≤ maxArity ∧ TakesParameters room w ps
  | .callable, room, w, d => TakesCallable room w d
  | .methods, room, w, ds => TakesMethods room w ds
  | .classDecl, room, w, s => TakesClass room w s
  | .block, room, w, ss => TakesBlock room w ss
  | .declaration, room, w, s => TakesDeclaration room w s
  | .declarations, room, w, ss => TakesDeclarations room w ss
  | _, _, _, _ => True

/-- The parsers of statements accept what their rules derive. -/
theorem acceptsStatementRule_of_derives {r : Rule} {tree : r.Tree}
    (h : Derives True r room w tree) : AcceptsStatementRule r room w tree := by
  induction h with
  | noExpression => exact noExpression_takes
  | someExpression hd => exact someExpression_takes hd.opens (acceptsRule_of_derives hd)
  | «variable» hv hn hm => exact variable_takes hv hn hm
  | initialized hv hn hq hd hm =>
      exact initialized_takes hv hn hq (acceptsRule_of_derives hd) hm
  | exprStmt hd hm => exact exprStmt_takes (acceptsRule_of_derives hd) hm
  | noInitializer hm => exact ⟨_, rfl, hm⟩
  | varInitializer _ ih => exact .inl ih
  | exprInitializer hd ih => exact .inr ⟨hd.opens, ih⟩
  | evaluate hd ih => exact evaluate_takes hd.opens ih
  | print hp hd hm => exact print_takes hp (acceptsRule_of_derives hd) hm
  | «return» hk _ hm ih => exact return_takes hk ih hm
  | blockStmt _ ih => exact blockStmt_takes ih
  | «while» hk hl hd hr _ _ ih => exact while_takes hk hl (acceptsRule_of_derives hd) hr ih
  | «for» hk hl _ _ hm _ hr _ ih ih₁ ih₂ ih' => exact for_takes hk hl ih ih₁ hm ih₂ hr ih'
  | ifThen hk hl hd hr _ _ ih => exact ifThen_takes hk hl (acceptsRule_of_derives hd) hr ih
  | ifThenElse hk hl hd hr _ hyes hx _ _ ih ih' =>
      obtain rfl := hyes trivial
      exact ifThenElse_takes hk hl (acceptsRule_of_derives hd) hr ih hx ih'
  | noParameters => exact .inl ⟨rfl, rfl⟩
  | someParameters hd hlen ih => exact .inr ⟨hd.opens, hlen, ih⟩
  | lastParameter hn => exact lastParameter_takes hn
  | nextParameter hn hc _ ih => exact nextParameter_takes hn hc ih
  | callable hn hl _ hr _ ih ih' => exact callable_takes hn hl ih hr ih'
  | noMethods => exact noMethods_takes
  | method hd _ ih ih' => exact method_takes (.inl rfl) hd.opens ih ih'
  | funMethod hf hd _ ih ih' => exact method_takes (.inr ⟨_, rfl, hf⟩) hd.opens ih ih'
  | baseClass hc hn hl _ hr ih => exact baseClass_takes hc hn hl ih hr
  | subclass hc hn hq hp hl _ hr ih => exact subclass_takes hc hn hq hp hl ih hr
  | block hl _ hr ih => exact block_takes hl ih hr
  | declareClass _ ih => exact declareClass_takes ih
  | declareFunction hf _ ih => exact declareFunction_takes hf ih
  | declareVariable _ ih => exact declareVariable_takes ih
  | statement hd ih => exact statement_takes hd.opens ih
  | noDeclaration => exact noDeclaration_takes
  | declarations hd hds ih ih' => exact declarations_takes hd.opens ih hds.opens ih'
  | _ => trivial

/-! ## Whole inputs -/

theorem Accepts.run {α : Type} {p : Parser α} {tokens rest : List Token} {Q : α → Prop}
    (h : p.Accepts 0 tokens rest Q) (firstId : NodeId) :
    ∃ a nextId, p.run tokens firstId = (.ok a, nextId) ∧ Q a := by
  obtain ⟨a, nextId, hp, ha⟩ := h firstId []
  refine ⟨a, nextId, ?_, ha⟩
  simp [Parser.run, hp, Failure.ofList?]

end Parser

/-- What is derived as the declarations of a program is read as its tree. -/
theorem parseProgram_complete {body : List Token} {eof : Token} {tree : List Stmt}
    (heof : eof.isEnd = true) (h : Derives True .declarations Parser.maxNesting body tree)
    (firstId : NodeId) :
    ∃ ss nextId, parseProgram (body ++ [eof]) firstId = (.ok ss, nextId) ∧
      Stmt.unnumberedAll ss = tree := by
  refine ((Parser.acceptsStatementRule_of_derives h).program _ 0 [eof] ⟨?_, ?_⟩ ?_).run firstId
  · rw [Parser.fuelFor, Parser.callsPerToken, List.length_append, List.length_singleton]
    omega
  · simp
  · exact Token.isEnd_iff.mp heof

/-- What is derived as an expression is read as its tree. -/
theorem parseExpression_complete {body : List Token} {eof : Token} {tree : Expr}
    (heof : eof.isEnd = true) (h : Derives True .expression Parser.maxNesting body tree)
    (firstId : NodeId) :
    ∃ e nextId, parseExpression (body ++ [eof]) firstId = (.ok e, nextId) ∧
      e.unnumbered = tree := by
  have hend : next [eof] = .endOfInput := Token.isEnd_iff.mp heof
  have hread := Parser.acceptsRule_of_derives h (Parser.fuelFor (body ++ [eof])) 0 [eof]
    ⟨by rw [Parser.fuelFor, Parser.callsPerToken, List.length_append]; omega, by simp⟩
    (hend ▸ TokenKind.endsExpression_endOfInput)
  have hwhole : (Parser.wholeExpression (Parser.fuelFor (body ++ [eof]))).Accepts 0
      (body ++ [eof]) [eof] fun e => e.unnumbered = tree := by
    rw [Parser.wholeExpression]
    apply hread.bind
    intro value hvalue
    exact .bind_eq (Parser.atEnd_true hend) (.if_true rfl (.pure _ hvalue))
  exact hwhole.run firstId

end Lox
