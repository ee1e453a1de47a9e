import Lox.Proofs.Syntax.Accepting
import Lox.Proofs.Syntax.ReadExpressions

/-!
# Looking one token ahead

Which tokens a rule can start with, and which tokens end what a rule derives.
The parsers decide by the next token alone, and these facts tell that they decide
for the derivation.
-/

namespace Lox

/-! ## Tables of the parser -/

namespace Tier

/-- How tight a tier is. -/
def level : Tier → Nat
  | disjunction => 0
  | conjunction => 1
  | equality => 2
  | comparison => 3
  | term => 4
  | factor => 5

theorem Above.level {t t' : Tier} (h : t.Above t') : t'.level = t.level + 1 := by
  cases h <;> rfl

theorem Above.operand? {t t' : Tier} (h : t.Above t') : t.operand? = some t' := by
  cases h <;> rfl

theorem Operator.node? {t : Tier} {k : TokenKind} {node : Token → Expr → Expr → Expr}
    (h : t.Operator k node) : t.node? k = some node := by
  cases h <;> rfl

/-- An operator belongs to one tier. -/
theorem Operator.node?_of_ne {t t' : Tier} {k : TokenKind} {node : Token → Expr → Expr → Expr}
    (h : t.Operator k node) (ht : t.level < t'.level) : t'.node? k = none := by
  cases h <;> cases t' <;> first | rfl | (simp [Tier.level] at ht)

end Tier

theorem UnaryOp.Operator.ofKind? {k : TokenKind} {op : UnaryOp} (h : UnaryOp.Operator k op) :
    UnaryOp.ofKind? k = some op := by
  cases h <;> rfl

theorem Literal.Constant.ofKind? {k : TokenKind} {v : Literal} (h : Literal.Constant k v) :
    Literal.ofKind? k = some v := by
  cases h <;> rfl

/-! ## Tokens that end an expression -/

/-- Whether a token ends operands and operators from a level of tiers on. -/
structure TokenKind.Stops (level : Nat) (k : TokenKind) : Prop where
  leftParen : k ≠ .symbol .leftParen
  dot : k ≠ .symbol .dot
  node? : ∀ t : Tier, level ≤ t.level → t.node? k = none

/-- Whether a token ends every expression. -/
structure TokenKind.EndsExpression (k : TokenKind) : Prop where
  stops : k.Stops 0
  equal : k ≠ .symbol .equal

namespace TokenKind

theorem Stops.weaken {level level' : Nat} {k : TokenKind} (h : k.Stops level)
    (hl : level ≤ level') : k.Stops level' :=
  ⟨h.leftParen, h.dot, fun t ht => h.node? t (Nat.le_trans hl ht)⟩

theorem stops_of_operator {t : Tier} {k : TokenKind} {node : Token → Expr → Expr → Expr}
    (h : t.Operator k node) : k.Stops (t.level + 1) := by
  refine ⟨?_, ?_, fun t' ht => h.node?_of_ne ht⟩ <;> cases h <;> exact nofun

theorem stops_equal : (TokenKind.symbol .equal).Stops 0 :=
  ⟨nofun, nofun, fun t _ => by cases t <;> rfl⟩

theorem endsExpression_semicolon : (TokenKind.symbol .semicolon).EndsExpression :=
  ⟨⟨nofun, nofun, fun t _ => by cases t <;> rfl⟩, nofun⟩

theorem endsExpression_comma : (TokenKind.symbol .comma).EndsExpression :=
  ⟨⟨nofun, nofun, fun t _ => by cases t <;> rfl⟩, nofun⟩

theorem endsExpression_rightParen : (TokenKind.symbol .rightParen).EndsExpression :=
  ⟨⟨nofun, nofun, fun t _ => by cases t <;> rfl⟩, nofun⟩

theorem endsExpression_endOfInput : TokenKind.endOfInput.EndsExpression :=
  ⟨⟨nofun, nofun, fun t _ => by cases t <;> rfl⟩, nofun⟩

/-! ## Tokens that start a rule -/

/-- Whether an expression that is no operation can start with a token. -/
def startsPrimary : TokenKind → Bool
  | .number _ | .string _ | .identifier | .symbol .leftParen => true
  | .keyword .true | .keyword .false | .keyword .nil | .keyword .this | .keyword .super => true
  | _ => false

/-- Whether an expression can start with a token. -/
def startsExpression (k : TokenKind) : Bool :=
  k.startsPrimary || k.isSymbol .bang || k.isSymbol .minus

/-- Whether a statement that declares nothing can start with a token. -/
def startsPlain (k : TokenKind) : Bool :=
  k.startsExpression || k.isSymbol .leftBrace || k.isKeyword .print || k.isKeyword .return ||
    k.isKeyword .while || k.isKeyword .for || k.isKeyword .if

/-- Whether a declaration can start with a token. -/
def startsDeclaration (k : TokenKind) : Bool :=
  k.startsPlain || k.isKeyword .cls || k.isKeyword .fun || k.isKeyword .var

end TokenKind

/-- The tokens that a rule can start with. -/
def Rule.Starts : Rule → TokenKind → Prop
  | primary | call => fun k => k.startsPrimary = true
  | unary | operand _ | tier _ | assignment | expression | optionalExpression | moreArguments
  | arguments | exprStmt => fun k => k.startsExpression = true
  | varDecl => fun k => k = .keyword .var
  | forInitializer => fun k =>
      k = .symbol .semicolon ∨ k = .keyword .var ∨ k.startsExpression = true
  | statement _ => fun k => k.startsPlain = true
  | moreParameters | parameters | callable => fun k => k = .identifier
  | methods => fun k => k = .identifier ∨ k = .keyword .fun
  | classDecl => fun k => k = .keyword .cls
  | block => fun k => k = .symbol .leftBrace
  | declaration | declarations => fun k => k.startsDeclaration = true

/-- Whether a rule derives the empty list. -/
def Rule.isNullable : Rule → Bool
  | optionalExpression | arguments | parameters | methods | declarations => true
  | _ => false

/-- Whether some tokens start as a rule does. -/
def Rule.Opens (r : Rule) : List Token → Prop
  | [] => r.isNullable = true
  | t :: _ => r.Starts t.kind

namespace Rule.Opens

variable {r r' : Rule} {w w' : List Token}

theorem append (h : r.Opens w) (hr : r.isNullable = false) : r.Opens (w ++ w') := by
  cases w with
  | nil => simp [Rule.Opens, hr] at h
  | cons t ts => exact h

/-- A rule that can start with another one. -/
theorem lift (h : r.Opens w) (hr : r.isNullable = false)
    (hs : ∀ k, r.Starts k → r'.Starts k) : r'.Opens w := by
  cases w with
  | nil => simp [Rule.Opens, hr] at h
  | cons t ts => exact hs _ h

theorem ne_nil (h : r.Opens w) (hr : r.isNullable = false) : w ≠ [] := by
  rintro rfl
  simp [Rule.Opens, hr] at h

theorem length_pos (h : r.Opens w) (hr : r.isNullable = false) : 0 < w.length :=
  List.length_pos_iff.mpr (h.ne_nil hr)

/-- What holds of the tokens that a rule starts with holds of the next token. -/
theorem next (h : r.Opens w) (hr : r.isNullable = false) (rest : List Token) :
    r.Starts (Lox.next (w ++ rest)) := by
  cases w with
  | nil => simp [Rule.Opens, hr] at h
  | cons t ts => exact h

end Rule.Opens

namespace TokenKind

theorem startsPrimary_of_constant {k : TokenKind} {v : Literal} (h : Literal.Constant k v) :
    k.startsPrimary = true := by
  cases h <;> rfl

theorem startsExpression_of_operator {k : TokenKind} {op : UnaryOp}
    (h : UnaryOp.Operator k op) : k.startsExpression = true := by
  cases h <;> rfl

theorem startsExpression_of_primary {k : TokenKind} (h : k.startsPrimary = true) :
    k.startsExpression = true := by
  simp [startsExpression, h]

/-- A token that passes a test is none that does not. -/
theorem ne_of_test {test : TokenKind → Bool} {k k' : TokenKind} (h : test k = true)
    (h' : test k' = false) : k ≠ k' := by
  rintro rfl
  rw [h] at h'
  cases h'

theorem startsPlain_of_expression {k : TokenKind} (h : k.startsExpression = true) :
    k.startsPlain = true := by
  simp [startsPlain, h]

theorem startsDeclaration_of_plain {k : TokenKind} (h : k.startsPlain = true) :
    k.startsDeclaration = true := by
  simp [startsDeclaration, h]

end TokenKind

open TokenKind in
/-- What a rule derives starts with a token that the rule can start with. -/
theorem Derives.opens {nearest : Prop} {r : Rule} {room : Nat} {w : List Token} {tree : r.Tree}
    (h : Derives nearest r room w tree) : r.Opens w := by
  induction h with
  | constant hc => exact startsPrimary_of_constant hc
  | operation hop => exact startsExpression_of_operator hop
  | callee _ ih => exact ih.lift rfl fun _ hs => hs
  | application _ _ _ _ ih => rw [List.append_assoc]; exact ih.append rfl
  | property _ _ _ ih => exact ih.append rfl
  | someArguments _ _ ih => exact ih.lift rfl fun _ hs => hs
  | lastArgument _ ih => exact ih.lift rfl fun _ hs => hs
  | nextArgument _ _ _ ih => exact (ih.append rfl).lift rfl fun _ hs => hs
  | noOperation _ ih => exact ih.lift rfl fun _ => TokenKind.startsExpression_of_primary
  | operandOfTier _ _ ih => exact ih.lift rfl fun _ hs => hs
  | operandOfFactor _ ih => exact ih.lift rfl fun _ hs => hs
  | operand _ ih => exact ih.lift rfl fun _ hs => hs
  | operator _ _ _ ih => exact ih.append rfl
  | assign hn => simp [Rule.Opens, Rule.Starts, hn, startsExpression, startsPrimary]
  | setProperty _ _ _ _ _ ih =>
      exact (ih.append rfl).lift rfl fun _ => TokenKind.startsExpression_of_primary
  | noAssignment _ ih => exact ih.lift rfl fun _ hs => hs
  | expression _ ih => exact ih.lift rfl fun _ hs => hs
  | someExpression _ ih => exact ih.lift rfl fun _ hs => hs
  | exprStmt _ _ ih => exact (ih.append rfl).lift rfl fun _ hs => hs
  | varInitializer _ ih => exact ih.lift rfl fun _ hs => .inr (.inl hs)
  | exprInitializer _ ih => exact ih.lift rfl fun _ hs => .inr (.inr hs)
  | evaluate _ ih => exact ih.lift rfl fun _ => TokenKind.startsPlain_of_expression
  | blockStmt _ ih =>
      exact ih.lift rfl fun k (hk : k = _) => by simp [hk, Rule.Starts, startsPlain, isSymbol]
  | someParameters _ _ ih => exact ih.lift rfl fun _ hs => hs
  | method _ _ ih => exact (ih.append rfl).lift rfl fun _ hs => .inl hs
  | declareClass _ ih =>
      exact ih.lift rfl fun k (hk : k = _) => by simp [hk, Rule.Starts, startsDeclaration, isKeyword]
  | declareVariable _ ih =>
      exact ih.lift rfl fun k (hk : k = _) => by simp [hk, Rule.Starts, startsDeclaration, isKeyword]
  | statement _ ih => exact ih.lift rfl fun _ => TokenKind.startsDeclaration_of_plain
  | declarations _ _ ih => exact (ih.append rfl).lift rfl fun _ hs => hs
  | _ =>
      simp_all [Rule.Opens, Rule.Starts, Rule.isNullable, startsPrimary, startsPlain,
        startsDeclaration, isKeyword, isSymbol]

end Lox
