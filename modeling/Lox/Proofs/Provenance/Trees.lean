import Lox.Proofs.History.Paths

/-!
# The tokens of code

Which tokens a tree is made of, as a predicate that they all fulfil. What a name is given
to, be it declared or assigned, is a name and no other token. All code that a machine holds
is made of such tokens if the trees that it began with are: the machine takes trees apart
and keeps their parts in continuations, functions and classes, but makes none.
-/

namespace Lox

variable {P : Token → Prop}

/-- Whether a token fulfils a predicate and is a name. -/
structure Token.IsNameOf (P : Token → Prop) (t : Token) : Prop where
  of : P t
  kind : t.kind = .identifier

/-! ## Trees -/

mutual

/-- Whether all tokens of an expression fulfil a predicate. -/
def Expr.MadeOf (P : Token → Prop) : Expr → Prop
  | .literal _ => True
  | .variable target => target.name.IsNameOf P
  | .receiver target => P target.name
  | .inherited target method => P target.name ∧ P method
  | .grouping inner => inner.MadeOf P
  | .unary _ operator operand => P operator ∧ operand.MadeOf P
  | .binary _ operator left right => P operator ∧ left.MadeOf P ∧ right.MadeOf P
  | .logical _ operator left right => P operator ∧ left.MadeOf P ∧ right.MadeOf P
  | .assign target value => target.name.IsNameOf P ∧ value.MadeOf P
  | .get object name => P name ∧ object.MadeOf P
  | .set object name value => P name ∧ object.MadeOf P ∧ value.MadeOf P
  | .call callee closing arguments => P closing ∧ callee.MadeOf P ∧ Expr.AllMadeOf P arguments

/-- Whether all tokens of some expressions fulfil a predicate. -/
def Expr.AllMadeOf (P : Token → Prop) : List Expr → Prop
  | [] => True
  | e :: es => e.MadeOf P ∧ Expr.AllMadeOf P es

end

mutual

/-- Whether all tokens of a statement fulfil a predicate. -/
def Stmt.MadeOf (P : Token → Prop) : Stmt → Prop
  | .expression value => value.MadeOf P
  | .print value => value.MadeOf P
  | .varDecl name initializer => name.IsNameOf P ∧ ∀ e ∈ initializer, e.MadeOf P
  | .funDecl function => function.MadeOf P
  | .classDecl name superclass methods =>
      name.IsNameOf P ∧ (∀ r ∈ superclass, r.name.IsNameOf P) ∧ FunctionDecl.AllMadeOf P methods
  | .block body => Stmt.AllMadeOf P body
  | .branch condition yes no => condition.MadeOf P ∧ yes.MadeOf P ∧ Stmt.OptionalMadeOf P no
  | .loop condition body => condition.MadeOf P ∧ body.MadeOf P
  | .ret keyword value => P keyword ∧ ∀ e ∈ value, e.MadeOf P

/-- Whether all tokens of some statements fulfil a predicate. -/
def Stmt.AllMadeOf (P : Token → Prop) : List Stmt → Prop
  | [] => True
  | s :: ss => s.MadeOf P ∧ Stmt.AllMadeOf P ss

/-- Whether all tokens of a statement that may be left out fulfil a predicate. -/
def Stmt.OptionalMadeOf (P : Token → Prop) : Option Stmt → Prop
  | none => True
  | some s => s.MadeOf P

/-- Whether all tokens of a function fulfil a predicate. -/
def FunctionDecl.MadeOf (P : Token → Prop) : FunctionDecl → Prop
  | ⟨name, parameters, body⟩ =>
      name.IsNameOf P ∧ (∀ p ∈ parameters, p.IsNameOf P) ∧ Stmt.AllMadeOf P body

/-- Whether all tokens of some functions fulfil a predicate. -/
def FunctionDecl.AllMadeOf (P : Token → Prop) : List FunctionDecl → Prop
  | [] => True
  | d :: ds => d.MadeOf P ∧ FunctionDecl.AllMadeOf P ds

end

theorem Expr.allMadeOf_iff {es : List Expr} : Expr.AllMadeOf P es ↔ ∀ e ∈ es, e.MadeOf P := by
  induction es with
  | nil => simp [Expr.AllMadeOf]
  | cons e es ih => simp [Expr.AllMadeOf, ih]

theorem Stmt.allMadeOf_iff {ss : List Stmt} : Stmt.AllMadeOf P ss ↔ ∀ s ∈ ss, s.MadeOf P := by
  induction ss with
  | nil => simp [Stmt.AllMadeOf]
  | cons s ss ih => simp [Stmt.AllMadeOf, ih]

theorem FunctionDecl.allMadeOf_iff {ds : List FunctionDecl} :
    FunctionDecl.AllMadeOf P ds ↔ ∀ d ∈ ds, d.MadeOf P := by
  induction ds with
  | nil => simp [FunctionDecl.AllMadeOf]
  | cons d ds ih => simp [FunctionDecl.AllMadeOf, ih]

theorem FunctionDecl.MadeOf.body {d : FunctionDecl} (h : d.MadeOf P) : Stmt.AllMadeOf P d.body := by
  cases d
  exact h.2.2

theorem FunctionDecl.MadeOf.name {d : FunctionDecl} (h : d.MadeOf P) : d.name.IsNameOf P := by
  cases d
  exact h.1

/-! ## What is held -/

/-- Whether all tokens of a node fulfil a predicate. -/
def Node.MadeOf (P : Token → Prop) : Node → Prop
  | .expr e => e.MadeOf P
  | .stmt s => s.MadeOf P
  | .function d => d.MadeOf P

/-- Whether all tokens in the methods of a class and of those above it fulfil a predicate. -/
def Class.MadeOf (P : Token → Prop) (c : Class) : Prop :=
  ∀ d ∈ c.chain, ∀ m ∈ d.methods, m.decl.MadeOf P

/-- Whether all tokens of what is held fulfil a predicate. -/
def Holding.MadeOf (P : Token → Prop) : Holding → Prop
  | .value (.function f) => f.decl.MadeOf P
  | .value (.cls c) => c.MadeOf P
  | .value _ => True
  | .code _ node => node.MadeOf P

theorem Node.MadeOf.parts {node : Node} (h : node.MadeOf P) : ∀ part ∈ node.parts, part.MadeOf P := by
  cases node with
  | expr e => cases e <;> simp_all [Node.parts, Node.MadeOf, Expr.MadeOf, Expr.allMadeOf_iff]
  | stmt s =>
    cases s with
    | varDecl name initializer => cases initializer <;> simp_all [Node.parts, Node.MadeOf, Stmt.MadeOf]
    | classDecl name superclass methods =>
      cases superclass <;> simp_all [Node.parts, Node.MadeOf, Stmt.MadeOf, Expr.MadeOf]
    | branch condition yes no =>
      cases no <;> simp_all [Node.parts, Node.MadeOf, Stmt.MadeOf, Stmt.OptionalMadeOf]
    | ret keyword value => cases value <;> simp_all [Node.parts, Node.MadeOf, Stmt.MadeOf]
    | _ => simp_all [Node.parts, Node.MadeOf, Stmt.MadeOf]
  | function d => simp [Node.parts]

theorem Holding.MadeOf.carries (P : Token → Prop) (s : Store) :
    Holding.Carries (Holding.MadeOf P) s where
  plain v hv := by
    cases v with
    | function | cls => cases hv
    | _ => trivial
  part _ _ h := Node.MadeOf.parts h
  block _ _ _ h _ _ := Stmt.allMadeOf_iff.mp h
  body _ _ h _ _ := Stmt.allMadeOf_iff.mp (FunctionDecl.MadeOf.body h)

end Lox
