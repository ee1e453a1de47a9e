import Lox.Proofs.Guise.Names
import Mathlib.Data.List.Forall2

/-!
# Trees that are alike

Two trees are alike if one is the other in another guise: they have the same shape, the
same operators, properties and constants on the same lines, and their references are to
the same declarations. A declared variable or parameter is told as its scope has it,
while functions and classes keep their names.

## Implementation notes

The scopes around a piece of a program are given by `K`, as for references. Which names
a scope exchanges is left open where the scope is opened, and then settled for all that
stands in it.
-/

namespace Lox

variable (G : Guise)

/-- Expressions that are alike. -/
inductive Expr.Alike (K : List Bool) : Expr → Expr → Prop
  | literal (value : Literal) : Alike K (.literal value) (.literal value)
  | variable {r r' : Reference} (hr : G.Refers K r r') : Alike K (.variable r) (.variable r')
  | receiver {r r' : Reference} (hr : G.Refers K r r') : Alike K (.receiver r) (.receiver r')
  | inherited {id id' : NodeId} {d : Nat} (name method : Token) (h : G.distance id = some d)
      (h' : G.distance' id' = some d) (hd : d < K.length) :
      Alike K (.inherited ⟨id, name⟩ method) (.inherited ⟨id', name⟩ method)
  | grouping {e e' : Expr} (he : Alike K e e') : Alike K (.grouping e) (.grouping e')
  | unary (op : UnaryOp) (operator : Token) {e e' : Expr} (he : Alike K e e') :
      Alike K (.unary op operator e) (.unary op operator e')
  | binary (op : BinaryOp) (operator : Token) {l l' r r' : Expr} (hl : Alike K l l')
      (hr : Alike K r r') : Alike K (.binary op operator l r) (.binary op operator l' r')
  | logical (op : LogicalOp) (operator : Token) {l l' r r' : Expr} (hl : Alike K l l')
      (hr : Alike K r r') : Alike K (.logical op operator l r) (.logical op operator l' r')
  | assign {r r' : Reference} {e e' : Expr} (hr : G.Refers K r r') (he : Alike K e e') :
      Alike K (.assign r e) (.assign r' e')
  | get {o o' : Expr} (ho : Alike K o o') (name : Token) : Alike K (.get o name) (.get o' name)
  | set {o o' e e' : Expr} (ho : Alike K o o') (name : Token) (he : Alike K e e') :
      Alike K (.set o name e) (.set o' name e')
  | call {c c' : Expr} (hc : Alike K c c') (closing : Token) {es es' : List Expr}
      (hes : List.Forall₂ (Alike K) es es') : Alike K (.call c closing es) (.call c' closing es')

mutual

/-- Statements that are alike. -/
inductive Stmt.Alike : List Bool → Stmt → Stmt → Prop
  | expression {K : List Bool} {e e' : Expr} (he : e.Alike G K e') :
      Stmt.Alike K (.expression e) (.expression e')
  | print {K : List Bool} {e e' : Expr} (he : e.Alike G K e') : Stmt.Alike K (.print e) (.print e')
  | varDecl (K : List Bool) (name : Token) :
      Stmt.Alike K (.varDecl name none) (.varDecl (G.declared K name) none)
  | initialized {K : List Bool} (name : Token) {e e' : Expr} (he : e.Alike G K e') :
      Stmt.Alike K (.varDecl name (some e)) (.varDecl (G.declared K name) (some e'))
  | funDecl {K : List Bool} {d d' : FunctionDecl} (hname : G.declared K d.name = d.name)
      (hd : FunctionDecl.Alike K d d') : Stmt.Alike K (.funDecl d) (.funDecl d')
  | baseClass {K : List Bool} {name : Token} {ds ds' : List FunctionDecl}
      (hname : G.declared K name = name) (hds : FunctionDecl.AreAlike (false :: K) ds ds') :
      Stmt.Alike K (.classDecl name none ds) (.classDecl name none ds')
  | subclass {K : List Bool} {name : Token} {r r' : Reference} {ds ds' : List FunctionDecl}
      (hname : G.declared K name = name) (hr : G.Refers K r r')
      (hds : FunctionDecl.AreAlike (false :: false :: K) ds ds') :
      Stmt.Alike K (.classDecl name (some r) ds) (.classDecl name (some r') ds')
  | block {K : List Bool} {b : Bool} {body body' : List Stmt}
      (hbody : Stmt.AreAlike (b :: K) body body') : Stmt.Alike K (.block body) (.block body')
  | branch {K : List Bool} {e e' : Expr} {yes yes' : Stmt} (he : e.Alike G K e')
      (hyes : Stmt.Alike K yes yes') : Stmt.Alike K (.branch e yes none) (.branch e' yes' none)
  | branchElse {K : List Bool} {e e' : Expr} {yes yes' no no' : Stmt} (he : e.Alike G K e')
      (hyes : Stmt.Alike K yes yes') (hno : Stmt.Alike K no no') :
      Stmt.Alike K (.branch e yes (some no)) (.branch e' yes' (some no'))
  | loop {K : List Bool} {e e' : Expr} {body body' : Stmt} (he : e.Alike G K e')
      (hbody : Stmt.Alike K body body') : Stmt.Alike K (.loop e body) (.loop e' body')
  | ret (K : List Bool) (keyword : Token) : Stmt.Alike K (.ret keyword none) (.ret keyword none)
  | returned {K : List Bool} (keyword : Token) {e e' : Expr} (he : e.Alike G K e') :
      Stmt.Alike K (.ret keyword (some e)) (.ret keyword (some e'))

/-- Statements in order that are alike. -/
inductive Stmt.AreAlike : List Bool → List Stmt → List Stmt → Prop
  | nil (K : List Bool) : Stmt.AreAlike K [] []
  | cons {K : List Bool} {s s' : Stmt} {ss ss' : List Stmt} (hs : Stmt.Alike K s s')
      (hss : Stmt.AreAlike K ss ss') : Stmt.AreAlike K (s :: ss) (s' :: ss')

/-- Functions that are alike. Their parameters are told as the scope of a call has them. -/
inductive FunctionDecl.Alike : List Bool → FunctionDecl → FunctionDecl → Prop
  | of {K : List Bool} {b : Bool} (name : Token) (parameters : List Token)
      {body body' : List Stmt} (hbody : Stmt.AreAlike (b :: K) body body') :
      FunctionDecl.Alike K ⟨name, parameters, body⟩ ⟨name, parameters.map (G.token b), body'⟩

/-- Methods that are alike. -/
inductive FunctionDecl.AreAlike : List Bool → List FunctionDecl → List FunctionDecl → Prop
  | nil (K : List Bool) : FunctionDecl.AreAlike K [] []
  | cons {K : List Bool} {d d' : FunctionDecl} {ds ds' : List FunctionDecl}
      (hd : FunctionDecl.Alike K d d') (hds : FunctionDecl.AreAlike K ds ds') :
      FunctionDecl.AreAlike K (d :: ds) (d' :: ds')

end

variable {G}

namespace FunctionDecl.Alike

variable {K : List Bool} {d d' : FunctionDecl}

theorem name (h : d.Alike G K d') : d'.name = d.name := by
  cases h
  rfl

theorem length_parameters (h : d.Alike G K d') : d'.parameters.length = d.parameters.length := by
  cases h
  exact List.length_map _

/-- The scope of a call tells parameters and body alike. -/
theorem body (h : d.Alike G K d') : ∃ b, d'.parameters = d.parameters.map (G.token b) ∧
    Stmt.AreAlike G (b :: K) d.body d'.body := by
  cases h with
  | of name parameters hbody => exact ⟨_, rfl, hbody⟩

end FunctionDecl.Alike

end Lox
