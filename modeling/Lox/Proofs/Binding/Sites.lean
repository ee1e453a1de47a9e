import Lox.Scoping

/-!
# Sites in a program

A site is a piece of a program together with what it stands in: the scopes around it,
from the inside out, each with what opens it and the names that were declared in it
before. Sites alone say which of them break the static rules, and how far out the name
of a reference is declared.

## Implementation notes

The sites of a program are listed in the order in which it is written, but a value comes
before the object whose property it is assigned to.

The branches of a statement and the body of a loop are statements of the scope around
them. In a program that was read from a source they declare nothing.
-/

namespace Lox

/-! ## Scopes around a site -/

/-- What opens a scope. -/
inductive Opening where
  | block
  | function (d : FunctionDecl)
  /-- A method of a class, which may have a superclass. -/
  | method (superclass : Option Reference) (d : FunctionDecl)

/-- The scopes that the language itself opens around a scope, the innermost first. -/
def Opening.given : Opening → List (List String)
  | .block => []
  | .function _ => []
  | .method none _ => [[Keyword.this.text]]
  | .method (some _) _ => [[Keyword.this.text], [Keyword.super.text]]

/-- A scope with the names that have been declared in it so far. -/
structure Frame where
  opening : Opening
  declared : List Token

/-- The scopes around a site, the innermost first. There are none around the statements
of a program. -/
abbrev Frames := List Frame

namespace Frames

/-- All scopes around a site with their names, those of the language among them. -/
def scopes (Γ : Frames) : List (List String) :=
  Γ.flatMap fun f => f.declared.map Token.lexeme :: f.opening.given

/-- How often the innermost scope has declared a name. -/
def count : Frames → Token → Nat
  | [], _ => 0
  | f :: _, name => f.declared.countP fun other => other.lexeme == name.lexeme

/-- What is around a site behind some declarations. Globals are not kept. -/
def past : Frames → List Token → Frames
  | [], _ => []
  | f :: Γ, names => { f with declared := f.declared ++ names } :: Γ

/-- The innermost function or method around a site. -/
def function? : Frames → Option Opening
  | [] => none
  | ⟨.block, _⟩ :: Γ => function? Γ
  | ⟨.function d, _⟩ :: _ => some (.function d)
  | ⟨.method superclass d, _⟩ :: _ => some (.method superclass d)

/-- The superclass, if it has one, of the innermost class with a method around a site. -/
def class? : Frames → Option (Option Reference)
  | [] => none
  | ⟨.block, _⟩ :: Γ => class? Γ
  | ⟨.function _, _⟩ :: Γ => class? Γ
  | ⟨.method superclass _, _⟩ :: _ => some superclass

/-- Whether the innermost function around a site is the method that sets up instances. -/
def isInInitializer (Γ : Frames) : Bool :=
  match Γ.function? with
  | some (.method _ d) => d.name.lexeme == initializerName
  | _ => false

/-- Whether so many scopes are strictly inside the innermost one that has a name. -/
def FindsAt (Γ : Frames) (name : String) (depth : Nat) : Prop :=
  ∃ inner scope outer, Γ.scopes = inner ++ scope :: outer ∧ inner.length = depth ∧
    name ∈ scope ∧ ∀ scope ∈ inner, name ∉ scope

end Frames

/-! ## Sites -/

/-- A piece of a program. -/
inductive Piece where
  | expr (e : Expr)
  | stmt (s : Stmt)
  | parameter (name : Token)

/-- A piece of a program where it stands. -/
structure Site where
  piece : Piece
  /-- The variable that an expression is to initialize. -/
  initialized : Option Token
  around : Frames

mutual

/-- The names that a statement declares in the scope around it. -/
def Stmt.names : Stmt → List Token
  | .varDecl name _ => [name]
  | .funDecl function => [function.name]
  | .classDecl name _ _ => [name]
  | .branch _ yes no => yes.names ++ Stmt.namesOptional no
  | .loop _ body => body.names
  | _ => []

/-- The names that a statement after `else` declares in the scope around it. -/
def Stmt.namesOptional : Option Stmt → List Token
  | none => []
  | some s => s.names

end

section

variable (x : Option Token) (Γ : Frames)

mutual

/-- The sites in an expression. -/
def Expr.sites (e : Expr) : List Site :=
  ⟨.expr e, x, Γ⟩ :: match e with
    | .literal _ => []
    | .variable _ => []
    | .receiver _ => []
    | .inherited _ _ => []
    | .grouping inner => inner.sites
    | .unary _ _ operand => operand.sites
    | .binary _ _ left right => left.sites ++ right.sites
    | .logical _ _ left right => left.sites ++ right.sites
    | .assign _ value => value.sites
    | .get object _ => object.sites
    | .set object _ value => value.sites ++ object.sites
    | .call callee _ arguments => callee.sites ++ Expr.sitesAll arguments

/-- The sites in expressions. -/
def Expr.sitesAll : List Expr → List Site
  | [] => []
  | e :: es => e.sites ++ Expr.sitesAll es

end

/-- The sites in an expression that may be left out. -/
def Expr.sitesOptional : Option Expr → List Site
  | none => []
  | some e => e.sites x Γ

end

/-- The sites of parameters. -/
def parameterSites (Γ : Frames) : List Token → List Site
  | [] => []
  | name :: names => ⟨.parameter name, none, Γ⟩ :: parameterSites (Γ.past [name]) names

mutual

/-- The sites in a statement. A variable counts from its declaration on, and a function
or a class already inside itself. -/
def Stmt.sites (Γ : Frames) (s : Stmt) : List Site :=
  ⟨.stmt s, none, Γ⟩ :: match s with
    | .expression value => value.sites none Γ
    | .print value => value.sites none Γ
    | .varDecl name initializer => Expr.sitesOptional (some name) (Γ.past [name]) initializer
    | .funDecl function => function.sites (.function function) (Γ.past [function.name])
    | .classDecl name superclass methods =>
        Expr.sitesOptional none (Γ.past [name]) (superclass.map .variable) ++
          FunctionDecl.sitesAll superclass (Γ.past [name]) methods
    | .block body => Stmt.sitesAll (⟨.block, []⟩ :: Γ) body
    | .branch condition yes no =>
        condition.sites none Γ ++ (yes.sites Γ ++ Stmt.sitesOptional (Γ.past yes.names) no)
    | .loop condition body => condition.sites none Γ ++ body.sites Γ
    | .ret _ value => Expr.sitesOptional none Γ value

/-- The sites in a function or method, whose parameters and body share a scope. -/
def FunctionDecl.sites (opening : Opening) (Γ : Frames) : FunctionDecl → List Site
  | ⟨_, parameters, body⟩ =>
      parameterSites (⟨opening, []⟩ :: Γ) parameters ++
        Stmt.sitesAll (⟨opening, parameters⟩ :: Γ) body

/-- The sites in statements one after the other. -/
def Stmt.sitesAll (Γ : Frames) : List Stmt → List Site
  | [] => []
  | s :: ss => s.sites Γ ++ Stmt.sitesAll (Γ.past s.names) ss

/-- The sites in the methods of a class. -/
def FunctionDecl.sitesAll (superclass : Option Reference) (Γ : Frames) :
    List FunctionDecl → List Site
  | [] => []
  | d :: ds => d.sites (.method superclass d) Γ ++ FunctionDecl.sitesAll superclass Γ ds

/-- The sites in a statement that may be left out. -/
def Stmt.sitesOptional (Γ : Frames) : Option Stmt → List Site
  | none => []
  | some s => s.sites Γ

end

/-- The sites in a program. -/
def sites (program : List Stmt) : List Site :=
  Stmt.sitesAll [] program

/-! ## The static rules -/

/-- A breach of a rule, if it is broken. -/
def breachIf (broken : Bool) (cause : ScopingCause) (token : Token) : List ScopingError :=
  if broken then [⟨cause, token⟩] else []

/-- What breaks the static rules at a site itself. -/
def Site.breaches : Site → List ScopingError
  | ⟨.parameter name, _, Γ⟩ => breachIf (0 < Γ.count name) .redeclaration name
  | ⟨.stmt (.varDecl name _), _, Γ⟩ => breachIf (0 < Γ.count name) .redeclaration name
  | ⟨.stmt (.funDecl d), _, Γ⟩ => breachIf (0 < Γ.count d.name) .redeclaration d.name
  | ⟨.stmt (.classDecl name none _), _, Γ⟩ => breachIf (0 < Γ.count name) .redeclaration name
  | ⟨.stmt (.classDecl name (some superclass) _), _, Γ⟩ =>
      breachIf (0 < Γ.count name) .redeclaration name ++
        breachIf (superclass.name.lexeme == name.lexeme) .inheritsFromItself superclass.name
  | ⟨.stmt (.ret keyword value), _, Γ⟩ =>
      breachIf Γ.function?.isNone .returnAtTopLevel keyword ++
        breachIf (value.isSome && Γ.isInInitializer) .returnValueFromInitializer keyword
  -- The variable is declared where its initializer stands, but nowhere before.
  | ⟨.expr (.variable target), some name, Γ⟩ =>
      breachIf (name.lexeme == target.name.lexeme && Γ.count name == 1) .readInOwnInitializer
        target.name
  | ⟨.expr (.receiver target), _, Γ⟩ => breachIf Γ.class?.isNone .thisOutsideClass target.name
  | ⟨.expr (.inherited target _), _, Γ⟩ =>
      match Γ.class? with
      | none => [⟨.superOutsideClass, target.name⟩]
      | some none => [⟨.superWithoutSuperclass, target.name⟩]
      | some (some _) => []
  | _ => []

/-- What breaks the static rules anywhere in a program. -/
def breaches (program : List Stmt) : List ScopingError :=
  (sites program).flatMap Site.breaches

/-! ## References -/

/-- The reference that an expression itself is, with the name that is looked for. -/
def Expr.sought? : Expr → Option (Reference × String)
  | .variable target => some (target, target.name.lexeme)
  | .receiver target => some (target, Keyword.this.text)
  | .inherited target _ => some (target, Keyword.super.text)
  | .assign target _ => some (target, target.name.lexeme)
  | _ => none

/-- The reference that stands at a site, with the name that is looked for. -/
def Site.sought? (p : Site) : Option (Reference × String) :=
  match p.piece with
  | .expr e => e.sought?
  | _ => none

end Lox
