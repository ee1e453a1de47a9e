import Lox.Token

/-!
# Syntax trees

Expressions, statements and function declarations. A node that names a
variable, `this` or `super` is a `Reference`: it has a number of its own, so
that what is found out about one occurrence of a name can be kept outside the
tree.

## Implementation notes

An operator is kept twice, as what it does and as the token that spells it: the
first drives evaluation, the second is blamed and printed. A `for` loop has no
node of its own; it is read as blocks around a `while` loop.
-/

namespace Lox

/-- The number of a reference, unlike that of any other in its session. -/
abbrev NodeId := Nat

/-- One occurrence of a name that has to be looked up. -/
structure Reference where
  id : NodeId
  name : Token
  deriving Repr

/-- Constants of the language. -/
inductive Literal where
  | nil
  | bool (value : Bool)
  | number (value : Float)
  | string (value : String)
  deriving Repr

/-- What an operator before its operand does. -/
inductive UnaryOp where
  | negate
  | not
  deriving Repr, DecidableEq

/-- What an operator between two evaluated operands does. -/
inductive BinaryOp where
  | add | subtract | multiply | divide
  | less | lessEqual | greater | greaterEqual
  | equal | notEqual
  deriving Repr, DecidableEq

/-- What an operator that may skip its right operand does. -/
inductive LogicalOp where
  | and
  | or
  deriving Repr, DecidableEq

/-- Expressions. -/
inductive Expr where
  | literal (value : Literal)
  | variable (target : Reference)
  /-- The receiver of the method in which it stands. -/
  | receiver (target : Reference)
  /-- A method of the class above, bound to the receiver. -/
  | inherited (target : Reference) (method : Token)
  | grouping (inner : Expr)
  | unary (op : UnaryOp) (operator : Token) (operand : Expr)
  | binary (op : BinaryOp) (operator : Token) (left right : Expr)
  | logical (op : LogicalOp) (operator : Token) (left right : Expr)
  | assign (target : Reference) (value : Expr)
  | get (object : Expr) (name : Token)
  | set (object : Expr) (name : Token) (value : Expr)
  /-- A call, located by its closing parenthesis. -/
  | call (callee : Expr) (closing : Token) (arguments : List Expr)
  deriving Repr

/-- The number of the node itself, if it is a reference. -/
def Expr.id? : Expr → Option NodeId
  | .variable target => some target.id
  | .receiver target => some target.id
  | .inherited target _ => some target.id
  | .assign target _ => some target.id
  | _ => none

mutual

/-- Statements, declarations among them. -/
inductive Stmt where
  | expression (value : Expr)
  | print (value : Expr)
  | varDecl (name : Token) (initializer : Option Expr)
  | funDecl (function : FunctionDecl)
  | classDecl (name : Token) (superclass : Option Reference) (methods : List FunctionDecl)
  | block (body : List Stmt)
  | branch (condition : Expr) (yes : Stmt) (no : Option Stmt)
  | loop (condition : Expr) (body : Stmt)
  | ret (keyword : Token) (value : Option Expr)

/-- A named function or method with its parameters and body. -/
structure FunctionDecl where
  name : Token
  parameters : List Token
  body : List Stmt

end

end Lox
