import Std.Data.TreeMap
import Lox.Diagnostic
import Lox.NameMap
import Lox.Syntax

/-!
# Binding names before a program runs

`resolve` walks a program once. It keeps the scopes that are open, notes for
every reference that a scope declares how many scopes lie in between, and
reports every breach of the static rules without stopping at any. A name that
no open scope declares is left to be found among the globals when the program
runs.

## Implementation notes

The walk is a function on `Walk`, which also holds what kind of function and
class it is inside of; whatever enters a scope, a function or a class puts the
outer one back. Blocks, calls, classes and classes with a superclass open a
scope here exactly where running them opens one.
-/

namespace Lox

/-- Where a reference finds its name: how many scopes out, and as a reader's
help what was looked for and on which line. -/
structure Binding where
  depth : Nat
  name : String
  line : Nat
  deriving Repr, DecidableEq

/-- What is known about references, by their numbers. -/
abbrev BindingTable := Std.TreeMap NodeId Binding

namespace BindingTable

/-- The number of scopes between a reference and its name; none for a global. -/
def distance? (table : BindingTable) (id : NodeId) : Option Nat :=
  (table[id]?).map Binding.depth

/-- Add entries one by one; a later entry for a number replaces an earlier one. -/
def addAll (table : BindingTable) (entries : List (NodeId × Binding)) : BindingTable :=
  entries.foldl (fun t e => t.insert e.1 e.2) table

/-- One table over another, whose entries it may replace. -/
def merge (older newer : BindingTable) : BindingTable :=
  older.addAll newer.toList

end BindingTable

/-- The innermost function around a piece of program. -/
inductive FunctionContext where
  | none
  | function
  | method
  | initializer
  deriving Repr, DecidableEq

/-- The innermost class around a piece of program. -/
inductive ClassContext where
  | none
  | base
  | derived
  deriving Repr, DecidableEq

/-- The name of the method that sets up a new instance. -/
def initializerName : String := "init"

/-- The state of the walk. Each scope says of its names whether they are ready
to be read; the innermost scope comes first. -/
structure Walk where
  scopes : List (NameMap Bool)
  function : FunctionContext
  cls : ClassContext
  /-- What was found out about references, the latest first. -/
  found : List (NodeId × Binding)
  /-- What breaks the rules, the earliest first. -/
  errors : List ScopingError

namespace Walk

/-- The walk before anything has been seen. -/
def start : Walk := ⟨[], .none, .none, [], []⟩

/-- Report a breach of the rules at a token. -/
def report (w : Walk) (cause : ScopingCause) (token : Token) : Walk :=
  { w with errors := w.errors ++ [⟨cause, token⟩] }

/-- Report a breach of the rules at a token if there is one. -/
def reportIf (w : Walk) (breach : Bool) (cause : ScopingCause) (token : Token) : Walk :=
  if breach then w.report cause token else w

/-- Give a name of the innermost scope, if there is one, a readiness. -/
def mark (w : Walk) (name : String) (ready : Bool) : Walk :=
  match w.scopes with
  | [] => w
  | scope :: outer => { w with scopes := scope.insert name ready :: outer }

/-- Declare a name in the innermost scope, not yet ready to be read. Globals
are not tracked and may be declared over and over. -/
def declare (w : Walk) (name : Token) : Walk :=
  match w.scopes with
  | [] => w
  | scope :: _ =>
      if scope.contains name.lexeme then w.report .redeclaration name
      else w.mark name.lexeme false

/-- Make a declared name ready to be read. -/
def define (w : Walk) (name : Token) : Walk :=
  w.mark name.lexeme true

/-- Declare a name that is ready at once. -/
def introduce (w : Walk) (name : Token) : Walk :=
  (w.declare name).define name

/-- Note how far out the innermost scope is that declares a reference's name. -/
def lookUp (w : Walk) (target : Reference) : Walk :=
  match w.scopes.findIdx? (·.contains target.name.lexeme) with
  | none => w
  | some depth =>
      { w with found := (target.id, ⟨depth, target.name.lexeme, target.name.line⟩) :: w.found }

/-- Whether the innermost scope has declared a name that is not ready. -/
def isUnready (w : Walk) (name : Token) : Bool :=
  match w.scopes with
  | [] => false
  | scope :: _ => scope.get? name.lexeme == some false

/-- Walk inside a new scope. -/
def inScope (w : Walk) (inner : Walk → Walk) : Walk :=
  let w := inner { w with scopes := .empty :: w.scopes }
  { w with scopes := w.scopes.tail }

/-- Walk inside a new scope that holds one name given by the language. -/
def inScopeOf (w : Walk) (name : Keyword) (inner : Walk → Walk) : Walk :=
  w.inScope fun w => inner (w.mark name.text true)

/-- Walk inside a function. -/
def inFunction (w : Walk) (context : FunctionContext) (inner : Walk → Walk) : Walk :=
  { inner { w with function := context } with function := w.function }

/-- Walk inside a class. -/
def inClass (w : Walk) (cls : ClassContext) (inner : Walk → Walk) : Walk :=
  { inner { w with cls } with cls := w.cls }

end Walk

/-- What a method is to the walk. -/
def FunctionContext.ofMethod (name : Token) : FunctionContext :=
  if name.lexeme == initializerName then .initializer else .method

mutual

/-- Walk over an expression. A value is visited before what it is assigned to. -/
def Expr.walk : Expr → Walk → Walk
  | .literal _, w => w
  | .variable target, w =>
      (w.reportIf (w.isUnready target.name) .readInOwnInitializer target.name).lookUp target
  | .receiver target, w =>
      match w.cls with
      | .none => w.report .thisOutsideClass target.name
      | _ => w.lookUp target
  | .inherited target _, w =>
      let w := match w.cls with
        | .none => w.report .superOutsideClass target.name
        | .base => w.report .superWithoutSuperclass target.name
        | .derived => w
      w.lookUp target
  | .grouping inner, w => inner.walk w
  | .unary _ _ operand, w => operand.walk w
  | .binary _ _ left right, w => right.walk (left.walk w)
  | .logical _ _ left right, w => right.walk (left.walk w)
  | .assign target value, w => (value.walk w).lookUp target
  | .get object _, w => object.walk w
  | .set object _ value, w => object.walk (value.walk w)
  | .call callee _ arguments, w => Expr.walkAll arguments (callee.walk w)

/-- Walk over expressions in order. -/
def Expr.walkAll : List Expr → Walk → Walk
  | [], w => w
  | e :: es, w => Expr.walkAll es (e.walk w)

end

/-- Walk over an expression that may be left out. -/
def Expr.walkOptional : Option Expr → Walk → Walk
  | none, w => w
  | some e, w => e.walk w

mutual

/-- Walk over a statement. -/
def Stmt.walk : Stmt → Walk → Walk
  | .expression value, w => value.walk w
  | .print value, w => value.walk w
  | .varDecl name initializer, w =>
      (Expr.walkOptional initializer (w.declare name)).define name
  | .funDecl function, w => function.walk .function (w.introduce function.name)
  | .classDecl name none methods, w =>
      w.inClass .base fun w =>
        (w.introduce name).inScopeOf .this (FunctionDecl.walkAll methods)
  | .classDecl name (some superclass) methods, w =>
      w.inClass .derived fun w =>
        let w := (w.introduce name).reportIf (superclass.name.lexeme == name.lexeme)
          .inheritsFromItself superclass.name
        ((Expr.variable superclass).walk w).inScopeOf .super fun w =>
          w.inScopeOf .this (FunctionDecl.walkAll methods)
  | .block body, w => w.inScope (Stmt.walkAll body)
  | .branch condition yes no, w => Stmt.walkOptional no (yes.walk (condition.walk w))
  | .loop condition body, w => body.walk (condition.walk w)
  | .ret keyword value, w =>
      let w := w.reportIf (w.function == .none) .returnAtTopLevel keyword
      let w := w.reportIf (value.isSome && w.function == .initializer)
        .returnValueFromInitializer keyword
      Expr.walkOptional value w

/-- Walk over a function or method, whose parameters and body share a scope. -/
def FunctionDecl.walk : FunctionDecl → FunctionContext → Walk → Walk
  | ⟨_, parameters, body⟩, context, w =>
      w.inFunction context fun w =>
        w.inScope fun w => Stmt.walkAll body (parameters.foldl Walk.introduce w)

/-- Walk over statements in order. -/
def Stmt.walkAll : List Stmt → Walk → Walk
  | [], w => w
  | s :: ss, w => Stmt.walkAll ss (s.walk w)

/-- Walk over the methods of a class. -/
def FunctionDecl.walkAll : List FunctionDecl → Walk → Walk
  | [], w => w
  | d :: ds, w => FunctionDecl.walkAll ds (d.walk (.ofMethod d.name) w)

/-- Walk over a statement that may be left out. -/
def Stmt.walkOptional : Option Stmt → Walk → Walk
  | none, w => w
  | some s, w => s.walk w

end

/-- Bind the references of a program, or report everything that breaks the
rules. -/
def resolve (program : List Stmt) : Except Failure BindingTable :=
  let w := Stmt.walkAll program .start
  match Failure.ofList? (w.errors.map .scoping) with
  | none => .ok (BindingTable.addAll ∅ w.found.reverse)
  | some failure => .error failure

end Lox
