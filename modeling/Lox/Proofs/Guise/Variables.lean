import Lox.Syntax

/-!
# The variables of a program

The references of a program to variables, be they read or assigned, and the names that
it declares: those of its variables, functions and classes and of all parameters. The
name of a superclass is a variable like any other; a method is found through its class
and has no name of this kind.
-/

namespace Lox

mutual

/-- The references to variables in an expression. -/
def Expr.variables : Expr → List Reference
  | .literal _ => []
  | .variable target => [target]
  | .receiver _ => []
  | .inherited _ _ => []
  | .grouping inner => inner.variables
  | .unary _ _ operand => operand.variables
  | .binary _ _ left right => left.variables ++ right.variables
  | .logical _ _ left right => left.variables ++ right.variables
  | .assign target value => target :: value.variables
  | .get object _ => object.variables
  | .set object _ value => object.variables ++ value.variables
  | .call callee _ arguments => callee.variables ++ Expr.variablesAll arguments

/-- The references to variables in expressions. -/
def Expr.variablesAll : List Expr → List Reference
  | [] => []
  | e :: es => e.variables ++ Expr.variablesAll es

end

/-- The references to variables in an expression that may be left out. -/
def Expr.variablesOptional (e : Option Expr) : List Reference :=
  e.elim [] Expr.variables

mutual

/-- The references to variables in a statement. -/
def Stmt.variables : Stmt → List Reference
  | .expression value => value.variables
  | .print value => value.variables
  | .varDecl _ initializer => Expr.variablesOptional initializer
  | .funDecl function => function.variables
  | .classDecl _ superclass methods => superclass.toList ++ FunctionDecl.variablesAll methods
  | .block body => Stmt.variablesAll body
  | .branch condition yes no =>
      condition.variables ++ (yes.variables ++ Stmt.variablesOptional no)
  | .loop condition body => condition.variables ++ body.variables
  | .ret _ value => Expr.variablesOptional value

/-- The references to variables in statements. -/
def Stmt.variablesAll : List Stmt → List Reference
  | [] => []
  | s :: ss => s.variables ++ Stmt.variablesAll ss

/-- The references to variables in a statement that may be left out. -/
def Stmt.variablesOptional : Option Stmt → List Reference
  | none => []
  | some s => s.variables

/-- The references to variables in a function. -/
def FunctionDecl.variables : FunctionDecl → List Reference
  | ⟨_, _, body⟩ => Stmt.variablesAll body

/-- The references to variables in functions. -/
def FunctionDecl.variablesAll : List FunctionDecl → List Reference
  | [] => []
  | d :: ds => d.variables ++ FunctionDecl.variablesAll ds

end

mutual

/-- The names that are declared in a statement, however far inside. -/
def Stmt.declarations : Stmt → List Token
  | .varDecl name _ => [name]
  | .funDecl function => function.name :: function.declarations
  | .classDecl name _ methods => name :: FunctionDecl.declarationsAll methods
  | .block body => Stmt.declarationsAll body
  | .branch _ yes no => yes.declarations ++ Stmt.declarationsOptional no
  | .loop _ body => body.declarations
  | _ => []

/-- The names that are declared in statements. -/
def Stmt.declarationsAll : List Stmt → List Token
  | [] => []
  | s :: ss => s.declarations ++ Stmt.declarationsAll ss

/-- The names that are declared in a statement that may be left out. -/
def Stmt.declarationsOptional : Option Stmt → List Token
  | none => []
  | some s => s.declarations

/-- The names that are declared in a function, its parameters among them. -/
def FunctionDecl.declarations : FunctionDecl → List Token
  | ⟨_, parameters, body⟩ => parameters ++ Stmt.declarationsAll body

/-- The names that are declared in methods. -/
def FunctionDecl.declarationsAll : List FunctionDecl → List Token
  | [] => []
  | d :: ds => d.declarations ++ FunctionDecl.declarationsAll ds

end

/-- Whether a name is none of those that a program refers to or declares. -/
structure Avoids (n : String) (references : List Reference) (names : List Token) : Prop where
  references : ∀ r ∈ references, r.name.lexeme ≠ n
  names : ∀ t ∈ names, t.lexeme ≠ n

namespace Avoids

variable {n : String} {rs rs' : List Reference} {ts ts' : List Token} {t : Token}

theorem left (h : Avoids n (rs ++ rs') (ts ++ ts')) : Avoids n rs ts :=
  ⟨fun r hr => h.references r (List.mem_append_left _ hr),
    fun t ht => h.names t (List.mem_append_left _ ht)⟩

theorem right (h : Avoids n (rs ++ rs') (ts ++ ts')) : Avoids n rs' ts' :=
  ⟨fun r hr => h.references r (List.mem_append_right _ hr),
    fun t ht => h.names t (List.mem_append_right _ ht)⟩

theorem tail (h : Avoids n rs (t :: ts)) : Avoids n rs ts :=
  ⟨h.references, fun t ht => h.names t (List.mem_cons_of_mem _ ht)⟩

/-- A condition declares nothing. -/
theorem behind (h : Avoids n (rs ++ rs') ts) : Avoids n rs' ts :=
  ⟨fun r hr => h.references r (List.mem_append_right _ hr), h.names⟩

end Avoids

end Lox
