import Lox.Token

/-!
# Diagnostics

Each stage of a program's life reports its own kind of cause at its own kind of
place: a line while characters are read, a token from then on. A cause says
what is wrong; its wording is in one `message` function per stage. A `Failure`
is what ends a step of a session: one diagnostic, or several that the same
stage collected.
-/

namespace Lox

/-- A cause and the token that is blamed for it. -/
structure Blame (Cause : Type) where
  cause : Cause
  token : Token
  deriving Repr

/-! ## Reading characters -/

/-- Why a source cannot be cut into tokens. -/
inductive LexicalCause where
  | unexpectedCharacter (c : Char)
  | unterminatedString
  deriving Repr, DecidableEq

/-- The wording of a lexical cause. -/
def LexicalCause.message : LexicalCause → String
  | unexpectedCharacter c => s!"Unexpected character: {c}"
  | unterminatedString => "Unterminated string."

/-- A lexical cause and the line on which it was noticed. -/
structure LexicalError where
  cause : LexicalCause
  line : Nat
  deriving Repr, DecidableEq

/-! ## Reading tokens -/

/-- The two kinds of declarations that have parameters and a body. -/
inductive CallableKind where
  | function
  | method
  deriving Repr, DecidableEq

/-- The noun for a kind of declaration. -/
def CallableKind.noun : CallableKind → String
  | function => "function"
  | method => "method"

/-- The part that a missing name would have played. -/
inductive NameRole where
  | cls
  | superclass
  | callable (kind : CallableKind)
  | parameter
  | variable
  | property
  | superclassMethod
  deriving Repr, DecidableEq

/-- The wording of a name's part. -/
def NameRole.text : NameRole → String
  | .cls => "class name"
  | .superclass => "superclass name"
  | .callable kind => s!"{kind.noun} name"
  | .parameter => "parameter name"
  | .variable => "variable name"
  | .property => "property name after '.'"
  | .superclassMethod => "superclass method name"

/-- The place at which a symbol is missing. -/
inductive SymbolPlace where
  | beforeClassBody
  | afterClassBody
  | afterCallableName (kind : CallableKind)
  | afterParameters
  | beforeCallableBody (kind : CallableKind)
  | afterVariableDeclaration
  | afterFor
  | afterLoopCondition
  | afterForClauses
  | afterIf
  | afterIfCondition
  | afterPrintedValue
  | afterReturnedValue
  | afterWhile
  | afterWhileCondition
  | afterExpression
  | afterBlock
  | afterArguments
  | afterSuper
  deriving Repr, DecidableEq

/-- The wording of a place. -/
def SymbolPlace.text : SymbolPlace → String
  | beforeClassBody => "before class body"
  | afterClassBody => "after class body"
  | afterCallableName kind => s!"after {kind.noun} name"
  | afterParameters => "after parameters"
  | beforeCallableBody kind => s!"before {kind.noun} body"
  | afterVariableDeclaration => "after variable declaration"
  | afterFor => "after 'for'"
  | afterLoopCondition => "after loop condition"
  | afterForClauses => "after for clauses"
  | afterIf => "after 'if'"
  | afterIfCondition => "after if condition"
  | afterPrintedValue => "after value"
  | afterReturnedValue => "after return value"
  | afterWhile => "after 'while'"
  | afterWhileCondition => "after condition"
  | afterExpression => "after expression"
  | afterBlock => "after block"
  | afterArguments => "after arguments"
  | afterSuper => "after 'super'"

/-- The longest parameter or argument list. -/
def maxArity : Nat := 8

/-- Why tokens do not form a program. -/
inductive SyntaxCause where
  | missingName (role : NameRole)
  | missingSymbol (symbol : Symbol) (place : SymbolPlace)
  | missingExpression
  | trailingInput
  | invalidAssignmentTarget
  | tooManyParameters
  | tooManyArguments
  | tooMuchNesting
  deriving Repr, DecidableEq

/-- The wording of a syntactic cause. -/
def SyntaxCause.message : SyntaxCause → String
  | missingName role => s!"Expect {role.text}."
  | missingSymbol symbol place => s!"Expect '{symbol.text}' {place.text}."
  | missingExpression => "Expect expression."
  | trailingInput => "Expect end of expression."
  | invalidAssignmentTarget => "Invalid assignment target."
  | tooManyParameters => s!"Cannot have more than {maxArity} parameters."
  | tooManyArguments => s!"Cannot have more than {maxArity} arguments."
  | tooMuchNesting => "Too much nesting."

/-- A syntactic cause and the token at which it was noticed. -/
abbrev SyntaxError := Blame SyntaxCause

/-! ## Binding names -/

/-- Why a well-formed program is refused before it runs. -/
inductive ScopingCause where
  | redeclaration
  | readInOwnInitializer
  | returnAtTopLevel
  | returnValueFromInitializer
  | thisOutsideClass
  | superOutsideClass
  | superWithoutSuperclass
  | inheritsFromItself
  deriving Repr, DecidableEq

/-- The wording of a scoping cause. -/
def ScopingCause.message : ScopingCause → String
  | redeclaration => "Variable with this name already declared in this scope."
  | readInOwnInitializer => "Cannot read local variable in its own initializer."
  | returnAtTopLevel => "Cannot return from top-level code."
  | returnValueFromInitializer => "Cannot return a value from an initializer."
  | thisOutsideClass => "Cannot use 'this' outside of a class."
  | superOutsideClass => "Cannot use 'super' outside of a class."
  | superWithoutSuperclass => "Cannot use 'super' in a class with no superclass."
  | inheritsFromItself => "A class cannot inherit from itself."

/-- A scoping cause and the token at which it was noticed. -/
abbrev ScopingError := Blame ScopingCause

/-! ## Running -/

/-- Why a running program stops. -/
inductive RuntimeCause where
  | undefinedVariable (name : String)
  | undefinedProperty (name : String)
  | superclassNotClass
  | operandNotNumber
  | operandsNotNumbers
  | operandsNotAddable
  | notCallable
  | wrongArgumentCount (expected actual : Nat)
  | callsTooDeep
  | propertyOfNonInstance
  | fieldOfNonInstance
  deriving Repr, DecidableEq

/-- The wording of a runtime cause. -/
def RuntimeCause.message : RuntimeCause → String
  | undefinedVariable name => s!"Undefined variable '{name}'."
  | undefinedProperty name => s!"Undefined property '{name}'."
  | superclassNotClass => "Superclass must be a class."
  | operandNotNumber => "Operand must be a number."
  | operandsNotNumbers => "Operands must be numbers."
  | operandsNotAddable => "Operands must be two numbers or two strings."
  | notCallable => "Can only call functions and classes."
  | wrongArgumentCount expected actual => s!"Expected {expected} arguments but got {actual}."
  | callsTooDeep => "Stack overflow."
  | propertyOfNonInstance => "Only instances have properties."
  | fieldOfNonInstance => "Only instances have fields."

/-- A runtime cause and the token that was being carried out. -/
abbrev RuntimeError := Blame RuntimeCause

/-- The name that a token spells is bound nowhere it may be looked up. -/
def RuntimeError.undefined (name : Token) : RuntimeError :=
  ⟨.undefinedVariable name.lexeme, name⟩

/-! ## Failures -/

/-- One complaint of one stage. -/
inductive Diagnostic where
  | lexical (error : LexicalError)
  | syntactic (error : SyntaxError)
  | scoping (error : ScopingError)
  | runtime (error : RuntimeError)
  deriving Repr

/-- A token as static diagnostics point at it. -/
def Token.location (t : Token) : String :=
  if t.isEnd then "at end" else s!"at '{t.lexeme}'"

namespace Diagnostic

/-- The line that a diagnostic points at. -/
def line : Diagnostic → Nat
  | lexical e => e.line
  | syntactic e => e.token.line
  | scoping e => e.token.line
  | runtime e => e.token.line

/-- The full text of a diagnostic. -/
def message : Diagnostic → String
  | lexical e => s!"[line {e.line}] Error: {e.cause.message}"
  | syntactic e => s!"[line {e.token.line}] Error {e.token.location}: {e.cause.message}"
  | scoping e => s!"[line {e.token.line}] Error {e.token.location}: {e.cause.message}"
  | runtime e => s!"{e.cause.message}\n[line {e.token.line}]"

/-- Whether the diagnostic comes from a stage before the program runs. -/
def isStatic : Diagnostic → Bool
  | runtime _ => false
  | _ => true

end Diagnostic

/-- What ends a step: one diagnostic, or those that one stage collected. -/
inductive Failure where
  | single (diagnostic : Diagnostic)
  | several (diagnostics : List Diagnostic)
  deriving Repr

namespace Failure

/-- The failure that collected diagnostics amount to: none if there are none,
and one alone is not wrapped. -/
def ofList? : List Diagnostic → Option Failure
  | [] => none
  | [d] => some (single d)
  | ds => some (several ds)

/-- The failure of a stage that gave up at `last` after collecting others. -/
def endingIn (last : Diagnostic) : List Diagnostic → Failure
  | [] => single last
  | earlier => several (earlier ++ [last])

/-- The diagnostics of a failure, in the order in which they are reported. -/
def diagnostics : Failure → List Diagnostic
  | single d => [d]
  | several ds => ds

/-- The line of the first diagnostic. -/
def line? (f : Failure) : Option Nat :=
  f.diagnostics.head?.map Diagnostic.line

/-- The full text of a failure, a diagnostic after the other. -/
def message (f : Failure) : String :=
  "\n".intercalate (f.diagnostics.map Diagnostic.message)

/-- Whether nothing has been run when the failure is reported. -/
def isStatic (f : Failure) : Bool :=
  f.diagnostics.all Diagnostic.isStatic

/-- The exit status of a program that ends in the failure: 70 once it was
running, 65 for input that was refused. -/
def exitCode : Failure → Nat
  | single (.runtime _) => 70
  | _ => 65

/-- The failure of reading characters. -/
def ofLexical (error : LexicalError) : Failure :=
  single (.lexical error)

/-- The failure of a running program. -/
def ofRuntime (error : RuntimeError) : Failure :=
  single (.runtime error)

end Failure

end Lox
