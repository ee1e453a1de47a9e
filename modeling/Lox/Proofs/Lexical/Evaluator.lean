import Lox.Session

/-!
# Evaluation by lexical scope

An evaluator that needs no table of references. The names in scope are a finite
map to cells; a declaration extends the map, and whatever opens a scope passes an
extended map inwards and keeps its own. A function captures the map in force at
its declaration. A name that the map does not have is global, and is looked up
when it is used.

## Implementation notes

Operators, functions, classes and instances are those of the machine, but the
scope number of a function means nothing here and is always zero: the map that a
function has captured is kept under its identity. A program may run for ever, so
there is a bound on how deep the evaluator may go, calls and turns of a loop
included; `none` stands for a run that goes deeper.
-/

namespace Lox

namespace Lexical

/-- The number of a cell. -/
abbrev CellRef := Nat

/-- The names in scope, with the cells of their values. -/
abbrev Env := NameMap CellRef

/-- What a running program can change. A cell is empty while the initializer of
its variable runs. -/
structure State where
  cells : Array (Option Value)
  globals : NameMap Value
  /-- The maps that functions have captured, by their identities. -/
  captured : List (Nat × Env)
  /-- Instances, and the next identity of a function or class. -/
  objects : Store
  output : String

/-- A computation that may fail at run time, and may go too deep. -/
abbrev Eval := ExceptT RuntimeError (StateT State Option)

namespace State

/-- The state before anything has run. -/
def initial : State :=
  ⟨#[], .empty, [], ⟨#[], #[], 0⟩, ""⟩

/-- The value of a name: in its cell, or among the globals. -/
def lookUp (s : State) (env : Env) (name : String) : Option Value :=
  match env.get? name with
  | some cell => s.cells[cell]?.join
  | none => s.globals.get? name

/-- The value of a name that has a cell. -/
def held (s : State) (env : Env) (name : String) : Option Value :=
  (env.get? name).bind fun cell => s.cells[cell]?.join

/-- Fill a cell. -/
def fill (s : State) (cell : CellRef) (value : Value) : State :=
  { s with cells := s.cells.setIfInBounds cell (some value) }

/-- Give a global name a value, whether or not it has one. -/
def setGlobal (s : State) (name : String) (value : Value) : State :=
  { s with globals := s.globals.insert name value }

/-- Make a cell. -/
def newCell (s : State) (value : Option Value) : CellRef × State :=
  (s.cells.size, { s with cells := s.cells.push value })

/-- Make a function that captures a map. -/
def newClosure (s : State) (decl : FunctionDecl) (env : Env) (isInitializer : Bool) :
    Closure × State :=
  let (closure, objects) := s.objects.newClosure decl 0 isInitializer
  (closure, { s with objects, captured := (closure.identity, env) :: s.captured })

/-- The map that a function has captured. -/
def envOf (s : State) (closure : Closure) : Env :=
  (s.captured.lookup closure.identity).getD .empty

end State

/-! ## Names -/

/-- Stop with an error at a token. -/
def fail {α : Type} (cause : RuntimeCause) (token : Token) : Eval α :=
  throw ⟨cause, token⟩

/-- Stop with an error at a token, or go on with a result. -/
def orFail {α : Type} (result : Except RuntimeCause α) (token : Token) : Eval α :=
  match result with
  | .ok a => return a
  | .error cause => fail cause token

/-- Extend a map by a new cell. -/
def bind (env : Env) (name : String) (value : Option Value) : Eval Env := do
  let cell ← modifyGet fun s => s.newCell value
  return env.insert name cell

/-- Extend a map by new cells for parameters. -/
def bindAll (env : Env) : List (Token × Value) → Eval Env
  | [] => return env
  | (name, value) :: rest => do
      let env ← bind env name.lexeme (some value)
      bindAll env rest

/-- Declare a name, for which there is no cell outside all scopes. -/
def declare (env : Option Env) (name : Token) : Eval (Option Env) :=
  match env with
  | none => return none
  | some env => some <$> bind env name.lexeme none

/-- Give a name its first value. -/
def define (env : Option Env) (name : Token) (value : Value) : Eval Unit :=
  modify fun s => match env.bind (·.get? name.lexeme) with
    | some cell => s.fill cell value
    | none => s.setGlobal name.lexeme value

/-- The value of a name. -/
def read (env : Option Env) (name : Token) : Eval Value := do
  match (← get).lookUp (env.getD .empty) name.lexeme with
  | some value => return value
  | none => fail (.undefinedVariable name.lexeme) name

/-- Replace the value of a name that has one. -/
def assign (env : Option Env) (name : Token) (value : Value) : Eval Unit := do
  match (← get).lookUp (env.getD .empty) name.lexeme with
  | some _ => define env name value
  | none => fail (.undefinedVariable name.lexeme) name

/-- The superclass and the receiver that are in scope. -/
def inheritance (env : Option Env) (target : Reference) : Eval (Class × InstanceRef) := do
  let s ← get
  match s.held (env.getD .empty) Keyword.super.text with
  | some (.cls c) =>
      match s.held (env.getD .empty) Keyword.this.text with
      | some (.object receiver) => return (c, receiver)
      | _ => fail (.undefinedVariable Keyword.this.text) target.name
  | _ => fail (.undefinedVariable Keyword.super.text) target.name

/-! ## Functions and classes -/

/-- Make a function in the scope of a map. -/
def capture (env : Env) (decl : FunctionDecl) (isInitializer : Bool) : Eval Closure :=
  modifyGet fun s => s.newClosure decl env isInitializer

/-- Make the methods of a class. -/
def captureAll (env : Env) : List FunctionDecl → Eval (List Closure)
  | [] => return []
  | d :: ds => do
      let closure ← capture env d (d.name.lexeme == initializerName)
      let closures ← captureAll env ds
      return closure :: closures

/-- The superclass that a class declaration refers to. -/
def superclassOf (env : Option Env) (superclass : Option Reference) : Eval (Option Class) :=
  match superclass with
  | none => return none
  | some target => do
      match ← read env target.name with
      | .cls c => return some c
      | _ => fail .superclassNotClass target.name

/-- Make a class whose methods see a map. -/
def makeClass (env : Env) (name : Token) (superclass : Option Class)
    (methods : List FunctionDecl) : Eval Class := do
  let closures ← captureAll env methods
  let identity ← modifyGet fun s =>
    let (identity, objects) := s.objects.newIdentity
    (identity, { s with objects })
  return ⟨identity, name.lexeme, superclass, closures⟩

/-- Make a class. The methods of a class with a superclass see it as `super`. -/
def newClass (env : Env) (name : Token) (superclass : Option Class)
    (methods : List FunctionDecl) : Eval Class :=
  match superclass with
  | none => makeClass env name none methods
  | some c => do
      let env ← bind env Keyword.super.text (some (.cls c))
      makeClass env name (some c) methods

/-- Bind a method to an instance, which it sees as `this`. -/
def bindMethod (method : Closure) (receiver : InstanceRef) : Eval Closure := do
  let env ← bind ((← get).envOf method) Keyword.this.text (some (.object receiver))
  capture env method.decl method.isInitializer

/-- The result of a function whose body has ended. -/
def bodyResult (closure : Closure) (flow : Flow) : Eval Value := do
  let s ← get
  if closure.isInitializer then
    return (s.held (s.envOf closure) Keyword.this.text).getD .nil
  else match flow with
    | .returned v => return v
    | .normal => return .nil

/-- Run the body of a function in the map that it has captured, extended by its
parameters. -/
def runBody (body : Env → List Stmt → Eval Flow) (closure : Closure) (arguments : List Value) :
    Eval Flow := do
  let env ← bindAll ((← get).envOf closure) (closure.decl.parameters.zip arguments)
  body env closure.decl.body

/-- Apply a function to arguments. -/
def apply (body : Env → List Stmt → Eval Flow) (closure : Closure) (arguments : List Value) :
    Eval Value := do
  let flow ← runBody body closure arguments
  bodyResult closure flow

/-- Make an instance, and run the initializer of its class if there is one. -/
def instantiate (body : Env → List Stmt → Eval Flow) (c : Class) (arguments : List Value) :
    Eval Value := do
  let object ← modifyGet fun s =>
    let (object, objects) := s.objects.newInstance c
    (object, { s with objects })
  match c.method? initializerName with
  | none => return .object object
  | some m =>
      let closure ← bindMethod m object
      let _ ← apply body closure arguments
      return .object object

/-- Call a value with arguments, `depth` calls being open. Fewer than `limit` may be. -/
def call (limit depth : Nat) (body : Env → List Stmt → Eval Flow) (callee : Value)
    (closing : Token) (arguments : List Value) : Eval Value :=
  match Machine.arity? callee with
  | none => fail .notCallable closing
  | some arity =>
      if arguments.length ≠ arity then
        fail (.wrongArgumentCount arity arguments.length) closing
      else if limit ≤ depth then fail .callsTooDeep closing
      else match callee with
        | .function closure => apply body closure arguments
        | .cls c => instantiate body c arguments
        | _ => fail .notCallable closing

/-! ## Expressions and statements -/

/-- Evaluate expressions in order. -/
def evalAll (eval : Expr → Eval Value) : List Expr → Eval (List Value)
  | [] => return []
  | e :: es => do
      let v ← eval e
      let vs ← evalAll eval es
      return v :: vs

/-- Execute statements in order, up to a `return`. -/
def execAll (exec : Option Env → Stmt → Eval (Flow × Option Env)) (env : Option Env) :
    List Stmt → Eval Flow
  | [] => return .normal
  | s :: ss => do
      match ← exec env s with
      | (.normal, env) => execAll exec env ss
      | (.returned v, _) => return .returned v

/-- Go too deep. -/
def tooDeep {α : Type} : Eval α :=
  ExceptT.mk fun _ => none

mutual

/-- Evaluate an expression, `depth` calls being open. -/
def eval (limit : Nat) : (fuel depth : Nat) → Option Env → Expr → Eval Value
  | 0, _, _, _ => tooDeep
  | fuel + 1, depth, env, e =>
      match e with
      | .literal v => return .ofLiteral v
      | .variable target => read env target.name
      | .receiver target => read env target.name
      | .inherited target method => do
          let (c, receiver) ← inheritance env target
          match c.method? method.lexeme with
          | some m => return .function (← bindMethod m receiver)
          | none => fail (.undefinedProperty method.lexeme) method
      | .grouping inner => eval limit fuel depth env inner
      | .unary op operator operand => do
          let v ← eval limit fuel depth env operand
          orFail (op.apply v) operator
      | .binary op operator left right => do
          let a ← eval limit fuel depth env left
          let b ← eval limit fuel depth env right
          orFail (op.apply a b) operator
      | .logical op _ left right => do
          let v ← eval limit fuel depth env left
          if op.isDecidedBy v then return v else eval limit fuel depth env right
      | .assign target value => do
          let v ← eval limit fuel depth env value
          assign env target.name v
          return v
      | .get object name => do
          match ← eval limit fuel depth env object with
          | .object object =>
              match (← get).objects.property? object name.lexeme with
              | some (.field v) => return v
              | some (.method m) => return .function (← bindMethod m object)
              | none => fail (.undefinedProperty name.lexeme) name
          | _ => fail .propertyOfNonInstance name
      | .set object name value => do
          match ← eval limit fuel depth env object with
          | .object object =>
              let v ← eval limit fuel depth env value
              modify fun s => { s with objects := s.objects.setField object name.lexeme v }
              return v
          | _ => fail .fieldOfNonInstance name
      | .call callee closing arguments => do
          let v ← eval limit fuel depth env callee
          let values ← evalAll (eval limit fuel depth env) arguments
          call limit depth (fun env => execAll (exec limit fuel (depth + 1)) (some env)) v closing
            values

/-- Execute a statement. The map is the one for the statements after it. -/
def exec (limit : Nat) : (fuel depth : Nat) → Option Env → Stmt → Eval (Flow × Option Env)
  | 0, _, _, _ => tooDeep
  | fuel + 1, depth, env, s =>
      match s with
      | .expression value => do
          let _ ← eval limit fuel depth env value
          return (.normal, env)
      | .print value => do
          let v ← eval limit fuel depth env value
          modify fun s => { s with output := s.output ++ s.objects.display v ++ "\n" }
          return (.normal, env)
      | .varDecl name initializer => do
          let inner ← declare env name
          let v ← match initializer with
            | none => pure .nil
            | some e => eval limit fuel depth inner e
          define inner name v
          return (.normal, inner)
      | .funDecl function => do
          let inner ← declare env function.name
          let closure ← capture (inner.getD .empty) function false
          define inner function.name (.function closure)
          return (.normal, inner)
      | .classDecl name superclass methods => do
          let inner ← declare env name
          define inner name .nil
          let parent ← superclassOf inner superclass
          let c ← newClass (inner.getD .empty) name parent methods
          define inner name (.cls c)
          return (.normal, inner)
      | .block body => do
          let flow ← execAll (exec limit fuel depth) (some (env.getD .empty)) body
          return (flow, env)
      | .branch condition yes no => do
          if (← eval limit fuel depth env condition).isTruthy then exec limit fuel depth env yes
          else match no with
            | none => return (.normal, env)
            | some no => exec limit fuel depth env no
      | .loop condition body => do
          if (← eval limit fuel depth env condition).isTruthy then
            match ← exec limit fuel depth env body with
            | (.normal, env) => exec limit fuel depth env (.loop condition body)
            | (.returned v, env) => return (.returned v, env)
          else return (.normal, env)
      | .ret _ none => return (.returned .nil, env)
      | .ret _ (some value) => do
          let v ← eval limit fuel depth env value
          return (.returned v, env)

end

/-! ## Sessions -/

/-- Run a program in a state. -/
def State.interpret (s : State) (limits : Limits) (program : List Stmt) :
    Option (Except RuntimeError Flow × State) :=
  (execAll (exec limits.calls limits.steps 0) none program).run s

/-- Evaluate an expression in a state. -/
def State.evaluate (s : State) (limits : Limits) (e : Expr) :
    Option (Except RuntimeError Value × State) :=
  (eval limits.calls limits.steps 0 none e).run s

/-- A session between two sources. -/
structure Session where
  state : State
  nextId : NodeId

namespace Session

/-- The session before its first source. -/
def fresh : Session :=
  ⟨.initial, 0⟩

/-- Run a program. It is resolved only to see whether it is accepted. -/
def run (s : Session) (limits : Limits) (source : String) :
    Option (Except Failure Unit × Session) :=
  match (lex source).toExcept with
  | .error e => some (.error (.ofLexical e), s)
  | .ok tokens =>
      let (parsed, nextId) := parseProgram tokens s.nextId
      match parsed with
      | .error failure => some (.error failure, { s with nextId })
      | .ok program =>
          match resolve program with
          | .error failure => some (.error failure, { s with nextId })
          | .ok _ =>
              (s.state.interpret limits program).map fun
                | (.ok _, state) => (.ok (), ⟨state, nextId⟩)
                | (.error e, state) => (.error (.ofRuntime e), ⟨state, nextId⟩)

/-- Evaluate a single expression, all of whose names are global. -/
def evaluate (s : Session) (limits : Limits) (source : String) :
    Option (Except Failure Value × Session) :=
  match (lex source).toExcept with
  | .error e => some (.error (.ofLexical e), s)
  | .ok tokens =>
      let (parsed, nextId) := parseExpression tokens s.nextId
      match parsed with
      | .error failure => some (.error failure, { s with nextId })
      | .ok e =>
          (s.state.evaluate limits e).map fun
            | (.ok v, state) => (.ok v, ⟨state, nextId⟩)
            | (.error e, state) => (.error (.ofRuntime e), ⟨state, nextId⟩)

end Session

end Lexical

end Lox
