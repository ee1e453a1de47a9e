import Lox.Operator
import Lox.Scoping
import Lox.Store

/-!
# Running programs

A machine that takes a program apart step by step. Its `Task` is what to do
next, with a continuation `Cont` that says what happens to the outcome; its
`State` is everything else. An expression yields a value. A statement yields a
`Flow`: it falls through, or a `return` is on its way to the call that it ends.
An error ends the run at once, and puts back what the open calls and blocks
had changed.

## Implementation notes

Continuations are data, so the depth of calls is limited by `maxCalls` and by
nothing else. They are indexed by what they await, and by what the whole run
yields, so that no step can be stuck.
-/

namespace Lox

/-- How a statement ends, if not by an error. -/
inductive Flow where
  | normal
  | returned (value : Value)

/-- What carrying out a piece of program yields. -/
inductive Yield where
  | value
  | flow
  deriving Repr, DecidableEq

/-- The outcomes of a kind. -/
@[reducible] def Yield.Outcome : Yield → Type
  | .value => Value
  | .flow => Flow

/-- What happens to the outcome of a task in a run that yields a `goal`. -/
inductive Cont (goal : Yield) : Yield → Type where
  /-- It is the outcome of the run. -/
  | halt : Cont goal goal
  -- Values that expressions await
  | unary (op : UnaryOp) (operator : Token) (k : Cont goal .value) : Cont goal .value
  | binaryLeft (op : BinaryOp) (operator : Token) (right : Expr) (k : Cont goal .value) :
      Cont goal .value
  | binaryRight (op : BinaryOp) (operator : Token) (left : Value) (k : Cont goal .value) :
      Cont goal .value
  | logical (op : LogicalOp) (right : Expr) (k : Cont goal .value) : Cont goal .value
  | assign (target : Reference) (k : Cont goal .value) : Cont goal .value
  | get (name : Token) (k : Cont goal .value) : Cont goal .value
  | setObject (name : Token) (value : Expr) (k : Cont goal .value) : Cont goal .value
  | setValue (object : InstanceRef) (name : Token) (k : Cont goal .value) : Cont goal .value
  | callee (closing : Token) (arguments : List Expr) (k : Cont goal .value) : Cont goal .value
  /-- An argument, after those `done`, the latest first. -/
  | argument (callee : Value) (closing : Token) (done : List Value) (rest : List Expr)
      (k : Cont goal .value) : Cont goal .value
  /-- The result of an initializer, which the new instance replaces. -/
  | construct (object : InstanceRef) (k : Cont goal .value) : Cont goal .value
  /-- The result of a call, which is then over. -/
  | endCall (k : Cont goal .value) : Cont goal .value
  -- Values that statements await
  | discard (k : Cont goal .flow) : Cont goal .value
  | print (k : Cont goal .flow) : Cont goal .value
  | define (name : Token) (k : Cont goal .flow) : Cont goal .value
  | ret (k : Cont goal .flow) : Cont goal .value
  | branch (yes : Stmt) (no : Option Stmt) (k : Cont goal .flow) : Cont goal .value
  | loopTest (condition : Expr) (body : Stmt) (k : Cont goal .flow) : Cont goal .value
  | superclass (name : Token) (reference : Reference) (methods : List FunctionDecl)
      (k : Cont goal .flow) : Cont goal .value
  -- Flows
  | sequence (rest : List Stmt) (k : Cont goal .flow) : Cont goal .flow
  | leaveScope (outer : ScopeRef) (k : Cont goal .flow) : Cont goal .flow
  | loopBody (condition : Expr) (body : Stmt) (k : Cont goal .flow) : Cont goal .flow
  | endBody (closure : Closure) (k : Cont goal .value) : Cont goal .flow

/-- What to do next. -/
inductive Task (goal : Yield) where
  | eval (e : Expr) (k : Cont goal .value)
  | exec (s : Stmt) (k : Cont goal .flow)
  | value (v : Value) (k : Cont goal .value)
  | flow (f : Flow) (k : Cont goal .flow)

/-- What a machine keeps between tasks: the store, the scope that it is in,
what is known about references, the number of open calls, and what has been
printed. -/
structure State where
  store : Store
  current : ScopeRef
  table : BindingTable
  calls : Nat
  output : String

namespace State

/-- The state before anything has run. -/
def initial : State :=
  ⟨.initial, Store.globals, ∅, 0, ""⟩

/-- Print a line. -/
def print (st : State) (text : String) : State :=
  { st with output := st.output ++ text ++ "\n" }

/-- Give a name a value in the current scope. -/
def define (st : State) (name : Token) (value : Value) : State :=
  { st with store := st.store.define st.current name.lexeme value }

/-- Go into a new scope that holds some values. -/
def enter (st : State) (bindings : NameMap Value) (enclosing : ScopeRef) : State :=
  let (scope, store) := st.store.newScope bindings (some enclosing)
  { st with store, current := scope }

/-- The scope that has the name of a reference: exactly as far out as the table
says, or among the globals if the table says nothing. -/
def owner? (st : State) (target : Reference) : Option ScopeRef :=
  match st.table.distance? target.id with
  | some distance => st.store.ownerAt? st.current distance target.name.lexeme
  | none => st.store.owner? Store.globals target.name.lexeme

/-- The value of a reference. -/
def read (st : State) (target : Reference) : Option Value :=
  (st.owner? target).bind fun scope => st.store.local? scope target.name.lexeme

/-- Replace the value that a scope has for a name. -/
def write (st : State) (scope : ScopeRef) (name : Token) (value : Value) : State :=
  { st with store := st.store.define scope name.lexeme value }

/-- Declare a function in the current scope. -/
def defineFunction (st : State) (decl : FunctionDecl) : State :=
  let (closure, store) := st.store.newClosure decl st.current false
  { st with store }.define decl.name (.function closure)

/-- Make the closures of a class's methods around one scope. -/
def newMethods (store : Store) (scope : ScopeRef) : List FunctionDecl → List Closure × Store
  | [] => ([], store)
  | d :: ds =>
      let (closure, store) := store.newClosure d scope (d.name.lexeme == initializerName)
      let (closures, store) := newMethods store scope ds
      (closure :: closures, store)

/-- Make a class. The methods of a class with a superclass are in a scope that
holds the superclass. -/
def newClass (st : State) (name : Token) (superclass : Option Class)
    (methods : List FunctionDecl) : Class × State :=
  let (scope, store) := match superclass with
    | none => (st.current, st.store)
    | some c =>
        st.store.newScope (NameMap.empty.insert Keyword.super.text (.cls c)) (some st.current)
  let (closures, store) := newMethods store scope methods
  let (identity, store) := store.newIdentity
  (⟨identity, name.lexeme, superclass, closures⟩, { st with store })

/-- A method bound to an instance, as a value. -/
def bind (st : State) (method : Closure) (receiver : InstanceRef) : Value × State :=
  let (bound, store) := st.store.bindMethod method receiver
  (.function bound, { st with store })

/-- The superclass and the receiver of the method that is running. The scope of
the receiver lies directly inside the one of the superclass. -/
def inheritance (st : State) (target : Reference) : Except RuntimeCause (Class × InstanceRef) :=
  match st.table.distance? target.id with
  | none => .error (.undefinedVariable Keyword.super.text)
  | some distance =>
      match st.store.getAt? st.current distance Keyword.super.text with
      | some (.cls c) =>
          match distance with
          | 0 => .error (.undefinedVariable Keyword.this.text)
          | inner + 1 =>
              match st.store.getAt? st.current inner Keyword.this.text with
              | some (.object receiver) => .ok (c, receiver)
              | _ => .error (.undefinedVariable Keyword.this.text)
      | _ => .error (.undefinedVariable Keyword.super.text)

end State

/-- Undo what a continuation would have undone on the way out of its calls and
scopes. -/
def Cont.unwind {goal y : Yield} : Cont goal y → State → State
  | .halt, st => st
  | .unary _ _ k, st => k.unwind st
  | .binaryLeft _ _ _ k, st => k.unwind st
  | .binaryRight _ _ _ k, st => k.unwind st
  | .logical _ _ k, st => k.unwind st
  | .assign _ k, st => k.unwind st
  | .get _ k, st => k.unwind st
  | .setObject _ _ k, st => k.unwind st
  | .setValue _ _ k, st => k.unwind st
  | .callee _ _ k, st => k.unwind st
  | .argument _ _ _ _ k, st => k.unwind st
  | .construct _ k, st => k.unwind st
  | .endCall k, st => k.unwind { st with calls := st.calls - 1 }
  | .discard k, st => k.unwind st
  | .print k, st => k.unwind st
  | .define _ k, st => k.unwind st
  | .ret k, st => k.unwind st
  | .branch _ _ k, st => k.unwind st
  | .loopTest _ _ k, st => k.unwind st
  | .superclass _ _ _ k, st => k.unwind st
  | .sequence _ k, st => k.unwind st
  | .leaveScope outer k, st => k.unwind { st with current := outer }
  | .loopBody _ _ k, st => k.unwind st
  | .endBody _ k, st => k.unwind st

/-! ## Steps -/

/-- What a step leads to: another task, or the end of the run. -/
inductive Step (goal : Yield) where
  | next (task : Task goal) (state : State)
  | done (outcome : goal.Outcome) (state : State)
  | failed (error : RuntimeError) (state : State)

namespace Machine

/-- The deepest nesting of calls that is carried out. -/
def maxCalls : Nat := 4096

variable {goal : Yield}

/-- Stop with an error at a token. -/
def fail {y : Yield} (cause : RuntimeCause) (token : Token) (k : Cont goal y) (st : State) :
    Step goal :=
  .failed ⟨cause, token⟩ (k.unwind st)

/-- Go on with a value, or stop because a name has none. -/
def yieldFound (found : Option Value) (name : Token) (k : Cont goal .value) (st : State) :
    Step goal :=
  match found with
  | some v => .next (.value v k) st
  | none => fail (.undefinedVariable name.lexeme) name k st

/-- Go on with the result of an operator, or stop at it. -/
def yieldResult (result : Except RuntimeCause Value) (operator : Token) (k : Cont goal .value)
    (st : State) : Step goal :=
  match result with
  | .ok v => .next (.value v k) st
  | .error cause => fail cause operator k st

/-- Run the body of a function in a scope of its parameters. -/
def enterBody (closure : Closure) (arguments : List Value) (k : Cont goal .value) (st : State) :
    Step goal :=
  let bindings := (closure.decl.parameters.zip arguments).foldl
    (fun bindings p => bindings.insert p.1.lexeme p.2) NameMap.empty
  .next (.flow .normal (.sequence closure.decl.body (.leaveScope st.current (.endBody closure k))))
    (st.enter bindings closure.scope)

/-- Make an instance, and run the initializer of its class if there is one. -/
def instantiate (c : Class) (arguments : List Value) (k : Cont goal .value) (st : State) :
    Step goal :=
  let (object, store) := st.store.newInstance c
  match c.method? initializerName with
  | none => .next (.value (.object object) k) { st with store }
  | some method =>
      let (bound, store) := store.bindMethod method object
      enterBody bound arguments (.construct object k) { st with store }

/-- The number of arguments that a value takes, if it can be called. -/
def arity? : Value → Option Nat
  | .function closure => some closure.arity
  | .cls c => some ((c.method? initializerName).elim 0 Closure.arity)
  | _ => none

/-- Call a value with arguments. Fewer than `limit` calls may be open. -/
def call (limit : Nat) (callee : Value) (closing : Token) (arguments : List Value)
    (k : Cont goal .value) (st : State) : Step goal :=
  match arity? callee with
  | none => fail .notCallable closing k st
  | some arity =>
      if arguments.length ≠ arity then
        fail (.wrongArgumentCount arity arguments.length) closing k st
      else if limit ≤ st.calls then fail .callsTooDeep closing k st
      else
        let st := { st with calls := st.calls + 1 }
        match callee with
        | .function closure => enterBody closure arguments (.endCall k) st
        | .cls c => instantiate c arguments (.endCall k) st
        | _ => fail .notCallable closing k st

/-- The result of a function whose body has ended. An initializer always
results in its receiver. -/
def bodyResult (closure : Closure) (f : Flow) (st : State) : Value :=
  if closure.isInitializer then
    (st.store.local? closure.scope Keyword.this.text).getD .nil
  else match f with
    | .returned v => v
    | .normal => .nil

/-- Make a class and assign it to its name, which has to be bound already. -/
def defineClass (name : Token) (superclass : Option Class) (methods : List FunctionDecl)
    (k : Cont goal .flow) (st : State) : Step goal :=
  match st.store.owner? st.current name.lexeme with
  | none => fail (.undefinedVariable name.lexeme) name k st
  | some scope =>
      let (c, st) := st.newClass name superclass methods
      .next (.flow .normal k) (st.write scope name (.cls c))

/-- Begin to evaluate an expression. -/
def eval (e : Expr) (k : Cont goal .value) (st : State) : Step goal :=
  match e with
  | .literal v => .next (.value (.ofLiteral v) k) st
  | .variable target => yieldFound (st.read target) target.name k st
  | .receiver target => yieldFound (st.read target) target.name k st
  | .inherited target method =>
      match st.inheritance target with
      | .error cause => fail cause target.name k st
      | .ok (c, receiver) =>
          match c.method? method.lexeme with
          | none => fail (.undefinedProperty method.lexeme) method k st
          | some m =>
              let (bound, st) := st.bind m receiver
              .next (.value bound k) st
  | .grouping inner => .next (.eval inner k) st
  | .unary op operator operand => .next (.eval operand (.unary op operator k)) st
  | .binary op operator left right => .next (.eval left (.binaryLeft op operator right k)) st
  | .logical op _ left right => .next (.eval left (.logical op right k)) st
  | .assign target value => .next (.eval value (.assign target k)) st
  | .get object name => .next (.eval object (.get name k)) st
  | .set object name value => .next (.eval object (.setObject name value k)) st
  | .call callee closing arguments => .next (.eval callee (.callee closing arguments k)) st

/-- Begin to execute a statement. The name of a class is bound before its
superclass is evaluated. -/
def exec (s : Stmt) (k : Cont goal .flow) (st : State) : Step goal :=
  match s with
  | .expression value => .next (.eval value (.discard k)) st
  | .print value => .next (.eval value (.print k)) st
  | .varDecl name none => .next (.flow .normal k) (st.define name .nil)
  | .varDecl name (some initializer) => .next (.eval initializer (.define name k)) st
  | .funDecl function => .next (.flow .normal k) (st.defineFunction function)
  | .classDecl name superclass methods =>
      let st := st.define name .nil
      match superclass with
      | some reference =>
          .next (.eval (.variable reference) (.superclass name reference methods k)) st
      | none => defineClass name none methods k st
  | .block body =>
      .next (.flow .normal (.sequence body (.leaveScope st.current k)))
        (st.enter .empty st.current)
  | .branch condition yes no => .next (.eval condition (.branch yes no k)) st
  | .loop condition body => .next (.eval condition (.loopTest condition body k)) st
  | .ret _ none => .next (.flow (.returned .nil) k) st
  | .ret _ (some value) => .next (.eval value (.ret k)) st

/-- Go on with a value. -/
def resume (limit : Nat) (v : Value) (k : Cont goal .value) (st : State) : Step goal :=
  match goal, k with
  | _, .halt => .done v st
  | _, .unary op operator k => yieldResult (op.apply v) operator k st
  | _, .binaryLeft op operator right k => .next (.eval right (.binaryRight op operator v k)) st
  | _, .binaryRight op operator left k => yieldResult (op.apply left v) operator k st
  | _, .logical op right k =>
      if op.isDecidedBy v then .next (.value v k) st else .next (.eval right k) st
  | _, .assign target k =>
      match st.owner? target with
      | some scope => .next (.value v k) (st.write scope target.name v)
      | none => fail (.undefinedVariable target.name.lexeme) target.name k st
  | _, .get name k =>
      match v with
      | .object object =>
          match st.store.property? object name.lexeme with
          | some (.field found) => .next (.value found k) st
          | some (.method m) =>
              let (bound, st) := st.bind m object
              .next (.value bound k) st
          | none => fail (.undefinedProperty name.lexeme) name k st
      | _ => fail .propertyOfNonInstance name k st
  | _, .setObject name value k =>
      match v with
      | .object object => .next (.eval value (.setValue object name k)) st
      | _ => fail .fieldOfNonInstance name k st
  | _, .setValue object name k =>
      .next (.value v k) { st with store := st.store.setField object name.lexeme v }
  | _, .callee closing [] k => call limit v closing [] k st
  | _, .callee closing (first :: rest) k => .next (.eval first (.argument v closing [] rest k)) st
  | _, .argument callee closing done [] k => call limit callee closing (v :: done).reverse k st
  | _, .argument callee closing done (next :: rest) k =>
      .next (.eval next (.argument callee closing (v :: done) rest k)) st
  | _, .construct object k => .next (.value (.object object) k) st
  | _, .endCall k => .next (.value v k) { st with calls := st.calls - 1 }
  | _, .discard k => .next (.flow .normal k) st
  | _, .print k => .next (.flow .normal k) (st.print (st.store.display v))
  | _, .define name k => .next (.flow .normal k) (st.define name v)
  | _, .ret k => .next (.flow (.returned v) k) st
  | _, .branch yes no k =>
      if v.isTruthy then .next (.exec yes k) st
      else match no with
        | some no => .next (.exec no k) st
        | none => .next (.flow .normal k) st
  | _, .loopTest condition body k =>
      if v.isTruthy then .next (.exec body (.loopBody condition body k)) st
      else .next (.flow .normal k) st
  | _, .superclass name reference methods k =>
      match v with
      | .cls c => defineClass name (some c) methods k st
      | _ => fail .superclassNotClass reference.name k st

/-- Go on after a statement. -/
def proceed (f : Flow) (k : Cont goal .flow) (st : State) : Step goal :=
  match goal, k with
  | _, .halt => .done f st
  | _, .sequence [] k => .next (.flow f k) st
  | _, .sequence (first :: rest) k =>
      match f with
      | .normal => .next (.exec first (.sequence rest k)) st
      | .returned _ => .next (.flow f k) st
  | _, .leaveScope outer k => .next (.flow f k) { st with current := outer }
  | _, .loopBody condition body k =>
      match f with
      | .normal => .next (.eval condition (.loopTest condition body k)) st
      | .returned _ => .next (.flow f k) st
  | _, .endBody closure k => .next (.value (bodyResult closure f st) k) st

/-- Carry out one task. -/
def step (limit : Nat) (task : Task goal) (st : State) : Step goal :=
  match task with
  | .eval e k => eval e k st
  | .exec s k => exec s k st
  | .value v k => resume limit v k st
  | .flow f k => proceed f k st

/-- Carry out tasks until the run ends, at most `fuel` of them. -/
def run (limit : Nat) : (fuel : Nat) → Task goal → State →
    Option (Except RuntimeError goal.Outcome × State)
  | 0, _, _ => none
  | fuel + 1, task, st =>
      match step limit task st with
      | .next task st => run limit fuel task st
      | .done outcome st => some (.ok outcome, st)
      | .failed error st => some (.error error, st)

/-- The task of running a program. -/
def program (statements : List Stmt) : Task .flow :=
  .flow .normal (.sequence statements .halt)

/-- The task of evaluating an expression. -/
def expression (e : Expr) : Task .value :=
  .eval e .halt

end Machine

end Lox
