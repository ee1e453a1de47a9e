import Lox.Machine

/-!
# The rules of the machine

What a step can do. Most steps take a task apart and leave the state as it is. Others declare
or assign a name, bind a method, print, or go into a scope or a call and out of it again. The
rest end the run, at its end or with an error.

## Implementation notes

A rule says all that it asks of the task and the state, so that nothing about steps has to find
out again which way a step goes: what all rules keep, all steps keep. The rules that leave the
state as it is are a relation of their own. Most of what is kept does not tell them apart.
-/

namespace Lox

variable {goal : Yield}

/-! ## The way out -/

@[simp] theorem Cont.store_unwind {y : Yield} (k : Cont goal y) (st : State) :
    (k.unwind st).store = st.store := by
  induction k generalizing st with
  | halt => rfl
  | _ => rename_i ih; exact ih _

@[simp] theorem Cont.table_unwind {y : Yield} (k : Cont goal y) (st : State) :
    (k.unwind st).table = st.table := by
  induction k generalizing st with
  | halt => rfl
  | _ => rename_i ih; exact ih _

@[simp] theorem Cont.output_unwind {y : Yield} (k : Cont goal y) (st : State) :
    (k.unwind st).output = st.output := by
  induction k generalizing st with
  | halt => rfl
  | _ => rename_i ih; exact ih _

namespace Task

/-- Go on with an outcome. -/
def receive : (y : Yield) → y.Outcome → Cont goal y → Task goal
  | .value, v, k => .value v k
  | .flow, f, k => .flow f k

/-- Undo what the rest of a task would have undone on the way out. -/
def unwind : Task goal → State → State
  | .eval _ k, st => k.unwind st
  | .exec _ k, st => k.unwind st
  | .value _ k, st => k.unwind st
  | .flow _ k, st => k.unwind st

@[simp] theorem store_unwind (task : Task goal) (st : State) : (task.unwind st).store = st.store := by
  cases task <;> exact Cont.store_unwind _ st

@[simp] theorem table_unwind (task : Task goal) (st : State) : (task.unwind st).table = st.table := by
  cases task <;> exact Cont.table_unwind _ st

@[simp] theorem output_unwind (task : Task goal) (st : State) :
    (task.unwind st).output = st.output := by
  cases task <;> exact Cont.output_unwind _ st

/-! ## Rules -/

/-- Whether a task is to call a value, with its arguments all evaluated. -/
inductive Calls : Task goal → Value → Token → List Value → Cont goal .value → Prop
  | plain (called : Value) (closing : Token) (k : Cont goal .value) :
      Calls (.value called (.callee closing [] k)) called closing [] k
  | last (v called : Value) (closing : Token) (done : List Value) (k : Cont goal .value) :
      Calls (.value v (.argument called closing done [] k)) called closing (v :: done).reverse k

variable {task task' : Task goal} {called : Value} {closing : Token} {arguments : List Value}
  {k : Cont goal .value} {limit : Nat} {st : State}

theorem Calls.step_eq (h : task.Calls called closing arguments k) (limit : Nat) (st : State) :
    Machine.step limit task st = Machine.call limit called closing arguments k st := by
  cases h <;> rfl

theorem Calls.unwind_eq (h : task.Calls called closing arguments k) (st : State) :
    task.unwind st = k.unwind st := by
  cases h <;> rfl

theorem exists_calls (called : Value) (closing : Token) (arguments : List Value)
    (k : Cont goal .value) : ∃ task : Task goal, task.Calls called closing arguments k := by
  obtain rfl | ⟨others, last, rfl⟩ := arguments.eq_nil_or_concat
  · exact ⟨_, .plain called closing k⟩
  · have hlast := Calls.last last called closing others.reverse k
    rw [List.reverse_cons, List.reverse_reverse, ← List.concat_eq_append] at hlast
    exact ⟨_, hlast⟩

/-- The rules that leave the state as it is, and the task that comes next. -/
inductive Unfolds (st : State) : Task goal → Task goal → Prop
  -- Expressions
  | literal (v : Literal) (k : Cont goal .value) :
      Unfolds st (.eval (.literal v) k) (.value (.ofLiteral v) k)
  | «variable» {target : Reference} {v : Value} (k : Cont goal .value)
      (h : st.read target = some v) : Unfolds st (.eval (.variable target) k) (.value v k)
  | receiver {target : Reference} {v : Value} (k : Cont goal .value)
      (h : st.read target = some v) : Unfolds st (.eval (.receiver target) k) (.value v k)
  | grouping (inner : Expr) (k : Cont goal .value) :
      Unfolds st (.eval (.grouping inner) k) (.eval inner k)
  | unary (op : UnaryOp) (operator : Token) (operand : Expr) (k : Cont goal .value) :
      Unfolds st (.eval (.unary op operator operand) k) (.eval operand (.unary op operator k))
  | binary (op : BinaryOp) (operator : Token) (left right : Expr) (k : Cont goal .value) :
      Unfolds st (.eval (.binary op operator left right) k)
        (.eval left (.binaryLeft op operator right k))
  | logical (op : LogicalOp) (operator : Token) (left right : Expr) (k : Cont goal .value) :
      Unfolds st (.eval (.logical op operator left right) k) (.eval left (.logical op right k))
  | assign (target : Reference) (value : Expr) (k : Cont goal .value) :
      Unfolds st (.eval (.assign target value) k) (.eval value (.assign target k))
  | get (object : Expr) (name : Token) (k : Cont goal .value) :
      Unfolds st (.eval (.get object name) k) (.eval object (.get name k))
  | set (object : Expr) (name : Token) (value : Expr) (k : Cont goal .value) :
      Unfolds st (.eval (.set object name value) k) (.eval object (.setObject name value k))
  | call (callee : Expr) (closing : Token) (arguments : List Expr) (k : Cont goal .value) :
      Unfolds st (.eval (.call callee closing arguments) k)
        (.eval callee (.callee closing arguments k))
  -- Statements
  | expression (value : Expr) (k : Cont goal .flow) :
      Unfolds st (.exec (.expression value) k) (.eval value (.discard k))
  | print (value : Expr) (k : Cont goal .flow) :
      Unfolds st (.exec (.print value) k) (.eval value (.print k))
  | varDecl (name : Token) (initializer : Expr) (k : Cont goal .flow) :
      Unfolds st (.exec (.varDecl name (some initializer)) k) (.eval initializer (.define name k))
  | branch (condition : Expr) (yes : Stmt) (no : Option Stmt) (k : Cont goal .flow) :
      Unfolds st (.exec (.branch condition yes no) k) (.eval condition (.branch yes no k))
  | loop (condition : Expr) (body : Stmt) (k : Cont goal .flow) :
      Unfolds st (.exec (.loop condition body) k) (.eval condition (.loopTest condition body k))
  | ret (keyword : Token) (value : Expr) (k : Cont goal .flow) :
      Unfolds st (.exec (.ret keyword (some value)) k) (.eval value (.ret k))
  | retNothing (keyword : Token) (k : Cont goal .flow) :
      Unfolds st (.exec (.ret keyword none) k) (.flow (.returned .nil) k)
  -- Values
  | operated {op : UnaryOp} {operator : Token} {v w : Value} (k : Cont goal .value)
      (h : op.apply v = .ok w) : Unfolds st (.value v (.unary op operator k)) (.value w k)
  | left (op : BinaryOp) (operator : Token) (right : Expr) (v : Value) (k : Cont goal .value) :
      Unfolds st (.value v (.binaryLeft op operator right k))
        (.eval right (.binaryRight op operator v k))
  | combined {op : BinaryOp} {operator : Token} {left v w : Value} (k : Cont goal .value)
      (h : op.apply left v = .ok w) :
      Unfolds st (.value v (.binaryRight op operator left k)) (.value w k)
  | decided {op : LogicalOp} {v : Value} (right : Expr) (k : Cont goal .value)
      (h : op.isDecidedBy v = true) : Unfolds st (.value v (.logical op right k)) (.value v k)
  | undecided {op : LogicalOp} {v : Value} (right : Expr) (k : Cont goal .value)
      (h : op.isDecidedBy v = false) : Unfolds st (.value v (.logical op right k)) (.eval right k)
  | field {object : InstanceRef} {name : Token} {v : Value} (k : Cont goal .value)
      (h : st.store.property? object name.lexeme = some (.field v)) :
      Unfolds st (.value (.object object) (.get name k)) (.value v k)
  | object (object : InstanceRef) (name : Token) (value : Expr) (k : Cont goal .value) :
      Unfolds st (.value (.object object) (.setObject name value k))
        (.eval value (.setValue object name k))
  | callee (v : Value) (closing : Token) (first : Expr) (rest : List Expr) (k : Cont goal .value) :
      Unfolds st (.value v (.callee closing (first :: rest) k))
        (.eval first (.argument v closing [] rest k))
  | argument (v called : Value) (closing : Token) (done : List Value) (next : Expr)
      (rest : List Expr) (k : Cont goal .value) :
      Unfolds st (.value v (.argument called closing done (next :: rest) k))
        (.eval next (.argument called closing (v :: done) rest k))
  | constructed (v : Value) (object : InstanceRef) (k : Cont goal .value) :
      Unfolds st (.value v (.construct object k)) (.value (.object object) k)
  | discarded (v : Value) (k : Cont goal .flow) :
      Unfolds st (.value v (.discard k)) (.flow .normal k)
  | returned (v : Value) (k : Cont goal .flow) :
      Unfolds st (.value v (.ret k)) (.flow (.returned v) k)
  | yes {v : Value} (yes : Stmt) (no : Option Stmt) (k : Cont goal .flow)
      (h : v.isTruthy = true) : Unfolds st (.value v (.branch yes no k)) (.exec yes k)
  | no {v : Value} (yes no : Stmt) (k : Cont goal .flow) (h : v.isTruthy = false) :
      Unfolds st (.value v (.branch yes (some no) k)) (.exec no k)
  | neither {v : Value} (yes : Stmt) (k : Cont goal .flow) (h : v.isTruthy = false) :
      Unfolds st (.value v (.branch yes none k)) (.flow .normal k)
  | goesRound {v : Value} (condition : Expr) (body : Stmt) (k : Cont goal .flow)
      (h : v.isTruthy = true) :
      Unfolds st (.value v (.loopTest condition body k)) (.exec body (.loopBody condition body k))
  | isOver {v : Value} (condition : Expr) (body : Stmt) (k : Cont goal .flow)
      (h : v.isTruthy = false) :
      Unfolds st (.value v (.loopTest condition body k)) (.flow .normal k)
  -- Flows
  | finished (f : Flow) (k : Cont goal .flow) : Unfolds st (.flow f (.sequence [] k)) (.flow f k)
  | first (s : Stmt) (rest : List Stmt) (k : Cont goal .flow) :
      Unfolds st (.flow .normal (.sequence (s :: rest) k)) (.exec s (.sequence rest k))
  | skipped (v : Value) (s : Stmt) (rest : List Stmt) (k : Cont goal .flow) :
      Unfolds st (.flow (.returned v) (.sequence (s :: rest) k)) (.flow (.returned v) k)
  | tests (condition : Expr) (body : Stmt) (k : Cont goal .flow) :
      Unfolds st (.flow .normal (.loopBody condition body k))
        (.eval condition (.loopTest condition body k))
  | leavesLoop (v : Value) (condition : Expr) (body : Stmt) (k : Cont goal .flow) :
      Unfolds st (.flow (.returned v) (.loopBody condition body k)) (.flow (.returned v) k)
  | results (f : Flow) (closure : Closure) (k : Cont goal .value) :
      Unfolds st (.flow f (.endBody closure k)) (.value (Machine.bodyResult closure f st) k)

/-- The rules by which a task fails as it is carried out in a state, and why and where. -/
inductive Fails (limit : Nat) (st : State) : Task goal → RuntimeCause → Token → Prop
  | «variable» (target : Reference) (k : Cont goal .value) (h : st.read target = none) :
      Fails limit st (.eval (.variable target) k) (.undefinedVariable target.name.lexeme)
        target.name
  | receiver (target : Reference) (k : Cont goal .value) (h : st.read target = none) :
      Fails limit st (.eval (.receiver target) k) (.undefinedVariable target.name.lexeme)
        target.name
  | inherited (target : Reference) (method : Token) (k : Cont goal .value) {cause : RuntimeCause}
      (h : st.inheritance target = .error cause) :
      Fails limit st (.eval (.inherited target method) k) cause target.name
  | inheritedMethod (target : Reference) (method : Token) (k : Cont goal .value) {c : Class}
      {object : InstanceRef} (h : st.inheritance target = .ok (c, object))
      (hm : c.method? method.lexeme = none) :
      Fails limit st (.eval (.inherited target method) k) (.undefinedProperty method.lexeme) method
  | unary {op : UnaryOp} {operator : Token} {v : Value} {cause : RuntimeCause}
      (k : Cont goal .value) (h : op.apply v = .error cause) :
      Fails limit st (.value v (.unary op operator k)) cause operator
  | binary {op : BinaryOp} {operator : Token} {left v : Value} {cause : RuntimeCause}
      (k : Cont goal .value) (h : op.apply left v = .error cause) :
      Fails limit st (.value v (.binaryRight op operator left k)) cause operator
  | assign (v : Value) (target : Reference) (k : Cont goal .value) (h : st.owner? target = none) :
      Fails limit st (.value v (.assign target k)) (.undefinedVariable target.name.lexeme)
        target.name
  | property {object : InstanceRef} {name : Token} (k : Cont goal .value)
      (h : st.store.property? object name.lexeme = none) :
      Fails limit st (.value (.object object) (.get name k)) (.undefinedProperty name.lexeme) name
  | get {v : Value} (name : Token) (k : Cont goal .value) (h : ∀ object, v ≠ .object object) :
      Fails limit st (.value v (.get name k)) .propertyOfNonInstance name
  | set {v : Value} (name : Token) (value : Expr) (k : Cont goal .value)
      (h : ∀ object, v ≠ .object object) :
      Fails limit st (.value v (.setObject name value k)) .fieldOfNonInstance name
  | callable {called : Value} {closing : Token} {arguments : List Value} {k : Cont goal .value}
      {task : Task goal} (h : task.Calls called closing arguments k)
      (harity : Machine.arity? called = none) : Fails limit st task .notCallable closing
  | arity {called : Value} {closing : Token} {arguments : List Value} {k : Cont goal .value}
      {task : Task goal} {arity : Nat} (h : task.Calls called closing arguments k)
      (harity : Machine.arity? called = some arity) (hne : arguments.length ≠ arity) :
      Fails limit st task (.wrongArgumentCount arity arguments.length) closing
  | depth {called : Value} {closing : Token} {arguments : List Value} {k : Cont goal .value}
      {task : Task goal} (h : task.Calls called closing arguments k)
      (harity : Machine.arity? called = some arguments.length) (hle : limit ≤ st.calls) :
      Fails limit st task .callsTooDeep closing
  | superclass {v : Value} (name : Token) (reference : Reference) (methods : List FunctionDecl)
      (k : Cont goal .flow) (h : ∀ c, v ≠ .cls c) :
      Fails limit st (.value v (.superclass name reference methods k)) .superclassNotClass
        reference.name
  | derived (c : Class) (name : Token) (reference : Reference) (methods : List FunctionDecl)
      (k : Cont goal .flow) (h : st.store.owner? st.current name.lexeme = none) :
      Fails limit st (.value (.cls c) (.superclass name reference methods k))
        (.undefinedVariable name.lexeme) name

end Task

/-- The rules of the machine. -/
inductive Machine.Rule (limit : Nat) (st : State) : Task goal → Step goal → Prop
  -- Ends of runs
  | halts (outcome : goal.Outcome) :
      Rule limit st (.receive goal outcome .halt) (.done outcome st)
  | fails {task : Task goal} {cause : RuntimeCause} {token : Token}
      (h : task.Fails limit st cause token) :
      Rule limit st task (.failed ⟨cause, token⟩ (task.unwind st))
  /-- The name of a class is declared, but cannot be assigned. -/
  | failsBase (name : Token) (methods : List FunctionDecl) (k : Cont goal .flow)
      (h : (st.define name .nil).store.owner? st.current name.lexeme = none) :
      Rule limit st (.exec (.classDecl name none methods) k)
        (.failed ⟨.undefinedVariable name.lexeme, name⟩ (k.unwind (st.define name .nil)))
  -- The state stays as it is
  | unfolds {task task' : Task goal} (h : task.Unfolds st task') :
      Rule limit st task (.next task' st)
  -- Names
  | varDecl (name : Token) (k : Cont goal .flow) :
      Rule limit st (.exec (.varDecl name none) k) (.next (.flow .normal k) (st.define name .nil))
  | define (v : Value) (name : Token) (k : Cont goal .flow) :
      Rule limit st (.value v (.define name k)) (.next (.flow .normal k) (st.define name v))
  | funDecl (d : FunctionDecl) (k : Cont goal .flow) :
      Rule limit st (.exec (.funDecl d) k) (.next (.flow .normal k) (st.defineFunction d))
  | subclass (name : Token) (reference : Reference) (methods : List FunctionDecl)
      (k : Cont goal .flow) :
      Rule limit st (.exec (.classDecl name (some reference) methods) k)
        (.next (.eval (.variable reference) (.superclass name reference methods k))
          (st.define name .nil))
  | base (name : Token) (methods : List FunctionDecl) (k : Cont goal .flow) {scope : ScopeRef}
      (h : (st.define name .nil).store.owner? st.current name.lexeme = some scope) :
      Rule limit st (.exec (.classDecl name none methods) k)
        (.next (.flow .normal k) (((st.define name .nil).newClass name none methods).2.write scope
          name (.cls ((st.define name .nil).newClass name none methods).1)))
  | derived (c : Class) (name : Token) (reference : Reference) (methods : List FunctionDecl)
      (k : Cont goal .flow) {scope : ScopeRef}
      (h : st.store.owner? st.current name.lexeme = some scope) :
      Rule limit st (.value (.cls c) (.superclass name reference methods k))
        (.next (.flow .normal k) ((st.newClass name (some c) methods).2.write scope name
          (.cls (st.newClass name (some c) methods).1)))
  | assign (v : Value) (target : Reference) (k : Cont goal .value) {scope : ScopeRef}
      (h : st.owner? target = some scope) :
      Rule limit st (.value v (.assign target k))
        (.next (.value v k) (st.write scope target.name v))
  -- Instances
  | setField (v : Value) (object : InstanceRef) (name : Token) (k : Cont goal .value) :
      Rule limit st (.value v (.setValue object name k))
        (.next (.value v k) { st with store := st.store.setField object name.lexeme v })
  | inherited (target : Reference) (method : Token) (k : Cont goal .value) {c : Class}
      {object : InstanceRef} {m : Closure} (h : st.inheritance target = .ok (c, object))
      (hm : c.method? method.lexeme = some m) :
      Rule limit st (.eval (.inherited target method) k)
        (.next (.value (st.bind m object).1 k) (st.bind m object).2)
  | method (object : InstanceRef) (name : Token) (k : Cont goal .value) {m : Closure}
      (h : st.store.property? object name.lexeme = some (.method m)) :
      Rule limit st (.value (.object object) (.get name k))
        (.next (.value (st.bind m object).1 k) (st.bind m object).2)
  -- Output
  | print (v : Value) (k : Cont goal .flow) :
      Rule limit st (.value v (.print k))
        (.next (.flow .normal k) (st.print (st.store.display v)))
  -- Scopes and calls
  | block (body : List Stmt) (k : Cont goal .flow) :
      Rule limit st (.exec (.block body) k)
        (.next (.flow .normal (.sequence body (.leaveScope st.current k)))
          (st.enter .empty st.current))
  | leaveScope (f : Flow) (outer : ScopeRef) (k : Cont goal .flow) :
      Rule limit st (.flow f (.leaveScope outer k)) (.next (.flow f k) { st with current := outer })
  | function (closure : Closure) {closing : Token} (arguments : List Value) (k : Cont goal .value)
      {task : Task goal} (h : task.Calls (.function closure) closing arguments k)
      (harity : closure.arity = arguments.length) (hlt : st.calls < limit) :
      Rule limit st task
        (enterBody closure arguments (.endCall k) { st with calls := st.calls + 1 })
  | newInstance (c : Class) {closing : Token} (k : Cont goal .value) {task : Task goal}
      (h : task.Calls (.cls c) closing [] k) (hlt : st.calls < limit)
      (hm : c.method? initializerName = none) :
      Rule limit st task
        (.next (.value (.object (st.store.newInstance c).1) (.endCall k))
          { st with store := (st.store.newInstance c).2, calls := st.calls + 1 })
  | initializer (c : Class) (m : Closure) {closing : Token} (arguments : List Value)
      (k : Cont goal .value) {task : Task goal} (h : task.Calls (.cls c) closing arguments k)
      (harity : m.arity = arguments.length) (hlt : st.calls < limit)
      (hm : c.method? initializerName = some m) :
      Rule limit st task
        (enterBody ((st.store.newInstance c).2.bindMethod m (st.store.newInstance c).1).1 arguments
          (.construct (st.store.newInstance c).1 (.endCall k))
          { st with
            store := ((st.store.newInstance c).2.bindMethod m (st.store.newInstance c).1).2
            calls := st.calls + 1 })
  | endCall (v : Value) (k : Cont goal .value) :
      Rule limit st (.value v (.endCall k)) (.next (.value v k) { st with calls := st.calls - 1 })

namespace Machine

variable {limit : Nat} {task : Task goal} {st : State}

/-! ## Every step is by a rule -/

theorem call_rule {called : Value} {closing : Token} {arguments : List Value}
    {k : Cont goal .value} (h : task.Calls called closing arguments k) :
    Rule limit st task (call limit called closing arguments k st) := by
  have hfail {cause : RuntimeCause} (hfails : task.Fails limit st cause closing) :
      Rule limit st task (fail cause closing k st) := by
    rw [fail, ← h.unwind_eq]
    exact .fails hfails
  unfold call
  cases harity : arity? called with
  | none => exact hfail (.callable h harity)
  | some arity =>
    simp only
    split
    · exact hfail (.arity h harity ‹_›)
    rename_i hlen
    obtain rfl : arguments.length = arity := Decidable.of_not_not hlen
    split
    · exact hfail (.depth h harity ‹_›)
    rename_i hdepth
    have hlt := Nat.lt_of_not_le hdepth
    cases called with
    | function closure => exact .function closure arguments k h (Option.some.inj harity) hlt
    | cls c =>
      cases hm : c.method? initializerName with
      | none =>
        rw [arity?, hm] at harity
        obtain rfl := List.eq_nil_of_length_eq_zero (Option.some.inj harity).symm
        simp only [instantiate, hm]
        exact .newInstance c k h hlt hm
      | some m =>
        rw [arity?, hm] at harity
        simp only [instantiate, hm]
        exact .initializer c m arguments k h (Option.some.inj harity) hlt hm
    | _ => cases harity

theorem eval_rule (e : Expr) (k : Cont goal .value) : Rule limit st (.eval e k) (eval e k st) := by
  cases e with
  | literal v => exact .unfolds (.literal v k)
  | «variable» target =>
    rw [eval]
    cases h : st.read target with
    | none => exact .fails (.variable target k h)
    | some v => exact .unfolds (.variable k h)
  | receiver target =>
    rw [eval]
    cases h : st.read target with
    | none => exact .fails (.receiver target k h)
    | some v => exact .unfolds (.receiver k h)
  | inherited target method =>
    rw [eval]
    cases h : st.inheritance target with
    | error cause => exact .fails (.inherited target method k h)
    | ok found =>
      obtain ⟨c, object⟩ := found
      simp only
      cases hm : c.method? method.lexeme with
      | none => exact .fails (.inheritedMethod target method k h hm)
      | some m => exact .inherited target method k h hm
  | grouping inner => exact .unfolds (.grouping inner k)
  | unary op operator operand => exact .unfolds (.unary op operator operand k)
  | binary op operator left right => exact .unfolds (.binary op operator left right k)
  | logical op operator left right => exact .unfolds (.logical op operator left right k)
  | assign target value => exact .unfolds (.assign target value k)
  | get object name => exact .unfolds (.get object name k)
  | set object name value => exact .unfolds (.set object name value k)
  | call callee closing arguments => exact .unfolds (.call callee closing arguments k)

theorem exec_rule (s : Stmt) (k : Cont goal .flow) : Rule limit st (.exec s k) (exec s k st) := by
  cases s with
  | expression value => exact .unfolds (.expression value k)
  | print value => exact .unfolds (.print value k)
  | varDecl name initializer =>
    cases initializer with
    | none => exact .varDecl name k
    | some e => exact .unfolds (.varDecl name e k)
  | funDecl d => exact .funDecl d k
  | classDecl name superclass methods =>
    cases superclass with
    | some reference => exact .subclass name reference methods k
    | none =>
      rw [exec]
      simp only [defineClass]
      cases h : (st.define name .nil).store.owner? st.current name.lexeme with
      | none =>
        rw [show (st.define name .nil).current = st.current from rfl, h]
        exact .failsBase name methods k h
      | some scope =>
        rw [show (st.define name .nil).current = st.current from rfl, h]
        exact .base name methods k h
  | block body => exact .block body k
  | branch condition yes no => exact .unfolds (.branch condition yes no k)
  | loop condition body => exact .unfolds (.loop condition body k)
  | ret keyword value =>
    cases value with
    | none => exact .unfolds (.retNothing keyword k)
    | some e => exact .unfolds (.ret keyword e k)

theorem resume_rule (v : Value) (k : Cont goal .value) :
    Rule limit st (.value v k) (resume limit v k st) := by
  cases k with
  | halt => exact .halts (show Yield.Outcome .value from v)
  | unary op operator k =>
    rw [resume]
    cases h : op.apply v with
    | error cause => exact .fails (.unary k h)
    | ok w => exact .unfolds (.operated k h)
  | binaryLeft op operator right k => exact .unfolds (.left op operator right v k)
  | binaryRight op operator left k =>
    rw [resume]
    cases h : op.apply left v with
    | error cause => exact .fails (.binary k h)
    | ok w => exact .unfolds (.combined k h)
  | logical op right k =>
    rw [resume]
    split
    next h => exact .unfolds (.decided right k h)
    next h => exact .unfolds (.undecided right k (Bool.eq_false_iff.mpr h))
  | assign target k =>
    rw [resume]
    cases h : st.owner? target with
    | none => exact .fails (.assign v target k h)
    | some scope => exact .assign v target k h
  | get name k =>
    cases v with
    | object object =>
      rw [resume]
      rcases h : st.store.property? object name.lexeme with _ | found | m
      · exact .fails (.property k h)
      · exact .unfolds (.field k h)
      · exact .method object name k h
    | _ => exact .fails (.get name k nofun)
  | setObject name value k =>
    cases v with
    | object object => exact .unfolds (.object object name value k)
    | _ => exact .fails (.set name value k nofun)
  | setValue object name k => exact .setField v object name k
  | callee closing arguments k =>
    cases arguments with
    | nil => exact call_rule (.plain v closing k)
    | cons first rest => exact .unfolds (.callee v closing first rest k)
  | argument called closing done rest k =>
    cases rest with
    | nil => exact call_rule (.last v called closing done k)
    | cons next rest => exact .unfolds (.argument v called closing done next rest k)
  | construct object k => exact .unfolds (.constructed v object k)
  | endCall k => exact .endCall v k
  | discard k => exact .unfolds (.discarded v k)
  | print k => exact .print v k
  | define name k => exact .define v name k
  | ret k => exact .unfolds (.returned v k)
  | branch yes no k =>
    simp only [resume]
    split
    next h => exact .unfolds (.yes yes no k h)
    next h =>
      cases no with
      | none => exact .unfolds (.neither yes k (Bool.eq_false_iff.mpr h))
      | some no => exact .unfolds (.no yes no k (Bool.eq_false_iff.mpr h))
  | loopTest condition body k =>
    rw [resume]
    split
    next h => exact .unfolds (.goesRound condition body k h)
    next h => exact .unfolds (.isOver condition body k (Bool.eq_false_iff.mpr h))
  | superclass name reference methods k =>
    cases v with
    | cls c =>
      simp only [resume, defineClass]
      cases h : st.store.owner? st.current name.lexeme with
      | none => exact .fails (.derived c name reference methods k h)
      | some scope => exact .derived c name reference methods k h
    | _ => exact .fails (.superclass name reference methods k nofun)

theorem proceed_rule (f : Flow) (k : Cont goal .flow) :
    Rule limit st (.flow f k) (proceed f k st) := by
  cases k with
  | halt => exact .halts (show Yield.Outcome .flow from f)
  | sequence rest k =>
    cases rest with
    | nil => exact .unfolds (.finished f k)
    | cons first rest =>
      cases f with
      | normal => exact .unfolds (.first first rest k)
      | returned v => exact .unfolds (.skipped v first rest k)
  | leaveScope outer k => exact .leaveScope f outer k
  | loopBody condition body k =>
    cases f with
    | normal => exact .unfolds (.tests condition body k)
    | returned v => exact .unfolds (.leavesLoop v condition body k)
  | endBody closure k => exact .unfolds (.results f closure k)

/-- A step is by one of the rules. -/
theorem step_rule (limit : Nat) (task : Task goal) (st : State) :
    Rule limit st task (step limit task st) := by
  cases task with
  | eval e k => exact eval_rule e k
  | exec s k => exact exec_rule s k
  | value v k => exact resume_rule v k
  | flow f k => exact proceed_rule f k

/-- A run only ends well where nothing is left to do. -/
theorem eq_of_step_done {outcome : goal.Outcome} {st' : State}
    (h : step limit task st = .done outcome st') :
    task = .receive goal outcome .halt ∧ st' = st := by
  have hrule := step_rule limit task st
  rw [h] at hrule
  cases hrule
  exact ⟨rfl, rfl⟩

end Machine

end Lox
