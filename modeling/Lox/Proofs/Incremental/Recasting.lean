import Lox.Proofs.Incremental.Moves
import Lox.Proofs.Lexical.Redeclaring

/-!
# Running a program in another setting

A machine that runs a program on other lines does so in the same steps, and so does
one that knows other references as well, or that has more statements to run at the
end. What it has in store, what it still has to do, its results and its errors are
those of the first machine, recast.

## Implementation notes

The machines part where the first one comes to its end and the other goes on with the
statements there. Before that, a list of statements that is the last thing to do is
one list with the statements at the end, since this is how the joint program is run.
Where the machines look up a reference, they have to know the same of it; the
references for which this is asked are those that the next step looks up.
-/

namespace Lox

/-- A function on other lines. -/
def Closure.move (μ : Move) (c : Closure) : Closure :=
  { c with decl := c.decl.move μ }

theorem FunctionDecl.keeps_move (μ : Move) : FunctionDecl.Keeps (FunctionDecl.move μ) where
  name d := by rw [name_move, Token.lexeme_move]
  parameters d := by
    rw [parameters_move, List.map_map]
    rfl

theorem Closure.keeps_move (μ : Move) : Closure.Keeps (Closure.move μ) :=
  (FunctionDecl.keeps_move μ).closure

theorem Closure.move_comp_move (μ ν : Move) :
    Closure.move ν ∘ Closure.move μ = Closure.move (ν.comp μ) := by
  funext c
  simp only [Function.comp, Closure.move, FunctionDecl.move_move]

theorem Closure.move_still : Closure.move .still = id := by
  funext c
  simp only [Closure.move, FunctionDecl.move_still, id]

/-- What another run of the machine differs in: the lines and numbers of what it runs,
the statements at the end, if there are any, and what it knows of references. -/
structure Recast where
  move : Move
  tail : Option (List Stmt)
  table : BindingTable

namespace Recast

variable (ρ : Recast)

/-- What becomes of a closure. -/
abbrev closure : Closure → Closure :=
  Closure.move ρ.move

/-- What is left to do at the end. -/
def last : Cont .flow .flow :=
  match ρ.tail with
  | none => .halt
  | some tail => .sequence tail .halt

/-- What becomes of statements in front of a continuation: if they are the last thing
to do, those at the end are behind them. -/
def sequence (rest : List Stmt) {y : Yield} (k : Cont .flow y) (k' : Cont .flow .flow) :
    Cont .flow .flow :=
  match k with
  | .halt => .sequence (rest.map (Stmt.move ρ.move) ++ ρ.tail.getD []) .halt
  | _ => .sequence (rest.map (Stmt.move ρ.move)) k'

end Recast

/-! ## Tasks and states -/

/-- What happens to the outcome of a task in another setting. -/
def Cont.recast (ρ : Recast) {y : Yield} : Cont .flow y → Cont .flow y
  | .halt => ρ.last
  | .unary op operator k => .unary op (operator.move ρ.move) (k.recast ρ)
  | .binaryLeft op operator right k =>
      .binaryLeft op (operator.move ρ.move) (right.move ρ.move) (k.recast ρ)
  | .binaryRight op operator left k =>
      .binaryRight op (operator.move ρ.move) (left.map ρ.closure) (k.recast ρ)
  | .logical op right k => .logical op (right.move ρ.move) (k.recast ρ)
  | .assign target k => .assign (target.move ρ.move) (k.recast ρ)
  | .get name k => .get (name.move ρ.move) (k.recast ρ)
  | .setObject name value k => .setObject (name.move ρ.move) (value.move ρ.move) (k.recast ρ)
  | .setValue object name k => .setValue object (name.move ρ.move) (k.recast ρ)
  | .callee closing arguments k =>
      .callee (closing.move ρ.move) (arguments.map (Expr.move ρ.move)) (k.recast ρ)
  | .argument called closing done rest k =>
      .argument (called.map ρ.closure) (closing.move ρ.move) (done.map (Value.map ρ.closure))
        (rest.map (Expr.move ρ.move)) (k.recast ρ)
  | .construct object k => .construct object (k.recast ρ)
  | .endCall k => .endCall (k.recast ρ)
  | .discard k => .discard (k.recast ρ)
  | .print k => .print (k.recast ρ)
  | .define name k => .define (name.move ρ.move) (k.recast ρ)
  | .ret k => .ret (k.recast ρ)
  | .branch yes no k => .branch (yes.move ρ.move) (no.map (Stmt.move ρ.move)) (k.recast ρ)
  | .loopTest condition body k =>
      .loopTest (condition.move ρ.move) (body.move ρ.move) (k.recast ρ)
  | .superclass name reference methods k =>
      .superclass (name.move ρ.move) (reference.move ρ.move)
        (methods.map (FunctionDecl.move ρ.move)) (k.recast ρ)
  | .sequence rest k => ρ.sequence rest k (k.recast ρ)
  | .leaveScope outer k => .leaveScope outer (k.recast ρ)
  | .loopBody condition body k =>
      .loopBody (condition.move ρ.move) (body.move ρ.move) (k.recast ρ)
  | .endBody closure k => .endBody (ρ.closure closure) (k.recast ρ)

/-- What to do next in another setting. -/
def Task.recast (ρ : Recast) : Task .flow → Task .flow
  | .eval e k => .eval (e.move ρ.move) (k.recast ρ)
  | .exec s k => .exec (s.move ρ.move) (k.recast ρ)
  | .value v k => .value (v.map ρ.closure) (k.recast ρ)
  | .flow f k => .flow (f.map ρ.closure) (k.recast ρ)

/-- The state of a machine in another setting. -/
def State.recast (ρ : Recast) (st : State) : State :=
  { st with store := st.store.map ρ.closure, table := ρ.table }

/-- What a step leads to in another setting. -/
def Step.recast (ρ : Recast) : Step .flow → Step .flow
  | .next task st => .next (task.recast ρ) (st.recast ρ)
  | .done outcome st => .done (outcome.map ρ.closure) (st.recast ρ)
  | .failed error st => .failed (error.move ρ.move) (st.recast ρ)

/-- The reference that the next step looks up, if it does. -/
def Task.reference? : Task .flow → Option Reference
  | .eval (.variable target) _ => some target
  | .eval (.receiver target) _ => some target
  | .eval (.inherited target _) _ => some target
  | .value _ (.assign target _) => some target
  | _ => none

/-- Whether there is something to do before the statements at the end. -/
structure Task.IsInside (task : Task .flow) : Prop where
  halt (f : Flow) : task ≠ .flow f .halt
  sequence (f : Flow) (rest : List Stmt) :
    task = .flow f (.sequence rest .halt) → f = .normal ∧ rest ≠ []

/-! ## States -/

variable {ρ : Recast}

/-- Whether two tables say the same of a reference and of what becomes of it. -/
def Recast.Agrees (ρ : Recast) (table : BindingTable) (r : Reference) : Prop :=
  ρ.table.distance? (r.id + ρ.move.shift) = table.distance? r.id

namespace State

variable (st : State)

theorem recast_define (name : Token) (v : Value) :
    (st.recast ρ).define (name.move ρ.move) (v.map ρ.closure) = (st.define name v).recast ρ :=
  redeclare_define st (name.lexeme_move ρ.move) v

theorem recast_write (scope : ScopeRef) (name : Token) (v : Value) :
    (st.recast ρ).write scope (name.move ρ.move) (v.map ρ.closure) =
      (st.write scope name v).recast ρ :=
  redeclare_write st scope (name.lexeme_move ρ.move) v

theorem recast_enter (bindings : NameMap Value) (enclosing : ScopeRef) :
    (st.recast ρ).enter (bindings.map (Value.map ρ.closure)) enclosing =
      (st.enter bindings enclosing).recast ρ :=
  redeclare_enter st bindings enclosing

theorem recast_defineFunction (decl : FunctionDecl) :
    (st.recast ρ).defineFunction (decl.move ρ.move) = (st.defineFunction decl).recast ρ :=
  redeclare_defineFunction st (FunctionDecl.keeps_move ρ.move) decl

theorem recast_newClass (name : Token) (superclass : Option Class) (methods : List FunctionDecl) :
    (st.recast ρ).newClass (name.move ρ.move) (superclass.map (Class.map ρ.closure))
        (methods.map (FunctionDecl.move ρ.move)) =
      ((st.newClass name superclass methods).1.map ρ.closure,
        (st.newClass name superclass methods).2.recast ρ) :=
  redeclare_newClass st (FunctionDecl.keeps_move ρ.move) (name.lexeme_move ρ.move) superclass
    methods

theorem recast_bindMethod (s : Store) (m : Closure) (receiver : InstanceRef) :
    (s.map ρ.closure).bindMethod (ρ.closure m) receiver =
      (ρ.closure (s.bindMethod m receiver).1, (s.bindMethod m receiver).2.map ρ.closure) :=
  s.redeclare_bindMethod m receiver

theorem recast_bind (m : Closure) (receiver : InstanceRef) :
    (st.recast ρ).bind (ρ.closure m) receiver =
      ((st.bind m receiver).1.map ρ.closure, (st.bind m receiver).2.recast ρ) :=
  redeclare_bind st m receiver

section

variable {st} {r : Reference} (h : ρ.Agrees st.table r)
include h

theorem recast_owner? : (st.recast ρ).owner? (r.move ρ.move) = st.owner? r := by
  apply redeclare_owner?
  · exact h
  · rfl

theorem recast_read :
    (st.recast ρ).read (r.move ρ.move) = (st.read r).map (Value.map ρ.closure) := by
  apply redeclare_read
  · exact h
  · rfl

theorem recast_inheritance :
    (st.recast ρ).inheritance (r.move ρ.move) =
      (st.inheritance r).map fun found => (found.1.map ρ.closure, found.2) := by
  apply redeclare_inheritance
  exact h

end

end State

theorem Cont.unwind_recast {y : Yield} (k : Cont .flow y) (st : State) :
    (k.recast ρ).unwind (st.recast ρ) = (k.unwind st).recast ρ := by
  induction k generalizing st <;> simp only [Cont.recast, Cont.unwind]
  case halt =>
    unfold Recast.last
    cases ρ.tail <;> rfl
  case sequence rest k ih =>
    rw [← ih st]
    cases k with
    | halt =>
      unfold Cont.recast Recast.last
      cases ρ.tail <;> rfl
    | _ => rfl
  case endCall k ih => exact ih { st with calls := st.calls - 1 }
  case leaveScope outer k ih => exact ih { st with current := outer }
  all_goals
    rename_i ih
    exact ih st

/-! ## Steps -/

namespace Machine

variable (ρ : Recast) (st : State)

theorem fail_recast {y : Yield} (cause : RuntimeCause) (token : Token) (k : Cont .flow y) :
    fail cause (token.move ρ.move) (k.recast ρ) (st.recast ρ) =
      (fail cause token k st).recast ρ := by
  rw [fail, fail, Cont.unwind_recast]
  rfl

theorem yieldFound_recast (found : Option Value) (name : Token) (k : Cont .flow .value) :
    yieldFound (found.map (Value.map ρ.closure)) (name.move ρ.move) (k.recast ρ) (st.recast ρ) =
      (yieldFound found name k st).recast ρ := by
  cases found with
  | none => exact fail_recast ρ st _ name k
  | some v => rfl

theorem yieldResult_recast (result : Except RuntimeCause Value) (operator : Token)
    (k : Cont .flow .value) :
    yieldResult (result.map (Value.map ρ.closure)) (operator.move ρ.move) (k.recast ρ)
        (st.recast ρ) = (yieldResult result operator k st).recast ρ := by
  cases result with
  | error cause => exact fail_recast ρ st _ operator k
  | ok v => rfl

theorem enterBody_recast (closure : Closure) (arguments : List Value) (k : Cont .flow .value) :
    enterBody (ρ.closure closure) (arguments.map (Value.map ρ.closure)) (k.recast ρ)
        (st.recast ρ) = (enterBody closure arguments k st).recast ρ := by
  have henter : (st.recast ρ).enter
      (((closure.decl.move ρ.move).parameters.zip (arguments.map (Value.map ρ.closure))).foldl
        (fun bindings p => bindings.insert p.1.lexeme p.2) NameMap.empty) closure.scope =
      (st.enter ((closure.decl.parameters.zip arguments).foldl
        (fun bindings p => bindings.insert p.1.lexeme p.2) NameMap.empty) closure.scope).recast ρ :=
    enter_arguments_redeclare st (FunctionDecl.keeps_move ρ.move) closure.decl arguments _
  simp only [enterBody, Closure.move, henter, FunctionDecl.body_move]
  rfl

theorem instantiate_recast (c : Class) (arguments : List Value) (k : Cont .flow .value) :
    instantiate (c.map ρ.closure) (arguments.map (Value.map ρ.closure)) (k.recast ρ)
        (st.recast ρ) = (instantiate c arguments k st).recast ρ := by
  simp only [instantiate, (Closure.keeps_move ρ.move).method?, State.recast, Store.map_newInstance]
  cases c.method? initializerName with
  | none => rfl
  | some m =>
    let bound := (st.store.newInstance c).2.bindMethod m (st.store.newInstance c).1
    simp only [Option.map_some, State.recast_bindMethod]
    exact enterBody_recast ρ { st with store := bound.2 } bound.1 arguments
      (.construct (st.store.newInstance c).1 k)

theorem call_recast (limit : Nat) (callee : Value) (closing : Token) (arguments : List Value)
    (k : Cont .flow .value) :
    call limit (callee.map ρ.closure) (closing.move ρ.move) (arguments.map (Value.map ρ.closure))
        (k.recast ρ) (st.recast ρ) = (call limit callee closing arguments k st).recast ρ := by
  unfold call
  rw [arity?_map (Closure.keeps_move ρ.move)]
  cases arity? callee with
  | none => exact fail_recast ρ st _ closing k
  | some arity =>
    simp only [List.length_map]
    by_cases hlength : arguments.length ≠ arity
    · simp only [if_pos hlength]
      exact fail_recast ρ st _ closing k
    · have hcalls : (st.recast ρ).calls = st.calls := rfl
      simp only [if_neg hlength, hcalls]
      by_cases hlimit : limit ≤ st.calls
      · simp only [if_pos hlimit]
        exact fail_recast ρ st _ closing k
      · simp only [if_neg hlimit]
        cases callee with
        | function closure => exact enterBody_recast ρ { st with calls := st.calls + 1 } closure arguments (.endCall k)
        | cls c => exact instantiate_recast ρ { st with calls := st.calls + 1 } c arguments (.endCall k)
        | _ => exact fail_recast ρ { st with calls := st.calls + 1 } _ closing k

theorem bodyResult_recast (closure : Closure) (f : Flow) :
    bodyResult (ρ.closure closure) (f.map ρ.closure) (st.recast ρ) =
      (bodyResult closure f st).map ρ.closure :=
  bodyResult_redeclare st closure f

theorem defineClass_recast (name : Token) (superclass : Option Class) (methods : List FunctionDecl)
    (k : Cont .flow .flow) :
    defineClass (name.move ρ.move) (superclass.map (Class.map ρ.closure))
        (methods.map (FunctionDecl.move ρ.move)) (k.recast ρ) (st.recast ρ) =
      (defineClass name superclass methods k st).recast ρ := by
  unfold defineClass
  rw [show (st.recast ρ).store.owner? (st.recast ρ).current (name.move ρ.move).lexeme =
    st.store.owner? st.current name.lexeme from st.store.owner?_map _ _]
  cases st.store.owner? st.current name.lexeme with
  | none => exact fail_recast ρ st _ name k
  | some scope =>
    simp only [State.recast_newClass]
    have hwrite := State.recast_write (ρ := ρ) (st.newClass name superclass methods).2 scope name
      (.cls (st.newClass name superclass methods).1)
    simp only [Value.map] at hwrite
    rw [hwrite]
    rfl

theorem eval_recast (e : Expr) (k : Cont .flow .value)
    (h : ∀ r, (Task.eval e k).reference? = some r → ρ.Agrees st.table r) :
    eval (e.move ρ.move) (k.recast ρ) (st.recast ρ) = (eval e k st).recast ρ := by
  cases e with
  | literal v =>
    simp only [eval, Expr.move, Step.recast, Task.recast, Value.map_ofLiteral]
  | «variable» target =>
    simp only [eval, Expr.move]
    rw [State.recast_read (h target rfl)]
    exact yieldFound_recast ρ st _ target.name k
  | receiver target =>
    simp only [eval, Expr.move]
    rw [State.recast_read (h target rfl)]
    exact yieldFound_recast ρ st _ target.name k
  | inherited target method =>
    simp only [eval, Expr.move]
    rw [State.recast_inheritance (h target rfl)]
    cases st.inheritance target with
    | error cause => exact fail_recast ρ st _ target.name k
    | ok found =>
      obtain ⟨c, receiver⟩ := found
      simp only [Except.map, (Closure.keeps_move ρ.move).method?, Token.lexeme_move]
      cases c.method? method.lexeme with
      | none => exact fail_recast ρ st _ method k
      | some m =>
        simp only [Option.map_some, State.recast_bind]
        rfl
  | call callee closing arguments =>
    simp only [eval, Expr.move, Expr.moveAll_eq_map]
    rfl
  | _ => rfl

theorem exec_recast (s : Stmt) (k : Cont .flow .flow) :
    exec (s.move ρ.move) (k.recast ρ) (st.recast ρ) = (exec s k st).recast ρ := by
  cases s with
  | varDecl name initializer =>
    cases initializer with
    | none =>
      have hdefine := State.recast_define (ρ := ρ) st name .nil
      simp only [Value.map] at hdefine
      simp only [exec, Stmt.move, Option.map_none, hdefine]
      rfl
    | some e => rfl
  | funDecl function =>
    simp only [exec, Stmt.move, State.recast_defineFunction]
    rfl
  | classDecl name superclass methods =>
    have hdefine := State.recast_define (ρ := ρ) st name .nil
    simp only [Value.map] at hdefine
    simp only [exec, Stmt.move, hdefine, FunctionDecl.moveAll_eq_map]
    cases superclass with
    | none => exact defineClass_recast ρ (st.define name .nil) name none methods k
    | some reference => rfl
  | block body =>
    have henter := State.recast_enter (ρ := ρ) st .empty st.current
    rw [NameMap.map_empty] at henter
    simp only [exec, Stmt.move, Stmt.moveAll_eq_map]
    rw [show (st.recast ρ).current = st.current from rfl, henter]
    rfl
  | branch condition yes no =>
    simp only [exec, Stmt.move, Stmt.moveOptional_eq_map]
    rfl
  | ret keyword value => cases value <;> rfl
  | _ => rfl

theorem resume_recast (limit : Nat) (v : Value) (k : Cont .flow .value)
    (h : ∀ r, (Task.value v k).reference? = some r → ρ.Agrees st.table r) :
    resume limit (v.map ρ.closure) (k.recast ρ) (st.recast ρ) = (resume limit v k st).recast ρ := by
  cases k with
  | unary op operator k =>
    simp only [resume, Cont.recast]
    rw [UnaryOp.apply_map]
    exact yieldResult_recast ρ st _ operator k
  | binaryRight op operator left k =>
    simp only [resume, Cont.recast]
    rw [BinaryOp.apply_map (Closure.keeps_move ρ.move)]
    exact yieldResult_recast ρ st _ operator k
  | logical op right k =>
    simp only [resume, Cont.recast, LogicalOp.isDecidedBy_map]
    split <;> rfl
  | assign target k =>
    simp only [resume, Cont.recast]
    rw [State.recast_owner? (h target rfl)]
    cases st.owner? target with
    | none => exact fail_recast ρ st _ target.name k
    | some scope =>
      simp only [Reference.name_move, State.recast_write]
      rfl
  | get name k =>
    simp only [resume, Cont.recast]
    cases v with
    | object object =>
      simp only [Value.map]
      rw [show (st.recast ρ).store.property? object (name.move ρ.move).lexeme =
        (st.store.property? object name.lexeme).map (Store.Property.map ρ.closure) from
          st.store.property?_map (Closure.keeps_move ρ.move) object name.lexeme]
      rcases st.store.property? object name.lexeme with _ | found | m
      · exact fail_recast ρ st _ name k
      · rfl
      · simp only [Option.map_some, Store.Property.map, State.recast_bind]
        rfl
    | _ => exact fail_recast ρ st _ name k
  | setObject name value k =>
    simp only [resume, Cont.recast]
    cases v with
    | object object => rfl
    | _ => exact fail_recast ρ st _ name k
  | setValue object name k =>
    simp only [resume, Cont.recast, Step.recast, Task.recast, State.recast, Store.map_setField,
      Token.lexeme_move]
  | callee closing arguments k =>
    cases arguments with
    | nil => exact call_recast ρ st limit v closing [] k
    | cons first rest => rfl
  | argument called closing done rest k =>
    cases rest with
    | nil =>
      have hcall := call_recast ρ st limit called closing (v :: done).reverse k
      rw [List.map_reverse] at hcall
      exact hcall
    | cons next rest => rfl
  | print k =>
    simp only [resume, Cont.recast]
    rw [show (st.recast ρ).store.display (v.map ρ.closure) = st.store.display v from
      st.store.display_map (Closure.keeps_move ρ.move) v]
    rfl
  | define name k =>
    simp only [resume, Cont.recast, State.recast_define]
    rfl
  | branch yes no k =>
    simp only [resume, Cont.recast, Value.isTruthy_map]
    split
    · rfl
    · cases no <;> rfl
  | loopTest condition body k =>
    simp only [resume, Cont.recast, Value.isTruthy_map]
    split <;> rfl
  | superclass name reference methods k =>
    simp only [resume, Cont.recast]
    cases v with
    | cls c => exact defineClass_recast ρ st name (some c) methods k
    | _ => exact fail_recast ρ st _ reference.name k
  | _ => rfl

/-- Nothing is special about the last thing to do if there are no statements at the
end. -/
theorem recast_sequence (h : ρ.tail = none) (rest : List Stmt) (k : Cont .flow .flow) :
    (Cont.sequence rest k).recast ρ = .sequence (rest.map (Stmt.move ρ.move)) (k.recast ρ) := by
  cases k with
  | halt => simp [Cont.recast, Recast.sequence, Recast.last, h]
  | _ => rfl

theorem proceed_recast (f : Flow) (k : Cont .flow .flow)
    (hend : ρ.tail = none ∨ (Task.flow f k).IsInside) :
    proceed (f.map ρ.closure) (k.recast ρ) (st.recast ρ) = (proceed f k st).recast ρ := by
  cases k with
  | halt =>
    have htail : ρ.tail = none := hend.resolve_right fun h => h.halt f rfl
    simp only [Cont.recast, Recast.last, htail]
    rfl
  | sequence rest k =>
    obtain htail | hinside := hend
    · rw [recast_sequence ρ htail]
      cases rest with
      | nil => rfl
      | cons first rest =>
        cases f with
        | returned v => rfl
        | normal =>
          simp only [proceed, Step.recast, Task.recast, recast_sequence ρ htail]
          rfl
    · cases k with
      | halt =>
        obtain ⟨rfl, hrest⟩ := hinside.sequence f rest rfl
        obtain ⟨first, rest, rfl⟩ := List.exists_cons_of_ne_nil hrest
        rfl
      | _ => cases rest <;> cases f <;> rfl
  | leaveScope outer k => rfl
  | loopBody condition body k => cases f <;> rfl
  | endBody closure k =>
    simp only [proceed, Cont.recast, bodyResult_recast]
    rfl

/-- One step in another setting. -/
theorem step_recast (limit : Nat) (task : Task .flow)
    (h : ∀ r, task.reference? = some r → ρ.Agrees st.table r)
    (hend : ρ.tail = none ∨ task.IsInside) :
    step limit (task.recast ρ) (st.recast ρ) = (step limit task st).recast ρ := by
  cases task with
  | eval e k => exact eval_recast ρ st e k h
  | exec s k => exact exec_recast ρ st s k
  | value v k => exact resume_recast ρ st limit v k h
  | flow f k => exact proceed_recast ρ st f k hend

end Machine

end Lox
