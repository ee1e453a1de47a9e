import Lox.Proofs.Activation.Restoring
import Lox.Proofs.Lexical.Redeclaring
import Lox.Proofs.Rejection.Renumbering

/-!
# Running a program with other numbers

The numbers of references say nothing in themselves: a machine only asks the table
what is known of them. So a machine whose references have other numbers takes the
same steps, if as much is known of each under its new number. It prints the same and
fails with the same errors, and what it computes and keeps is the same up to numbers.

## Implementation notes

Nothing is asked of the references that a machine comes across, so that the machine
need not be sound. What is known of references is the same throughout a run, since
every step leads back to the same table.
-/

namespace Lox

/-- The number that each reference has in another run, and what is known there. -/
structure Renumbering where
  number : NodeId → NodeId
  table : BindingTable

theorem FunctionDecl.keeps_renumber (φ : NodeId → NodeId) :
    FunctionDecl.Keeps (FunctionDecl.renumber φ) where
  name d := congrArg Token.lexeme (d.name_renumber φ)
  parameters d := congrArg (List.map Token.lexeme) (d.parameters_renumber φ)

/-- A function with other numbers. -/
abbrev Closure.renumber (φ : NodeId → NodeId) : Closure → Closure :=
  Closure.redeclare (FunctionDecl.renumber φ)

namespace Renumbering

variable (ρ : Renumbering)

/-- What becomes of a closure. -/
abbrev closure : Closure → Closure :=
  Closure.renumber ρ.number

/-- Whether as much is known of each reference under its other number. -/
def Agrees (table : BindingTable) : Prop :=
  ∀ id, ρ.table.distance? (ρ.number id) = table.distance? id

/-- What a run yields, with other numbers. -/
def outcome : {y : Yield} → y.Outcome → y.Outcome
  | .value => Value.map ρ.closure
  | .flow => Flow.map ρ.closure

end Renumbering

/-! ## Tasks and states -/

variable {goal : Yield} {ρ : Renumbering}

/-- What happens to the outcome of a task with other numbers. -/
def Cont.renumber (ρ : Renumbering) {y : Yield} : Cont goal y → Cont goal y
  | .halt => .halt
  | .unary op operator k => .unary op operator (k.renumber ρ)
  | .binaryLeft op operator right k =>
      .binaryLeft op operator (right.renumber ρ.number) (k.renumber ρ)
  | .binaryRight op operator left k =>
      .binaryRight op operator (left.map ρ.closure) (k.renumber ρ)
  | .logical op right k => .logical op (right.renumber ρ.number) (k.renumber ρ)
  | .assign target k => .assign (target.renumber ρ.number) (k.renumber ρ)
  | .get name k => .get name (k.renumber ρ)
  | .setObject name value k => .setObject name (value.renumber ρ.number) (k.renumber ρ)
  | .setValue object name k => .setValue object name (k.renumber ρ)
  | .callee closing arguments k =>
      .callee closing (arguments.map (Expr.renumber ρ.number)) (k.renumber ρ)
  | .argument called closing done rest k =>
      .argument (called.map ρ.closure) closing (done.map (Value.map ρ.closure))
        (rest.map (Expr.renumber ρ.number)) (k.renumber ρ)
  | .construct object k => .construct object (k.renumber ρ)
  | .endCall k => .endCall (k.renumber ρ)
  | .discard k => .discard (k.renumber ρ)
  | .print k => .print (k.renumber ρ)
  | .define name k => .define name (k.renumber ρ)
  | .ret k => .ret (k.renumber ρ)
  | .branch yes no k =>
      .branch (yes.renumber ρ.number) (no.map (Stmt.renumber ρ.number)) (k.renumber ρ)
  | .loopTest condition body k =>
      .loopTest (condition.renumber ρ.number) (body.renumber ρ.number) (k.renumber ρ)
  | .superclass name reference methods k =>
      .superclass name (reference.renumber ρ.number)
        (methods.map (FunctionDecl.renumber ρ.number)) (k.renumber ρ)
  | .sequence rest k => .sequence (rest.map (Stmt.renumber ρ.number)) (k.renumber ρ)
  | .leaveScope outer k => .leaveScope outer (k.renumber ρ)
  | .loopBody condition body k =>
      .loopBody (condition.renumber ρ.number) (body.renumber ρ.number) (k.renumber ρ)
  | .endBody closure k => .endBody (ρ.closure closure) (k.renumber ρ)

/-- What to do next with other numbers. -/
def Task.renumber (ρ : Renumbering) : Task goal → Task goal
  | .eval e k => .eval (e.renumber ρ.number) (k.renumber ρ)
  | .exec s k => .exec (s.renumber ρ.number) (k.renumber ρ)
  | .value v k => .value (v.map ρ.closure) (k.renumber ρ)
  | .flow f k => .flow (f.map ρ.closure) (k.renumber ρ)

/-- The state of a machine with other numbers. -/
abbrev State.renumber (ρ : Renumbering) : State → State :=
  State.redeclare (FunctionDecl.renumber ρ.number) ρ.table

/-- What a step leads to with other numbers. -/
def Step.renumber (ρ : Renumbering) : Step goal → Step goal
  | .next task st => .next (task.renumber ρ) (st.renumber ρ)
  | .done outcome st => .done (ρ.outcome outcome) (st.renumber ρ)
  | .failed error st => .failed error (st.renumber ρ)

/-! ## References -/

namespace State

variable {st : State} (h : ρ.Agrees st.table) (r : Reference)
include h

theorem renumber_owner? : (st.renumber ρ).owner? (r.renumber ρ.number) = st.owner? r := by
  apply redeclare_owner?
  · exact h r.id
  · rfl

theorem renumber_read :
    (st.renumber ρ).read (r.renumber ρ.number) = (st.read r).map (Value.map ρ.closure) := by
  apply redeclare_read
  · exact h r.id
  · rfl

theorem renumber_inheritance :
    (st.renumber ρ).inheritance (r.renumber ρ.number) =
      (st.inheritance r).map fun found => (found.1.map ρ.closure, found.2) := by
  apply redeclare_inheritance
  exact h r.id

end State

theorem Cont.unwind_renumber {y : Yield} (k : Cont goal y) (st : State) :
    (k.renumber ρ).unwind (st.renumber ρ) = (k.unwind st).renumber ρ := by
  induction k generalizing st with
  | halt => rfl
  | endCall k ih => exact ih { st with calls := st.calls - 1 }
  | leaveScope outer k ih => exact ih { st with current := outer }
  | _ =>
    rename_i ih
    exact ih st

/-! ## Steps -/

namespace Machine

variable (st : State)

theorem fail_renumber {y : Yield} (cause : RuntimeCause) (token : Token) (k : Cont goal y) :
    fail cause token (k.renumber ρ) (st.renumber ρ) = (fail cause token k st).renumber ρ := by
  rw [fail, fail, Cont.unwind_renumber]
  rfl

theorem yieldFound_renumber (found : Option Value) (name : Token) (k : Cont goal .value) :
    yieldFound (found.map (Value.map ρ.closure)) name (k.renumber ρ) (st.renumber ρ) =
      (yieldFound found name k st).renumber ρ := by
  cases found with
  | none => exact fail_renumber st _ name k
  | some v => rfl

theorem yieldResult_renumber (result : Except RuntimeCause Value) (operator : Token)
    (k : Cont goal .value) :
    yieldResult (result.map (Value.map ρ.closure)) operator (k.renumber ρ) (st.renumber ρ) =
      (yieldResult result operator k st).renumber ρ := by
  cases result with
  | error cause => exact fail_renumber st _ operator k
  | ok v => rfl

theorem enterBody_renumber (closure : Closure) (arguments : List Value) (k : Cont goal .value) :
    enterBody (ρ.closure closure) (arguments.map (Value.map ρ.closure)) (k.renumber ρ)
        (st.renumber ρ) = (enterBody closure arguments k st).renumber ρ := by
  have hkeeps := FunctionDecl.keeps_renumber ρ.number
  simp only [enterBody, Closure.redeclare, enter_arguments_redeclare st hkeeps,
    FunctionDecl.body_renumber]
  rfl

theorem instantiate_renumber (c : Class) (arguments : List Value) (k : Cont goal .value) :
    instantiate (c.map ρ.closure) (arguments.map (Value.map ρ.closure)) (k.renumber ρ)
        (st.renumber ρ) = (instantiate c arguments k st).renumber ρ := by
  have hkeeps := (FunctionDecl.keeps_renumber ρ.number).closure
  simp only [instantiate, hkeeps.method?, State.redeclare, Store.map_newInstance]
  cases c.method? initializerName with
  | none => rfl
  | some m =>
    let bound := (st.store.newInstance c).2.bindMethod m (st.store.newInstance c).1
    simp only [Option.map_some, Store.redeclare_bindMethod]
    exact enterBody_renumber { st with store := bound.2 } bound.1 arguments
      (.construct (st.store.newInstance c).1 k)

theorem call_renumber (limit : Nat) (callee : Value) (closing : Token) (arguments : List Value)
    (k : Cont goal .value) :
    call limit (callee.map ρ.closure) closing (arguments.map (Value.map ρ.closure))
        (k.renumber ρ) (st.renumber ρ) = (call limit callee closing arguments k st).renumber ρ := by
  have hcalls : (st.renumber ρ).calls = st.calls := rfl
  rw [call, call, arity?_map (FunctionDecl.keeps_renumber ρ.number).closure]
  cases arity? callee with
  | none => exact fail_renumber st _ closing k
  | some arity =>
    simp only [List.length_map, hcalls]
    split
    · exact fail_renumber st _ closing k
    split
    · exact fail_renumber st _ closing k
    let opened := { st with calls := st.calls + 1 }
    cases callee with
    | function closure => exact enterBody_renumber opened closure arguments (.endCall k)
    | cls c => exact instantiate_renumber opened c arguments (.endCall k)
    | _ => exact fail_renumber opened _ closing k

theorem defineClass_renumber (name : Token) (superclass : Option Class)
    (methods : List FunctionDecl) (k : Cont goal .flow) :
    defineClass name (superclass.map (Class.map ρ.closure))
        (methods.map (FunctionDecl.renumber ρ.number)) (k.renumber ρ) (st.renumber ρ) =
      (defineClass name superclass methods k st).renumber ρ := by
  have howner : (st.renumber ρ).store.owner? (st.renumber ρ).current name.lexeme =
      st.store.owner? st.current name.lexeme := st.store.owner?_map _ _
  rw [defineClass, defineClass, howner]
  cases st.store.owner? st.current name.lexeme with
  | none => exact fail_renumber st _ name k
  | some scope =>
    have hkeeps := FunctionDecl.keeps_renumber ρ.number
    have hwrite : ((st.newClass name superclass methods).2.renumber ρ).write scope name
        (.cls ((st.newClass name superclass methods).1.map ρ.closure)) =
        ((st.newClass name superclass methods).2.write scope name
          (.cls (st.newClass name superclass methods).1)).renumber ρ :=
      State.redeclare_write _ scope rfl (.cls (st.newClass name superclass methods).1)
    simp only [State.redeclare_newClass st hkeeps rfl, hwrite]
    rfl

section

variable {st} (h : ρ.Agrees st.table)
include h

theorem eval_renumber (e : Expr) (k : Cont goal .value) :
    eval (e.renumber ρ.number) (k.renumber ρ) (st.renumber ρ) = (eval e k st).renumber ρ := by
  cases e with
  | literal v =>
    simp only [eval, Expr.renumber, Step.renumber, Task.renumber, Value.map_ofLiteral]
  | «variable» target =>
    simp only [eval, Expr.renumber, State.renumber_read h]
    exact yieldFound_renumber st _ target.name k
  | receiver target =>
    simp only [eval, Expr.renumber, State.renumber_read h]
    exact yieldFound_renumber st _ target.name k
  | inherited target method =>
    simp only [eval, Expr.renumber, State.renumber_inheritance h]
    cases st.inheritance target with
    | error cause => exact fail_renumber st _ target.name k
    | ok found =>
      simp only [Except.map, (FunctionDecl.keeps_renumber ρ.number).closure.method?]
      cases found.1.method? method.lexeme with
      | none => exact fail_renumber st _ method k
      | some m =>
        simp only [Option.map_some, State.redeclare_bind]
        rfl
  | call callee closing arguments =>
    simp only [eval, Expr.renumber, Expr.renumberAll_eq_map]
    rfl
  | _ => rfl

theorem resume_renumber (limit : Nat) (v : Value) (k : Cont goal .value) :
    resume limit (v.map ρ.closure) (k.renumber ρ) (st.renumber ρ) =
      (resume limit v k st).renumber ρ := by
  cases k with
  | unary op operator k =>
    simp only [resume, Cont.renumber, UnaryOp.apply_map]
    exact yieldResult_renumber st _ operator k
  | binaryRight op operator left k =>
    simp only [resume, Cont.renumber, BinaryOp.apply_map (FunctionDecl.keeps_renumber ρ.number).closure]
    exact yieldResult_renumber st _ operator k
  | logical op right k =>
    simp only [resume, Cont.renumber, LogicalOp.isDecidedBy_map]
    split <;> rfl
  | assign target k =>
    simp only [resume, Cont.renumber, State.renumber_owner? h]
    cases st.owner? target with
    | none => exact fail_renumber st _ target.name k
    | some scope =>
      simp only [Reference.renumber, State.redeclare_write st scope rfl]
      rfl
  | get name k =>
    have hproperty (object : InstanceRef) : (st.renumber ρ).store.property? object name.lexeme =
        (st.store.property? object name.lexeme).map (Store.Property.map ρ.closure) :=
      st.store.property?_map (FunctionDecl.keeps_renumber ρ.number).closure object name.lexeme
    simp only [resume, Cont.renumber]
    cases v with
    | object object =>
      simp only [Value.map, hproperty]
      rcases st.store.property? object name.lexeme with _ | found | m
      · exact fail_renumber st _ name k
      · rfl
      · simp only [Option.map_some, Store.Property.map, State.redeclare_bind]
        rfl
    | _ => exact fail_renumber st _ name k
  | setObject name value k =>
    simp only [resume, Cont.renumber]
    cases v with
    | object object => rfl
    | _ => exact fail_renumber st _ name k
  | setValue object name k =>
    simp only [resume, Cont.renumber, Step.renumber, Task.renumber, State.redeclare,
      Store.map_setField]
  | callee closing arguments k =>
    cases arguments with
    | nil => exact call_renumber st limit v closing [] k
    | cons first rest => rfl
  | argument called closing done rest k =>
    cases rest with
    | nil =>
      have hcall := call_renumber (ρ := ρ) st limit called closing (v :: done).reverse k
      rwa [List.map_reverse] at hcall
    | cons next rest => rfl
  | print k =>
    have hdisplay : (st.renumber ρ).store.display (v.map ρ.closure) = st.store.display v :=
      st.store.display_map (FunctionDecl.keeps_renumber ρ.number).closure v
    simp only [resume, Cont.renumber, hdisplay]
    rfl
  | define name k =>
    simp only [resume, Cont.renumber, State.redeclare_define st rfl]
    rfl
  | branch yes no k =>
    simp only [resume, Cont.renumber, Value.isTruthy_map]
    split
    · rfl
    · cases no <;> rfl
  | loopTest condition body k =>
    simp only [resume, Cont.renumber, Value.isTruthy_map]
    split <;> rfl
  | superclass name reference methods k =>
    simp only [resume, Cont.renumber]
    cases v with
    | cls c => exact defineClass_renumber st name (some c) methods k
    | _ => exact fail_renumber st _ reference.name k
  | _ => rfl

end

theorem exec_renumber (s : Stmt) (k : Cont goal .flow) :
    exec (s.renumber ρ.number) (k.renumber ρ) (st.renumber ρ) = (exec s k st).renumber ρ := by
  cases s with
  | varDecl name initializer =>
    cases initializer with
    | none =>
      have hdefine : (st.renumber ρ).define name .nil = (st.define name .nil).renumber ρ :=
        State.redeclare_define st rfl .nil
      simp only [exec, Stmt.renumber, Option.map_none, hdefine]
      rfl
    | some e => rfl
  | funDecl function =>
    have hkeeps := FunctionDecl.keeps_renumber ρ.number
    simp only [exec, Stmt.renumber, State.redeclare_defineFunction st hkeeps]
    rfl
  | classDecl name superclass methods =>
    have hdefine : (st.renumber ρ).define name .nil = (st.define name .nil).renumber ρ :=
      State.redeclare_define st rfl .nil
    simp only [exec, Stmt.renumber, hdefine, FunctionDecl.renumberAll_eq_map]
    cases superclass with
    | none => exact defineClass_renumber (st.define name .nil) name none methods k
    | some reference => rfl
  | block body =>
    have henter : (st.renumber ρ).enter .empty st.current = (st.enter .empty st.current).renumber ρ :=
      State.redeclare_enter st .empty st.current
    have hcurrent : (st.renumber ρ).current = st.current := rfl
    simp only [exec, Stmt.renumber, Stmt.renumberAll_eq_map, hcurrent, henter]
    rfl
  | branch condition yes no =>
    simp only [exec, Stmt.renumber, Stmt.renumberOptional_eq_map]
    rfl
  | ret keyword value => cases value <;> rfl
  | _ => rfl

theorem proceed_renumber (f : Flow) (k : Cont goal .flow) :
    proceed (f.map ρ.closure) (k.renumber ρ) (st.renumber ρ) = (proceed f k st).renumber ρ := by
  cases k with
  | sequence rest k =>
    cases rest with
    | nil => rfl
    | cons first rest => cases f <;> rfl
  | loopBody condition body k => cases f <;> rfl
  | endBody closure k =>
    simp only [proceed, Cont.renumber, bodyResult_redeclare]
    rfl
  | _ => rfl

variable {st}

/-- One step with other numbers. -/
theorem step_renumber (limit : Nat) (task : Task goal) (h : ρ.Agrees st.table) :
    step limit (task.renumber ρ) (st.renumber ρ) = (step limit task st).renumber ρ := by
  cases task with
  | eval e k => exact eval_renumber h e k
  | exec s k => exact exec_renumber st s k
  | value v k => exact resume_renumber h limit v k
  | flow f k => exact proceed_renumber st f k

/-! ## Runs -/

/-- A run with other numbers takes as many steps and ends alike. -/
theorem run_renumber (limit fuel : Nat) (task : Task goal) (h : ρ.Agrees st.table) :
    run limit fuel (task.renumber ρ) (st.renumber ρ) =
      (run limit fuel task st).map fun r => (r.1.map ρ.outcome, r.2.renumber ρ) := by
  induction fuel generalizing task st with
  | zero => rfl
  | succ fuel ih =>
    rw [run, run, step_renumber limit task h]
    cases hstep : step limit task st with
    | next task' st' =>
      apply ih
      rwa [table_of_next hstep]
    | done outcome st' => rfl
    | failed error st' => rfl

end Machine

namespace State

variable {st st' : State} (limits : Limits)

/-- A program with other numbers ends alike. -/
theorem interpret_renumber (program : List Stmt) (h : ρ.Agrees st.table) :
    (st.renumber ρ).interpret limits (program.map (Stmt.renumber ρ.number)) =
      (st.interpret limits program).map fun r => (r.1, r.2.renumber ρ) := by
  have hrun := Machine.run_renumber limits.calls limits.steps (Machine.program program) h
  rw [interpret, interpret, Option.map_map]
  change (Machine.run limits.calls limits.steps ((Machine.program program).renumber ρ)
    (st.renumber ρ)).map _ = _
  rw [hrun, Option.map_map]
  congr 1
  funext r
  obtain ⟨result, st'⟩ := r
  cases result <;> rfl

/-- An expression with other numbers has the same value up to numbers. -/
theorem evaluate_renumber (e : Expr) (h : ρ.Agrees st.table) :
    (st.renumber ρ).evaluate limits (e.renumber ρ.number) =
      (st.evaluate limits e).map fun r => (r.1.map (Value.map ρ.closure), r.2.renumber ρ) :=
  Machine.run_renumber limits.calls limits.steps (Machine.expression e) h

variable {limits}

theorem restores_of_interpret {program : List Stmt} {result : Except RuntimeError Unit}
    (h : st.interpret limits program = some (result, st')) : st.Restores st' := by
  rw [interpret, Option.map_eq_some_iff] at h
  obtain ⟨⟨outcome, st''⟩, hrun, hend⟩ := h
  have hrestores : st.Restores st'' := Machine.run_restores hrun
  cases outcome <;> cases hend <;> exact hrestores

theorem restores_of_evaluate {e : Expr} {result : Except RuntimeError Value}
    (h : st.evaluate limits e = some (result, st')) : st.Restores st' :=
  Machine.run_restores h

end State

end Lox
