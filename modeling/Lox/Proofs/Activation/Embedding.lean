import Lox.Proofs.Activation.Rules
import Lox.Proofs.Lexical.Following

/-!
# Pieces of program inside a run

A piece of program does inside a larger run what it does alone. It takes the same
steps, and the run goes on with its outcome where it would have come to its end; if it
fails alone, so does the run, on the way out of everything around it.

## Implementation notes

What is around a piece is the continuation that stands where the piece would halt.
-/

namespace Lox

variable {goal whole : Yield}

/-- A continuation with another one where it would halt. -/
def Cont.append {y : Yield} (k : Cont goal y) (rest : Cont whole goal) : Cont whole y :=
  match k with
  | .halt => rest
  | .unary op operator k => .unary op operator (k.append rest)
  | .binaryLeft op operator right k => .binaryLeft op operator right (k.append rest)
  | .binaryRight op operator left k => .binaryRight op operator left (k.append rest)
  | .logical op right k => .logical op right (k.append rest)
  | .assign target k => .assign target (k.append rest)
  | .get name k => .get name (k.append rest)
  | .setObject name value k => .setObject name value (k.append rest)
  | .setValue object name k => .setValue object name (k.append rest)
  | .callee closing arguments k => .callee closing arguments (k.append rest)
  | .argument called closing done next k => .argument called closing done next (k.append rest)
  | .construct object k => .construct object (k.append rest)
  | .endCall k => .endCall (k.append rest)
  | .discard k => .discard (k.append rest)
  | .print k => .print (k.append rest)
  | .define name k => .define name (k.append rest)
  | .ret k => .ret (k.append rest)
  | .branch yes no k => .branch yes no (k.append rest)
  | .loopTest condition body k => .loopTest condition body (k.append rest)
  | .superclass name reference methods k => .superclass name reference methods (k.append rest)
  | .sequence statements k => .sequence statements (k.append rest)
  | .leaveScope outer k => .leaveScope outer (k.append rest)
  | .loopBody condition body k => .loopBody condition body (k.append rest)
  | .endBody closure k => .endBody closure (k.append rest)

/-- A task of a piece of program that something is around. -/
def Task.append (task : Task goal) (rest : Cont whole goal) : Task whole :=
  match task with
  | .eval e k => .eval e (k.append rest)
  | .exec s k => .exec s (k.append rest)
  | .value v k => .value v (k.append rest)
  | .flow f k => .flow f (k.append rest)

/-- A step of a piece of program that something is around. -/
def Step.append (step : Step goal) (rest : Cont whole goal) : Step whole :=
  match step with
  | .next task st => .next (task.append rest) st
  | .done outcome st => .next (.receive goal outcome rest) st
  | .failed error st => .failed error (rest.unwind st)

variable {rest : Cont whole goal} {st : State}

theorem Cont.unwind_append {y : Yield} (k : Cont goal y) (st : State) :
    (k.append rest).unwind st = rest.unwind (k.unwind st) := by
  induction k generalizing st with
  | halt => rfl
  | _ => rename_i ih; exact ih _

/-- There is nothing to do alone but to halt. -/
theorem Task.append_receive_halt (outcome : goal.Outcome) :
    (Task.receive goal outcome .halt).append rest = .receive goal outcome rest := by
  cases goal <;> rfl

namespace Machine

/-! ## Steps -/

theorem fail_append {y : Yield} (cause : RuntimeCause) (token : Token) (k : Cont goal y) :
    fail cause token (k.append rest) st = (fail cause token k st).append rest := by
  rw [fail, fail, Cont.unwind_append]
  rfl

theorem yieldFound_append (found : Option Value) (name : Token) (k : Cont goal .value) :
    yieldFound found name (k.append rest) st = (yieldFound found name k st).append rest := by
  cases found with
  | none => exact fail_append _ name k
  | some v => rfl

theorem yieldResult_append (result : Except RuntimeCause Value) (operator : Token)
    (k : Cont goal .value) :
    yieldResult result operator (k.append rest) st =
      (yieldResult result operator k st).append rest := by
  cases result with
  | error cause => exact fail_append cause operator k
  | ok v => rfl

theorem instantiate_append (c : Class) (arguments : List Value) (k : Cont goal .value) :
    instantiate c arguments (k.append rest) st = (instantiate c arguments k st).append rest := by
  unfold instantiate
  cases c.method? initializerName <;> rfl

theorem call_append (limit : Nat) (callee : Value) (closing : Token) (arguments : List Value)
    (k : Cont goal .value) :
    call limit callee closing arguments (k.append rest) st =
      (call limit callee closing arguments k st).append rest := by
  unfold call
  cases arity? callee with
  | none => exact fail_append _ closing k
  | some arity =>
    simp only
    split
    · exact fail_append _ closing k
    split
    · exact fail_append _ closing k
    cases callee with
    | function closure => rfl
    | cls c => exact instantiate_append c arguments (.endCall k)
    | _ => exact fail_append _ closing k

theorem defineClass_append (name : Token) (superclass : Option Class) (methods : List FunctionDecl)
    (k : Cont goal .flow) :
    defineClass name superclass methods (k.append rest) st =
      (defineClass name superclass methods k st).append rest := by
  unfold defineClass
  cases st.store.owner? st.current name.lexeme with
  | none => exact fail_append _ name k
  | some scope => rfl

theorem eval_append (e : Expr) (k : Cont goal .value) :
    eval e (k.append rest) st = (eval e k st).append rest := by
  cases e with
  | «variable» target => exact yieldFound_append _ _ k
  | receiver target => exact yieldFound_append _ _ k
  | inherited target method =>
    simp only [eval]
    cases st.inheritance target with
    | error cause => exact fail_append cause _ k
    | ok found =>
      simp only
      cases found.1.method? method.lexeme with
      | none => exact fail_append _ method k
      | some m => rfl
  | _ => rfl

theorem exec_append (s : Stmt) (k : Cont goal .flow) :
    exec s (k.append rest) st = (exec s k st).append rest := by
  cases s with
  | varDecl name initializer => cases initializer <;> rfl
  | classDecl name superclass methods =>
    cases superclass with
    | none => exact defineClass_append name none methods k
    | some reference => rfl
  | ret keyword value => cases value <;> rfl
  | _ => rfl

theorem resume_append (limit : Nat) (v : Value) (k : Cont goal .value)
    (h : ∀ outcome, Task.value v k ≠ .receive goal outcome .halt) :
    resume limit v (k.append rest) st = (resume limit v k st).append rest := by
  cases k with
  | halt => exact absurd rfl (h v)
  | unary op operator k => exact yieldResult_append _ operator k
  | binaryRight op operator left k => exact yieldResult_append _ operator k
  | logical op right k =>
    simp only [resume, Cont.append]
    split <;> rfl
  | assign target k =>
    simp only [resume, Cont.append]
    cases st.owner? target with
    | none => exact fail_append _ target.name k
    | some scope => rfl
  | get name k =>
    cases v with
    | object object =>
      simp only [resume, Cont.append]
      rcases st.store.property? object name.lexeme with _ | found | m
      · exact fail_append _ name k
      · rfl
      · rfl
    | _ => exact fail_append _ name k
  | setObject name value k =>
    cases v with
    | object object => rfl
    | _ => exact fail_append _ name k
  | callee closing arguments k =>
    cases arguments with
    | nil => exact call_append limit v closing [] k
    | cons first others => rfl
  | argument callee closing done next k =>
    cases next with
    | nil => exact call_append limit callee closing (v :: done).reverse k
    | cons first others => rfl
  | branch yes no k =>
    simp only [resume, Cont.append]
    split
    · rfl
    · cases no <;> rfl
  | loopTest condition body k =>
    simp only [resume, Cont.append]
    split <;> rfl
  | superclass name reference methods k =>
    cases v with
    | cls c => exact defineClass_append name (some c) methods k
    | _ => exact fail_append _ reference.name k
  | _ => rfl

theorem proceed_append (f : Flow) (k : Cont goal .flow)
    (h : ∀ outcome, Task.flow f k ≠ .receive goal outcome .halt) :
    proceed f (k.append rest) st = (proceed f k st).append rest := by
  cases k with
  | halt => exact absurd rfl (h f)
  | sequence statements k =>
    cases statements with
    | nil => rfl
    | cons first others => cases f <;> rfl
  | loopBody condition body k => cases f <;> rfl
  | _ => rfl

/-- A piece that has not come to its end takes the same step inside a larger run. -/
theorem step_append (limit : Nat) (task : Task goal)
    (h : ∀ outcome, task ≠ .receive goal outcome .halt) :
    step limit (task.append rest) st = (step limit task st).append rest := by
  cases task with
  | eval e k => exact eval_append e k
  | exec s k => exact exec_append s k
  | value v k => exact resume_append limit v k h
  | flow f k => exact proceed_append f k h

/-- A piece that has come to its end halts. -/
theorem step_receive_halt (limit : Nat) (outcome : goal.Outcome) :
    step limit (.receive goal outcome .halt) st = .done outcome st := by
  cases goal <;> rfl

/-- A run that has ended does not change with more steps. -/
theorem run_add {limit n : Nat} {task : Task goal} {res : Result goal}
    (h : run limit n task st = some res) (more : Nat) : run limit (n + more) task st = some res := by
  induction n generalizing task st with
  | zero => cases h
  | succ n ih =>
    rw [run_succ] at h
    rw [Nat.add_right_comm, run_succ]
    cases hstep : step limit task st with
    | next task' st' =>
      rw [hstep] at h
      exact ih h
    | _ =>
      rw [hstep] at h
      exact h

end Machine

/-! ## Runs -/

namespace Step

variable {limit n : Nat} {step : Step goal}

theorem runFor_next_succ (task : Task goal) :
    (Step.next task st).runFor limit (n + 1) = (Machine.step limit task st).runFor limit n :=
  Machine.run_succ limit n task st

/-- A task is the last one of its piece, or the machine does with it inside a larger run
what it does with it alone. -/
theorem next_append_cases (limit : Nat) (rest : Cont whole goal) (task : Task goal) (st : State) :
    (∃ outcome, (Step.next task st).append rest = (Step.done outcome st).append rest ∧
      Machine.step limit task st = .done outcome st) ∨
    ∀ n, ((Step.next task st).append rest).runFor limit (n + 1) =
      ((Machine.step limit task st).append rest).runFor limit n := by
  by_cases hend : ∃ outcome, task = .receive goal outcome .halt
  · obtain ⟨outcome, rfl⟩ := hend
    refine .inl ⟨outcome, ?_, Machine.step_receive_halt limit outcome⟩
    rw [append, append, Task.append_receive_halt]
  · refine .inr fun n => ?_
    rw [append, runFor_next_succ, Machine.step_append limit task (not_exists.mp hend)]

/-- Where a piece ends alone, the larger run goes on as the last step of the piece says. -/
theorem runFor_append {res : Result goal} (h : step.runFor limit n = some res)
    (rest : Cont whole goal) :
    ∃ m, ∀ more, (step.append rest).runFor limit (m + more) =
      ((ofResult res).append rest).runFor limit more := by
  induction n generalizing step with
  | zero =>
    cases step with
    | next task st => cases h
    | _ =>
      cases h
      exact ⟨0, fun more => by rw [Nat.zero_add]; rfl⟩
  | succ n ih =>
    cases step with
    | next task st =>
      rw [runFor_next_succ] at h
      obtain ⟨outcome, hlast, hdone⟩ | hnext := next_append_cases limit rest task st
      · rw [hdone] at h
        cases h
        exact ⟨0, fun more => by rw [Nat.zero_add, hlast]; rfl⟩
      · obtain ⟨m, hm⟩ := ih h
        exact ⟨m + 1, fun more => by rw [Nat.add_right_comm, hnext, hm]⟩
    | _ =>
      cases h
      exact ⟨0, fun more => by rw [Nat.zero_add]; rfl⟩

/-- A larger run does not end before a piece that it begins with. -/
theorem runFor_append_none (h : step.runFor limit n = none) (rest : Cont whole goal) :
    (step.append rest).runFor limit n = none := by
  induction n generalizing step with
  | zero =>
    cases step with
    | next task st => rfl
    | _ => cases h
  | succ n ih =>
    cases step with
    | next task st =>
      rw [runFor_next_succ] at h
      obtain ⟨outcome, -, hdone⟩ | hnext := next_append_cases limit rest task st
      · rw [hdone] at h
        cases h
      · exact (hnext n).trans (ih h)
    | _ => cases h

end Step

end Lox
