import Lox.Proofs.Activation.Embedding
import Lox.Proofs.Scoping.Sessions
import Mathlib

/-!
# Execution puts the machine back

However a piece of program ends, the machine is then back in the scope where it was,
with as many calls open and the same known of references. No scope is gone, and what
was printed before is still there.

## Implementation notes

Between two steps a machine need not be back anywhere, but it always knows its way:
where its continuation leads to when it is unwound. No step changes that, so it is
enough to look at single steps (`step_restores`), and nothing is asked of the state or
the table that a run begins with.
-/

namespace Lox

/-! ## Being back -/

/-- Whether a state is back where an earlier one was: in the same scope, with the same
calls open and the same table. All scopes are still there, the globals among them, and
the output has only become longer. -/
structure State.Restores (st st' : State) : Prop where
  current : st'.current = st.current
  calls : st'.calls = st.calls
  table : st'.table = st.table
  store : Store.Grows 0 st.store st'.store
  output : ∃ text, st'.output = st.output ++ text

namespace State.Restores

variable {st st' st'' : State}

theorem of_store {s : Store} (h : Store.Grows 0 st.store s) : st.Restores { st with store := s } :=
  ⟨rfl, rfl, rfl, h, "", String.append_empty.symm⟩

theorem refl (st : State) : st.Restores st :=
  of_store (.refl 0)

theorem trans (h : st.Restores st') (h' : st'.Restores st'') : st.Restores st'' where
  current := h'.current.trans h.current
  calls := h'.calls.trans h.calls
  table := h'.table.trans h.table
  store := h.store.trans h'.store
  output := by
    obtain ⟨text, htext⟩ := h.output
    obtain ⟨more, hmore⟩ := h'.output
    exact ⟨text ++ more, by rw [hmore, htext, String.append_assoc]⟩

theorem define (st : State) (name : Token) (v : Value) : st.Restores (st.define name v) :=
  of_store (Store.Grows.define.weaken (Nat.zero_le _))

theorem write (st : State) (scope : ScopeRef) (name : Token) (v : Value) :
    st.Restores (st.write scope name v) :=
  of_store (Store.Grows.define.weaken (Nat.zero_le _))

theorem defineFunction (st : State) (decl : FunctionDecl) : st.Restores (st.defineFunction decl) := by
  have hclosure : st.Restores { st with store := (st.store.newClosure decl st.current false).2 } :=
    of_store (.of_scopes_eq rfl)
  exact hclosure.trans (define _ _ _)

theorem bind (st : State) (m : Closure) (receiver : InstanceRef) :
    st.Restores (st.bind m receiver).2 := by
  have hscope : Store.Grows 0 st.store (st.store.newScope
      (NameMap.empty.insert Keyword.this.text (.object receiver)) (some m.scope)).2 :=
    Store.Grows.newScope.weaken (Nat.zero_le _)
  exact of_store (hscope.trans (.of_scopes_eq rfl))

theorem print (st : State) (text : String) : st.Restores (st.print text) :=
  ⟨rfl, rfl, rfl, .refl 0, text ++ "\n", String.append_assoc⟩

/-- A scope that is entered can be left again. -/
theorem enter (st : State) (bindings : NameMap Value) (enclosing : ScopeRef) :
    st.Restores { st.enter bindings enclosing with current := st.current } :=
  of_store (Store.Grows.newScope.weaken (Nat.zero_le _))

theorem newClass (st : State) (name : Token) (superclass : Option Class)
    (methods : List FunctionDecl) : st.Restores (st.newClass name superclass methods).2 := by
  apply of_store
  cases superclass with
  | none => exact .of_scopes_eq (scopes_newMethods st.store st.current methods)
  | some c =>
    have hscope : Store.Grows 0 st.store (st.store.newScope
        (NameMap.empty.insert Keyword.super.text (.cls c)) (some st.current)).2 :=
      Store.Grows.newScope.weaken (Nat.zero_le _)
    exact hscope.trans (.of_scopes_eq (scopes_newMethods _ _ methods))

/-- On the way out it does not matter what happened on the way in. -/
theorem unwind {goal y : Yield} (h : st.Restores st') (k : Cont goal y) :
    (k.unwind st).Restores (k.unwind st') := by
  induction k generalizing st st' with
  | halt => exact h
  | endCall k ih =>
    apply ih
    exact { h with calls := congrArg (· - 1) h.calls }
  | leaveScope outer k ih =>
    apply ih
    exact { h with current := rfl }
  | _ =>
    rename_i ih
    exact ih h

end State.Restores

/-! ## Steps -/

variable {goal : Yield}

/-- Whether a step still leads back to a state. -/
def Step.Restores (st : State) : Step goal → Prop
  | .next task st' => st.Restores (task.unwind st')
  | .done _ st' => st.Restores st'
  | .failed _ st' => st.Restores st'

theorem Step.Restores.of_restores {st st' : State} {step : Step goal} (h : step.Restores st')
    (hst : st.Restores st') : step.Restores st := by
  cases step <;> exact hst.trans h

theorem Task.Unfolds.unwind_eq {st : State} {task task' : Task goal} (h : task.Unfolds st task')
    (st' : State) : task'.unwind st' = task.unwind st' := by
  cases h <;> rfl

namespace Machine

variable {st : State}

/-- The scope of a body is left at its end. -/
theorem enterBody_restores (closure : Closure) (arguments : List Value) (k : Cont goal .value)
    (st : State) : (enterBody closure arguments k st).Restores (k.unwind st) :=
  (State.Restores.enter st _ closure.scope).unwind k

/-- A step changes the state in such a way that it is still known how to get back. -/
theorem Rule.restores {limit : Nat} {task : Task goal} {step : Step goal}
    (h : Rule limit st task step) : step.Restores (task.unwind st) := by
  have hobject (c : Class) : st.Restores { st with store := (st.store.newInstance c).2 } :=
    .of_store (.of_scopes_eq rfl)
  cases h with
  | halts outcome => cases goal <;> exact .refl _
  | fails h => exact .refl _
  | failsBase name methods k h => exact (State.Restores.define st name .nil).unwind k
  | unfolds h =>
    rw [Step.Restores, h.unwind_eq]
    exact .refl _
  | varDecl name k => exact (State.Restores.define st name .nil).unwind k
  | define v name k => exact (State.Restores.define st name v).unwind k
  | funDecl d k => exact (State.Restores.defineFunction st d).unwind k
  | subclass name reference methods k => exact (State.Restores.define st name .nil).unwind k
  | base name methods k h =>
    have hclass := State.Restores.newClass (st.define name .nil) name none methods
    exact (((State.Restores.define st name .nil).trans hclass).trans (.write _ _ name _)).unwind k
  | derived c name reference methods k h =>
    have hclass := State.Restores.newClass st name (some c) methods
    exact (hclass.trans (.write _ _ name _)).unwind k
  | assign v target k h => exact (State.Restores.write st _ target.name v).unwind k
  | setField v object name k =>
    have hfield : st.Restores { st with store := st.store.setField object name.lexeme v } :=
      .of_store (.of_scopes_eq rfl)
    exact hfield.unwind k
  | inherited target method k h hm => exact (State.Restores.bind st _ _).unwind k
  | method object name k h => exact (State.Restores.bind st _ object).unwind k
  | print v k => exact (State.Restores.print st _).unwind k
  | block body k => exact (State.Restores.enter st .empty st.current).unwind k
  | leaveScope f outer k => exact .refl _
  | function closure arguments k h harity hlt =>
    rw [h.unwind_eq]
    exact enterBody_restores closure arguments (.endCall k) { st with calls := st.calls + 1 }
  | newInstance c k h hlt hm =>
    rw [h.unwind_eq]
    exact (hobject c).unwind k
  | initializer c m arguments k h harity hlt hm =>
    have hbound := (hobject c).trans (.bind _ m (st.store.newInstance c).1)
    rw [h.unwind_eq]
    exact (enterBody_restores _ arguments _ _).of_restores (hbound.unwind k)
  | endCall v k => exact .refl _

/-- No step changes where the machine gets back to. -/
theorem step_restores (limit : Nat) (task : Task goal) (st : State) :
    (step limit task st).Restores (task.unwind st) :=
  (step_rule limit task st).restores

/-- A call that is open is closed again at its end. -/
theorem call_restores (limit : Nat) (callee : Value) (closing : Token) (arguments : List Value)
    (k : Cont goal .value) :
    (call limit callee closing arguments k st).Restores (k.unwind st) := by
  obtain ⟨task, htask⟩ := Task.exists_calls callee closing arguments k
  rw [← htask.step_eq, ← htask.unwind_eq]
  exact step_restores limit task st

theorem keeps_restores {limit : Nat} (st : State) :
    Keeps limit (Step.Restores st : Step goal → Prop) :=
  fun task st₁ h => (step_restores limit task st₁).of_restores h

/-- No step changes what is known of references. -/
theorem table_of_next {limit : Nat} {task task' : Task goal} {st' : State}
    (h : step limit task st = .next task' st') : st'.table = st.table := by
  have hstep := step_restores limit task st
  rw [h] at hstep
  rw [← task'.table_unwind st', hstep.table, task.table_unwind]

end Machine

/-! ## Runs -/

variable {limit n : Nat} {st st' : State} {y : Yield}

/-- A run that ends is back where it leads to. -/
theorem Step.Restores.runFor {step : Step goal} {r : Except RuntimeError goal.Outcome}
    (hstep : step.Restores st) (h : step.runFor limit n = some (r, st')) : st.Restores st' := by
  have hend := (Machine.keeps_restores st).runFor hstep h
  cases r <;> exact hend

theorem Machine.run_restores {task : Task goal} {r : Except RuntimeError goal.Outcome}
    (h : run limit n task st = some (r, st')) : (task.unwind st).Restores st' := by
  have hstep : (Step.next task st).Restores (task.unwind st) := .refl _
  exact hstep.runFor h

/-- What a machine can be asked to carry out. A block is given the scope that its
statements run in. -/
inductive Activation : Yield → Type where
  | execute (s : Stmt) : Activation .flow
  | executeBlock (body : List Stmt) (scope : ScopeRef) : Activation .flow
  | evaluate (e : Expr) : Activation .value
  | call (callee : Value) (closing : Token) (arguments : List Value) : Activation .value

namespace Activation

/-- Begin to carry something out, with what comes after it. -/
def begin (limit : Nat) (a : Activation y) (k : Cont goal y) (st : State) : Step goal :=
  match a with
  | .execute s => .next (.exec s k) st
  | .executeBlock body scope =>
      .next (.flow .normal (.sequence body (.leaveScope st.current k))) { st with current := scope }
  | .evaluate e => .next (.eval e k) st
  | .call callee closing arguments => Machine.call limit callee closing arguments k st

/-- A block statement is carried out as a block in a new scope. -/
theorem step_block (body : List Stmt) (k : Cont goal .flow) (st : State) :
    Machine.step limit (.exec (.block body) k) st =
      (executeBlock body st.store.scopes.size).begin limit k
        { st.enter .empty st.current with current := st.current } :=
  rfl

/-- The body of a function is carried out as a block in a scope of its parameters. -/
theorem enterBody_eq (closure : Closure) (arguments : List Value) (k : Cont goal .value)
    (st : State) :
    ∃ bindings, Machine.enterBody closure arguments k st =
      (executeBlock closure.decl.body st.store.scopes.size).begin limit (.endBody closure k)
        { st.enter bindings closure.scope with current := st.current } :=
  ⟨_, rfl⟩

theorem begin_append (limit : Nat) (a : Activation y) (rest : Cont goal y) (st : State) :
    (a.begin limit .halt st).append rest = a.begin limit rest st := by
  cases a with
  | call callee closing arguments => exact (Machine.call_append limit callee closing arguments .halt).symm
  | _ => rfl

theorem begin_restores (limit : Nat) (a : Activation y) (k : Cont goal y) (st : State) :
    (a.begin limit k st).Restores (k.unwind st) := by
  cases a with
  | call callee closing arguments => exact Machine.call_restores limit callee closing arguments k
  | _ => exact .refl _

/-- Whether a machine is put back however an activation ends. Inside a larger run the
activation ends as it does alone: there the run goes on from the very same state, or it
fails and the state is unwound further. -/
structure PutsBack (limit : Nat) (a : Activation y) (st : State) : Prop where
  restores : ∀ n r st', (a.begin limit .halt st).runFor limit n = some (r, st') → st.Restores st'
  goesOn : ∀ n outcome st', (a.begin limit .halt st).runFor limit n = some (.ok outcome, st') →
    ∀ {goal : Yield} (rest : Cont goal y), ∃ m, ∀ more,
      (a.begin limit rest st).runFor limit (m + more) =
        Machine.run limit more (.receive y outcome rest) st'
  fails : ∀ n error st', (a.begin limit .halt st).runFor limit n = some (.error error, st') →
    ∀ {goal : Yield} (rest : Cont goal y), ∃ m,
      (a.begin limit rest st).runFor limit m = some (.error error, rest.unwind st')
  ends : ∀ {goal : Yield} (rest : Cont goal y) n res,
    (a.begin limit rest st).runFor limit n = some res →
      ∃ r st', (a.begin limit .halt st).runFor limit n = some (r, st')

theorem putsBack (limit : Nat) (a : Activation y) (st : State) : a.PutsBack limit st where
  restores n r st' h := (a.begin_restores limit .halt st).runFor h
  goesOn n outcome st' h goal rest := by
    obtain ⟨m, hm⟩ := Step.runFor_append h rest
    rw [begin_append] at hm
    exact ⟨m, hm⟩
  fails n error st' h goal rest := by
    obtain ⟨m, hm⟩ := Step.runFor_append h rest
    rw [begin_append] at hm
    exact ⟨m, hm 0⟩
  ends rest n res h := by
    cases halone : (a.begin limit .halt st).runFor limit n with
    | some res => exact ⟨res.1, res.2, rfl⟩
    | none =>
      have hnone := Step.runFor_append_none halone rest
      rw [begin_append, h] at hnone
      cases hnone

end Activation

/-! ## Sessions -/

namespace Session

/-- A session between two sources is among the globals, with no call open. -/
theorem Reachable.atRest {s : Session} (h : Reachable s) :
    s.state.current = Store.globals ∧ s.state.calls = 0 := by
  induction h with
  | fresh => exact ⟨rfl, rfl⟩
  | run _ hrun ih =>
    obtain ⟨nextId, -, rfl⟩ | ⟨program, table, nextId, outcome, -, hmachine, -, -⟩ := run_cases hrun
    · exact ih
    · have hback := Machine.run_restores hmachine
      exact ⟨hback.current.trans ih.1, hback.calls.trans ih.2⟩
  | evaluate _ hrun ih =>
    obtain ⟨nextId, -, rfl⟩ | ⟨tokens, e, nextId, outcome, -, -, hmachine, -, -⟩ :=
      evaluate_cases hrun
    · exact ih
    · have hback := Machine.run_restores hmachine
      exact ⟨hback.current.trans ih.1, hback.calls.trans ih.2⟩

end Session

/-- Whatever is carried out, from whatever state and by whatever table, the machine is
put back when it ends. So a session is among the globals between any two sources, with
no call open. -/
theorem execution_puts_back (limit : Nat) :
    (∀ {y : Yield} (a : Activation y) (st : State), a.PutsBack limit st) ∧
      ∀ s : Session, s.Reachable → s.state.current = Store.globals ∧ s.state.calls = 0 :=
  ⟨Activation.putsBack limit, fun _ => Session.Reachable.atRest⟩

/-- A function whose body fails inside a block, called from a block, and called with
three calls open in a scope that does not exist. -/
theorem execution_puts_back_failing_call : ∃ s s' failure callee closing error st,
    Session.fresh.run ⟨9, 30⟩ "fun f() \x7b \x7b -nil; \x7d \x7d" = some (.ok (), s) ∧
      s.run ⟨9, 30⟩ "\x7b f(); \x7d" = some (.error failure, s') ∧
      s'.state.current = Store.globals ∧ s'.state.calls = 0 ∧
      s.state.store.local? Store.globals "f" = some callee ∧
      ((Activation.call callee closing []).begin 9 .halt
        { s.state with current := 5, calls := 3 }).runFor 9 30 = some (.error error, st) ∧
      st.current = 5 ∧ st.calls = 3 := by
  obtain ⟨s, s', failure, callee, error, st, hfun, hrun, hcallee, hcall⟩ :
      ∃ s s' failure callee error st,
        Session.fresh.run ⟨9, 30⟩ "fun f() \x7b \x7b -nil; \x7d \x7d" = some (.ok (), s) ∧
        s.run ⟨9, 30⟩ "\x7b f(); \x7d" = some (.error failure, s') ∧
        s.state.store.local? Store.globals "f" = some callee ∧
        ((Activation.call callee (.endOfInput 1) []).begin 9 .halt
          { s.state with current := 5, calls := 3 }).runFor 9 30 = some (.error error, st) :=
    ⟨_, _, _, _, _, _, by cbv, by cbv, by cbv, by cbv⟩
  obtain ⟨hactivation, hsession⟩ := execution_puts_back 9
  obtain ⟨hcurrent, hcalls⟩ := hsession s' (.run (.run .fresh hfun) hrun)
  have hback := (hactivation _ _).restores _ _ _ hcall
  exact ⟨s, s', failure, callee, _, error, st, hfun, hrun, hcurrent, hcalls, hcallee, hcall,
    hback.current, hback.calls⟩

end Lox
