import Lox.Proofs.Activation.Outcomes

/-!
# Scopes that stay blank

A statement that declares nothing where it stands leaves a blank scope blank in which it
runs, whatever it calls: only a declaration gives a scope a name that it has not, and
everything that declares runs in a scope of its own.
-/

namespace Lox

/-! ## Stores -/

/-- Whether a scope holds no names and lies inside another one. -/
def Store.IsBlank (s : Store) (scope outer : ScopeRef) : Prop :=
  s.scopes[scope]? = some ⟨.empty, some outer⟩

namespace Store.IsBlank

variable {s s' : Store} {blank outer scope : ScopeRef} {name : String} {v : Value}

theorem local?_eq_none (h : s.IsBlank blank outer) (name : String) :
    s.local? blank name = none := by
  rw [local?, h]
  rfl

theorem enclosing?_eq (h : s.IsBlank blank outer) : s.enclosing? blank = some outer := by
  rw [enclosing?, h]
  rfl

theorem lt_size (h : s.IsBlank blank outer) : blank < s.scopes.size :=
  lt_of_enclosing? h.enclosing?_eq

theorem of_scopes_eq (h : s.IsBlank blank outer) (hscopes : s'.scopes = s.scopes) :
    s'.IsBlank blank outer := by
  rwa [IsBlank, hscopes]

theorem define (h : s.IsBlank blank outer) (hne : scope ≠ blank) :
    (s.define scope name v).IsBlank blank outer := by
  rw [IsBlank, Store.define, Array.getElem?_modify, if_neg hne]
  exact h

/-- A name that has a value elsewhere gets a new one there. -/
theorem write (h : s.IsBlank blank outer) (hlocal : (s.local? scope name).isSome) :
    (s.define scope name v).IsBlank blank outer := by
  refine h.define ?_
  rintro rfl
  rw [h.local?_eq_none] at hlocal
  cases hlocal

theorem newScope (h : s.IsBlank blank outer) (bindings : NameMap Value)
    (enclosing : Option ScopeRef) : (s.newScope bindings enclosing).2.IsBlank blank outer := by
  rw [IsBlank, Store.newScope, Array.getElem?_push, if_neg (Nat.ne_of_lt h.lt_size)]
  exact h

theorem newMethods (h : s.IsBlank blank outer) (scope : ScopeRef) (ds : List FunctionDecl) :
    (State.newMethods s scope ds).2.IsBlank blank outer :=
  h.of_scopes_eq (State.scopes_newMethods s scope ds)

theorem bindMethod (h : s.IsBlank blank outer) (m : Closure) (receiver : InstanceRef) :
    (s.bindMethod m receiver).2.IsBlank blank outer :=
  (h.newScope _ _).of_scopes_eq rfl

theorem newClass {st : State} (h : st.store.IsBlank blank outer) (name : Token)
    (superclass : Option Class) (methods : List FunctionDecl) :
    (st.newClass name superclass methods).2.store.IsBlank blank outer := by
  cases superclass with
  | none => exact (h.newMethods st.current methods).of_scopes_eq rfl
  | some c => exact ((h.newScope _ _).newMethods _ methods).of_scopes_eq rfl

end Store.IsBlank

/-! ## Tasks -/

variable {goal y : Yield}

/-- Whether what a continuation does from one scope declares nothing in another. -/
def Cont.Spares (blank : ScopeRef) : {y : Yield} → Cont goal y → ScopeRef → Prop
  | _, .halt, _ => True
  | _, .unary _ _ k, scope => k.Spares blank scope
  | _, .binaryLeft _ _ _ k, scope => k.Spares blank scope
  | _, .binaryRight _ _ _ k, scope => k.Spares blank scope
  | _, .logical _ _ k, scope => k.Spares blank scope
  | _, .assign _ k, scope => k.Spares blank scope
  | _, .get _ k, scope => k.Spares blank scope
  | _, .setObject _ _ k, scope => k.Spares blank scope
  | _, .setValue _ _ k, scope => k.Spares blank scope
  | _, .callee _ _ k, scope => k.Spares blank scope
  | _, .argument _ _ _ _ k, scope => k.Spares blank scope
  | _, .construct _ k, scope => k.Spares blank scope
  | _, .endCall k, scope => k.Spares blank scope
  | _, .discard k, scope => k.Spares blank scope
  | _, .print k, scope => k.Spares blank scope
  | _, .define _ k, scope => scope ≠ blank ∧ k.Spares blank scope
  | _, .ret k, scope => k.Spares blank scope
  | _, .branch yes no k, scope =>
      (scope = blank → yes.IsBare ∧ Stmt.IsBareOptional no) ∧ k.Spares blank scope
  | _, .loopTest _ body k, scope => (scope = blank → body.IsBare) ∧ k.Spares blank scope
  | _, .superclass _ _ _ k, scope => k.Spares blank scope
  | _, .sequence rest k, scope => (scope = blank → ∀ s ∈ rest, s.IsBare) ∧ k.Spares blank scope
  | _, .leaveScope outer k, _ => k.Spares blank outer
  | _, .loopBody _ body k, scope => (scope = blank → body.IsBare) ∧ k.Spares blank scope
  | _, .endBody _ k, scope => k.Spares blank scope

/-- Whether a task that is carried out in one scope declares nothing in another. -/
def Task.Spares (blank : ScopeRef) (task : Task goal) (scope : ScopeRef) : Prop :=
  match task with
  | .eval _ k => k.Spares blank scope
  | .exec s k => (scope = blank → s.IsBare) ∧ k.Spares blank scope
  | .value _ k => k.Spares blank scope
  | .flow _ k => k.Spares blank scope

/-- Whether a scope is blank, and what a step leads to declares nothing there. -/
def Step.Spares (blank outer : ScopeRef) : Step goal → Prop
  | .next task st => st.store.IsBlank blank outer ∧ task.Spares blank st.current
  | .done _ st => st.store.IsBlank blank outer
  | .failed _ st => st.store.IsBlank blank outer

section

variable {blank outer : ScopeRef} {st : State} {limit : Nat} {task task' : Task goal}

theorem Task.Calls.spares {called : Value} {closing : Token} {arguments : List Value}
    {k : Cont goal .value} {scope : ScopeRef} (hcalls : task.Calls called closing arguments k)
    (h : task.Spares blank scope) : k.Spares blank scope := by
  cases hcalls <;> exact h

theorem Task.Unfolds.spares (hunfolds : task.Unfolds st task')
    (h : task.Spares blank st.current) : task'.Spares blank st.current := by
  cases hunfolds with
  | expression | print | ret | retNothing | neither | isOver | finished | skipped | leavesLoop =>
    exact h.2
  | yes yes no k htruthy => exact ⟨fun heq => (h.1 heq).1, h.2⟩
  | no yes no k htruthy => exact ⟨fun heq => (h.1 heq).2, h.2⟩
  | goesRound condition body k htruthy => exact ⟨h.1, h⟩
  | first s rest k =>
    exact ⟨fun heq => h.1 heq s List.mem_cons_self,
      fun heq t ht => h.1 heq t (List.mem_cons_of_mem _ ht), h.2⟩
  | _ => exact h

namespace Machine

/-- What runs in a scope that has just been made declares nothing in an older one. -/
theorem sequence_spares {s : State} (h : s.store.IsBlank blank outer) {k : Cont goal .flow}
    (hk : k.Spares blank s.current) (bindings : NameMap Value) (enclosing : ScopeRef)
    (body : List Stmt) :
    (Step.next (.flow .normal (.sequence body (.leaveScope s.current k)))
      (s.enter bindings enclosing)).Spares blank outer :=
  ⟨h.newScope _ _, fun heq => absurd heq (Nat.ne_of_gt h.lt_size), hk⟩

/-- A class is assigned to its name where that has a value already. -/
theorem newClass_spares {s : State} (h : s.store.IsBlank blank outer) {k : Cont goal .flow}
    (hk : k.Spares blank s.current) {name : Token} {scope : ScopeRef}
    (howner : s.store.owner? s.current name.lexeme = some scope) (superclass : Option Class)
    (methods : List FunctionDecl) :
    (Step.next (.flow .normal k) ((s.newClass name superclass methods).2.write scope name
      (.cls (s.newClass name superclass methods).1))).Spares blank outer := by
  have hne : scope ≠ blank := by
    rintro rfl
    have hlocal := Store.local?_of_owner? howner
    rw [h.local?_eq_none] at hlocal
    cases hlocal
  exact ⟨(h.newClass name superclass methods).define hne, hk⟩

theorem Rule.spares {step : Step goal} (hrule : Rule limit st task step)
    (h : st.store.IsBlank blank outer) (htask : task.Spares blank st.current) :
    step.Spares blank outer := by
  cases hrule with
  | halts outcome => exact h
  | fails hfails =>
    rw [Step.Spares, Task.store_unwind]
    exact h
  | failsBase name methods k hnone =>
    rw [Step.Spares, Cont.store_unwind]
    exact h.define htask.1
  | unfolds hunfolds => exact ⟨h, hunfolds.spares htask⟩
  | varDecl name k | subclass name reference methods k => exact ⟨h.define htask.1, htask.2⟩
  | define v name k => exact ⟨h.define htask.1, htask.2⟩
  | funDecl d k => exact ⟨(h.of_scopes_eq rfl).define htask.1, htask.2⟩
  | base name methods k howner =>
    exact newClass_spares (s := st.define name .nil) (h.define htask.1) htask.2 howner none methods
  | derived c name reference methods k howner =>
    exact newClass_spares (k := k) h htask howner (some c) methods
  | assign v target k howner => exact ⟨h.write (State.local?_of_owner? howner), htask⟩
  | setField v object name k => exact ⟨h.of_scopes_eq rfl, htask⟩
  | inherited target method k hfound hm => exact ⟨h.bindMethod _ _, htask⟩
  | method object name k hfound => exact ⟨h.bindMethod _ object, htask⟩
  | print v k | endCall v k => exact ⟨h, htask⟩
  | leaveScope f outer k => exact ⟨h, htask⟩
  | block body k => exact sequence_spares h htask.2 _ _ _
  | function closure arguments k hcalls harity hlt =>
    exact sequence_spares (s := { st with calls := st.calls + 1 })
      (k := .endBody closure (.endCall k)) h (hcalls.spares htask) _ _ _
  | newInstance c k hcalls hlt hm => exact ⟨h.of_scopes_eq rfl, hcalls.spares htask⟩
  | initializer c m arguments k hcalls harity hlt hm =>
    have hobject : (st.store.newInstance c).2.IsBlank blank outer := h.of_scopes_eq rfl
    have hbound := hobject.bindMethod m (st.store.newInstance c).1
    refine sequence_spares
      (s := { st with
        store := ((st.store.newInstance c).2.bindMethod m (st.store.newInstance c).1).2
        calls := st.calls + 1 })
      hbound ?_ _ _ _
    exact hcalls.spares htask

theorem keeps_spares : Keeps limit (Step.Spares blank outer : Step goal → Prop) :=
  fun task st h => (step_rule limit task st).spares h.1 h.2

end Machine

end

/-! ## Runs -/

theorem Step.Spares.runFor {blank outer : ScopeRef} {limit n : Nat} {step : Step goal}
    {r : Except RuntimeError goal.Outcome} {st : State} (hstep : step.Spares blank outer)
    (h : step.runFor limit n = some (r, st)) : st.store.IsBlank blank outer := by
  have hend := Machine.keeps_spares.runFor hstep h
  cases r <;> exact hend

/-- A statement that declares nothing leaves the blank scope blank in which it is executed. -/
theorem Activation.Ends.isBlank {limit : Nat} {s : Stmt} {st st' : State} {outer : ScopeRef}
    {r : Except RuntimeError Flow} (hs : s.IsBare) (hblank : st.store.IsBlank st.current outer)
    (h : (execute s).Ends limit st (r, st')) : st'.store.IsBlank st'.current outer := by
  have hcurrent : st'.current = st.current := h.restores.current
  obtain ⟨n, hn⟩ := h
  have hbegin : (Step.next (.exec s .halt : Task .flow) st).Spares st.current outer :=
    ⟨hblank, fun _ => hs, trivial⟩
  rw [hcurrent]
  exact hbegin.runFor hn

end Lox
