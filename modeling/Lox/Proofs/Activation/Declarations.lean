import Lox.Proofs.Activation.Outcomes
import Mathlib

/-!
# Declarations that fail

A declaration that ends in a runtime error has changed no more than what it evaluates
has. The exception is a class with a superclass: its name is bound before the superclass
is looked up, so a value that the name had is lost when the class cannot be made.
-/

namespace Lox

/-- What a declaration evaluates before it has its value. -/
def Stmt.operand? : Stmt → Option Expr
  | .varDecl _ initializer => initializer
  | .classDecl _ superclass _ => superclass.map .variable
  | _ => none

/-- Whether a statement declares a class with a superclass. -/
def Stmt.Inherits : Stmt → Prop
  | .classDecl _ superclass _ => superclass.isSome
  | _ => False

/-- Whether what a declaration evaluates, evaluated alone, turns one state into another. -/
def Stmt.OperandLeaves (limit : Nat) (d : Stmt) (st st' : State) : Prop :=
  match d.operand? with
  | none => st' = st
  | some e => ∃ r, (Activation.evaluate e).Ends limit st (r, st')

/-- The value that the current scope itself holds for a name. -/
def State.binding? (st : State) (name : Token) : Option Value :=
  st.store.local? st.current name.lexeme

variable {limit : Nat} {st st' : State} {name : Token} {error : RuntimeError}

theorem State.binding?_define (h : st.current < st.store.scopes.size) (v : Value) :
    (st.define name v).binding? name = some v :=
  Store.local?_define_self h

namespace Machine

/-- A class can be made in any scope that exists, once its name is bound there. -/
theorem defineClass_fails {superclass : Option Class} {methods : List FunctionDecl}
    (h : (defineClass name superclass methods (.halt : Cont .flow .flow) st).Ends limit
      (.error error, st')) :
    st' = st ∧ st.binding? name = none := by
  unfold defineClass at h
  cases howner : st.store.owner? st.current name.lexeme with
  | none =>
    rw [howner] at h
    cases Step.ends_failed_iff.mp h
    exact ⟨rfl, Store.local?_of_owner?_eq_none howner⟩
  | some scope =>
    rw [howner] at h
    cases Step.ends_done_iff.mp ((Step.ends_next_iff _).mp h)

end Machine

namespace Activation

open Step (ends_next_iff ends_done_iff ends_failed_iff)

/-- Looking a variable up changes nothing. -/
theorem variable_ends (limit : Nat) (st : State) (target : Reference) :
    ∃ r, (evaluate (.variable target)).Ends limit st (r, st) := by
  simp only [evaluate_ends_iff, Machine.eval]
  cases st.read target with
  | none => exact ⟨_, ends_failed_iff.mpr rfl⟩
  | some v => exact ⟨.ok v, (ends_next_iff _).mpr (ends_done_iff.mpr rfl)⟩

/-- A variable fails if its initializer does. -/
theorem varDecl_fails {initializer : Option Expr}
    (h : (execute (.varDecl name initializer)).Ends limit st (.error error, st')) :
    (Stmt.varDecl name initializer).OperandLeaves limit st st' := by
  rw [execute_ends_iff] at h
  cases initializer with
  | none => cases ends_done_iff.mp ((ends_next_iff _).mp h)
  | some e =>
    obtain ⟨v, st₁, -, hrest⟩ | ⟨error, st₁, he, hres⟩ :=
      (eval_ends_iff e (.define name .halt)).mp h
    · cases ends_done_iff.mp ((ends_next_iff _).mp hrest)
    · cases hres
      exact ⟨_, he⟩

theorem funDecl_fails {function : FunctionDecl}
    (h : (execute (.funDecl function)).Ends limit st (.error error, st')) : False := by
  cases ends_done_iff.mp ((ends_next_iff _).mp ((ends_next_iff _).mp h))

/-- A class without a superclass fails only in a scope that does not exist. -/
theorem base_classDecl_fails {methods : List FunctionDecl}
    (h : (execute (.classDecl name none methods)).Ends limit st (.error error, st')) :
    st' = st := by
  simp only [execute_ends_iff, Machine.exec] at h
  obtain ⟨rfl, hunbound⟩ := Machine.defineClass_fails h
  have hsize : st.store.scopes.size ≤ st.current := by
    refine Nat.le_of_not_lt fun hlt => ?_
    rw [State.binding?_define hlt] at hunbound
    cases hunbound
  rw [State.define, Store.define_of_size_le hsize]

/-- A class with a superclass leaves its name bound to nothing. -/
theorem derived_classDecl_fails {superclass : Reference} {methods : List FunctionDecl}
    (h : (execute (.classDecl name (some superclass) methods)).Ends limit st (.error error, st')) :
    st' = st.define name .nil := by
  rw [execute_ends_iff] at h
  obtain ⟨r, hvariable⟩ := variable_ends limit (st.define name .nil) superclass
  obtain ⟨v, st₁, hv, hrest⟩ | ⟨error, st₁, he, hres⟩ :=
    (eval_ends_iff (.variable superclass) (.superclass name superclass methods .halt)).mp h
  · cases hv.unique hvariable
    cases v with
    | cls c =>
      simp only [Machine.resume] at hrest
      exact (Machine.defineClass_fails hrest).1
    | _ =>
      cases ends_failed_iff.mp hrest
      rfl
  · cases hres
    cases he.unique hvariable
    rfl

/-- What a declaration that fails has changed. -/
theorem declaration_fails {d : Stmt} (hname : d.declared? = some name)
    (h : (execute d).Ends limit st (.error error, st')) :
    ∃ st₁, d.OperandLeaves limit st st₁ ∧ (¬d.Inherits → st' = st₁) ∧
      (d.Inherits → st₁ = st ∧ st' = st.define name .nil) := by
  cases d with
  | varDecl _ initializer =>
    exact ⟨st', varDecl_fails h, fun _ => rfl, fun hinherits => hinherits.elim⟩
  | funDecl function => exact (funDecl_fails h).elim
  | classDecl _ superclass methods =>
    cases hname
    cases superclass with
    | none =>
      exact ⟨st, rfl, fun _ => base_classDecl_fails h, fun hinherits => by cases hinherits⟩
    | some superclass =>
      exact ⟨st, variable_ends limit st superclass, fun hbase => absurd rfl hbase,
        fun _ => ⟨rfl, derived_classDecl_fails h⟩⟩
  | _ => cases hname

/-- A program that fails does so at one of its statements. -/
theorem program_fails {ss : List Stmt}
    (h : (Step.next (Machine.program ss) st).Ends limit (.error error, st')) :
    ∃ before s behind st₁, ss = before ++ s :: behind ∧
      (Step.next (Machine.program before) st).Ends limit (.ok .normal, st₁) ∧
      (execute s).Ends limit st₁ (.error error, st') := by
  induction ss generalizing st with
  | nil => cases Machine.program_nil_ends_iff.mp h
  | cons s ss ih =>
    obtain ⟨st₁, hs, hrest⟩ | ⟨hs, -⟩ := (Machine.program_cons_ends_iff s ss).mp h
    · obtain ⟨before, t, behind, st₂, rfl, hbefore, ht⟩ := ih hrest
      exact ⟨s :: before, t, behind, st₂, rfl,
        (Machine.program_cons_ends_iff s before).mpr (.inl ⟨st₁, hs, hbefore⟩), ht⟩
    · exact ⟨[], s, ss, st, rfl, Machine.program_nil_ends_iff.mpr rfl, hs⟩

end Activation

/-- A session keeps the state that the statement which failed has left. -/
theorem Session.Accepts.state_of_fails {s s' : Session} {source : String} {program : List Stmt}
    {table : BindingTable} {nextId : NodeId} {limits : Limits}
    (h : s.Accepts source program table nextId)
    (hrun : s.run limits source = some (.error (.ofRuntime error), s')) :
    (Step.next (Machine.program program) (s.state.learn table)).Ends limits.calls
      (.error error, s'.state) := by
  rw [h.run_eq_machine, Option.map_eq_some_iff] at hrun
  obtain ⟨⟨outcome, st⟩, hmachine, hres⟩ := hrun
  cases outcome with
  | ok f => cases hres
  | error e =>
    cases hres
    exact ⟨limits.steps, hmachine⟩

/-- A declaration that fails leaves what evaluating its initializer alone leaves, unless it
declares a class with a superclass. That leaves its name bound to `nil`: the value that the
name had in the scope stays only if it was `nil`. A source that fails does so at one of its
statements, and the session goes on from the state that this statement has left. -/
theorem failed_declarations_keep_bindings_unless_inheriting (limit : Nat) :
    (∀ (d : Stmt) (name : Token) (st st' : State) (error : RuntimeError),
      d.declared? = some name → (Activation.execute d).Ends limit st (.error error, st') →
        ∃ st₁, d.OperandLeaves limit st st₁ ∧ (¬d.Inherits → st' = st₁) ∧
          (d.Inherits → st₁ = st ∧ st' = st.define name .nil) ∧
          (st.current < st.store.scopes.size →
            (st'.binding? name = st₁.binding? name ↔
              (d.Inherits → st.binding? name = some .nil)))) ∧
    ∀ (s s' : Session) (source : String) (program : List Stmt) (table : BindingTable)
      (nextId : NodeId) (steps : Nat) (error : RuntimeError),
      s.Accepts source program table nextId →
      s.run ⟨limit, steps⟩ source = some (.error (.ofRuntime error), s') →
        ∃ before d behind st, program = before ++ d :: behind ∧
          (Step.next (Machine.program before) (s.state.learn table)).Ends limit
            (.ok .normal, st) ∧
          (Activation.execute d).Ends limit st (.error error, s'.state) := by
  refine ⟨fun d name st st' error hname h => ?_,
    fun s s' source program table nextId steps error haccepts hrun =>
      Activation.program_fails (haccepts.state_of_fails hrun)⟩
  obtain ⟨st₁, hoperand, hplain, hinherits⟩ := Activation.declaration_fails hname h
  refine ⟨st₁, hoperand, hplain, hinherits, fun hlt => ?_⟩
  by_cases hd : d.Inherits
  · obtain ⟨rfl, rfl⟩ := hinherits hd
    rw [State.binding?_define hlt, eq_comm]
    exact ⟨fun h _ => h, fun h => h hd⟩
  · obtain rfl := hplain hd
    exact iff_of_true rfl fun h => absurd h hd

/-- A class that cannot be made takes away the value that its name had. -/
theorem failed_declarations_keep_bindings_unless_inheriting_lost : ∃ s s' d st error name,
    Session.fresh.run ⟨9, 30⟩ "var A = \"x\";" = some (.ok (), s) ∧
      s.run ⟨9, 30⟩ "class A < B \x7b\x7d" = some (.error (.ofRuntime error), s') ∧
      d.declared? = some name ∧ (Activation.execute d).Ends 9 st (.error error, s'.state) ∧
      st.binding? name = some (.string "x") ∧ s'.state.binding? name = some .nil := by
  obtain ⟨s, s', name, d, table, nextId, error, hfirst, haccepts, hname, hinherits, hvalue, hlt,
      hrun⟩ : ∃ s s' name d table nextId error,
        Session.fresh.run ⟨9, 30⟩ "var A = \"x\";" = some (.ok (), s) ∧
        s.Accepts "class A < B \x7b\x7d" [d] table nextId ∧ d.declared? = some name ∧ d.Inherits ∧
        (s.state.learn table).binding? name = some (.string "x") ∧
        (s.state.learn table).current < (s.state.learn table).store.scopes.size ∧
        s.run ⟨9, 30⟩ "class A < B \x7b\x7d" = some (.error (.ofRuntime error), s') :=
    ⟨_, _, _, _, _, _, _, by cbv, ⟨⟨_, by cbv, by cbv⟩, by rfl⟩, by rfl, by rfl, by rfl,
      by decide, by cbv⟩
  obtain ⟨hdeclaration, hsession⟩ := failed_declarations_keep_bindings_unless_inheriting 9
  obtain ⟨before, d', behind, st, hprogram, hbefore, hd⟩ :=
    hsession s s' _ _ _ _ _ _ haccepts hrun
  cases before with
  | cons first before => simp at hprogram
  | nil =>
    cases hprogram
    obtain rfl : st = s.state.learn table := by
      cases Machine.program_nil_ends_iff.mp hbefore
      rfl
    obtain ⟨st₁, -, -, hinherited, -⟩ := hdeclaration d name _ _ _ hname hd
    refine ⟨s, s', d, _, error, name, hfirst, hrun, hname, hd, hvalue, ?_⟩
    rw [(hinherited hinherits).2, State.binding?_define hlt]

end Lox
