import Lox.Proofs.Activation.CallLimit
import Lox.Proofs.Construction.AnyTables

/-!
# Instances and initializers

A call of a class results in a new instance of that class, and a call of an initializer in
the instance that it was bound to, whatever its body does: the result is read from the scope
of the receiver when the body has ended, and nothing can have changed there. Whoever holds a
method as a value holds one that is bound.

## Implementation notes

A call is looked at alone, with nothing after it. Inside a larger run it ends in the same way,
and the run goes on from there (`Activation.begin_ends_iff`).
-/

namespace Lox

variable {events : List Event} {goal : Yield} {limit : Nat} {st st' : State} {v w : Value}
  {object : InstanceRef} {m f : Closure} {c : Class} {closing : Token} {arguments : List Value}

/-! ## Calls alone -/

namespace Machine.Sealed

/-- A call is begun with receivers where they were put, also if nothing comes after it. -/
theorem call_alone {task : Task goal} {called : Value} {k : Cont goal .value}
    (h : Sealed events task st) (hcalls : task.Calls called closing arguments k) (limit : Nat) :
    ∃ made, (Machine.call limit called closing arguments .halt st : Step .value).Sealed events
      made := by
  cases hcalls with
  | plain called closing k =>
    have halone : Sealed events (.value called (.callee closing [] .halt) : Task .value) st :=
      ⟨h.state, List.forall_mem_singleton.mpr (h.code _ List.mem_cons_self), ⟨h.frames.1, trivial⟩,
        List.forall_mem_singleton.mpr (h.recorded _ List.mem_cons_self), List.forall_mem_nil _⟩
    exact ⟨_, step_sealed limit halone⟩
  | last v called closing done k =>
    have hsub : (Task.value v (.argument called closing done [] .halt) : Task .value).holdings
        st.current ⊆ (Task.value v (.argument called closing done [] k)).holdings st.current := by
      simp only [Task.holdings, Cont.holdings, List.map_nil, List.append_nil, List.nil_append]
      refine List.cons_subset_cons _ (List.cons_subset_cons _ ?_)
      exact List.subset_append_left _ _
    have halone : Sealed events (.value v (.argument called closing done [] .halt) : Task .value)
        st :=
      ⟨h.state, fun x hx => h.code x (hsub hx), ⟨h.frames.1, trivial⟩,
        fun x hx => h.recorded x (hsub hx), List.forall_mem_nil _⟩
    exact ⟨_, step_sealed limit halone⟩

/-- So is a body. -/
theorem body_alone {statements : List Stmt} {outer : ScopeRef} {k : Cont goal .value}
    (h : Sealed events (.flow .normal (.sequence statements (.leaveScope outer (.endBody f k)))) st) :
    Sealed events
      (.flow .normal (.sequence statements (.leaveScope outer .halt)) : Task .flow) st := by
  have hsub : (Task.flow .normal (.sequence statements (.leaveScope outer .halt)) :
      Task .flow).holdings st.current ⊆ (Task.flow .normal (.sequence statements
        (.leaveScope outer (.endBody f k)))).holdings st.current := by
    simp only [Task.holdings, Cont.holdings, Flow.holdings, List.nil_append, List.append_nil]
    exact List.subset_append_left _ _
  exact ⟨h.state, fun x hx => h.code x (hsub hx), trivial, fun x hx => h.recorded x (hsub hx),
    List.forall_mem_singleton.mpr (h.saved _ List.mem_cons_self)⟩

end Machine.Sealed

/-! ## Ends of calls -/

/-- A body that ends leaves receivers where they were put, and instances with their classes.
Then its function has a result. -/
theorem Machine.Sealed.enterBody_ends {made : Option Event} {k : Cont .value .value}
    (h : (enterBody f arguments k st).Sealed events made)
    (hends : (enterBody f arguments k st).Ends limit (.ok v, st')) :
    ∃ outcome st₁, (∃ later, st₁.Sealed (later ++ events)) ∧
      (∀ object c, st.store.class? object = some c → st₁.store.class? object = some c) ∧
        (Step.next (.value (bodyResult f outcome st₁) k) st₁).Ends limit (.ok v, st') := by
  obtain ⟨bindings, hbody⟩ : ∃ bindings, enterBody f arguments k st =
      (Activation.executeBlock f.decl.body st.store.scopes.size).begin limit (.endBody f k)
        { st.enter bindings f.scope with current := st.current } :=
    Activation.enterBody_eq f arguments k st
  rw [hbody] at h hends
  rw [Activation.begin_ends_iff] at hends
  obtain ⟨outcome, st₁, ⟨n, hrun⟩, hrest⟩ | ⟨error, st₁, -, hfails⟩ := hends
  · obtain ⟨⟨later, hsealed⟩, hclass⟩ := (body_alone h).run hrun
    refine ⟨outcome, st₁, ⟨later ++ made.toList, ?_⟩, fun object c hc => hclass object c ?_, ?_⟩
    · rwa [List.append_assoc]
    · exact (Store.class?_of_instances_eq rfl object).trans hc
    · exact (Step.ends_next_iff _).mp hrest
  · cases hfails

/-- A call that is over has its value. -/
theorem Step.endCall_ends (h : (Step.next (.value w (.endCall .halt)) st).Ends limit (.ok v, st')) :
    v = w ∧ st'.store = st.store := by
  have hends := (Step.ends_next_iff _).mp ((Step.ends_next_iff _).mp h)
  cases Step.ends_done_iff.mp hends
  exact ⟨rfl, rfl⟩

/-- The result of an initializer is the receiver. -/
theorem Closure.IsSealed.bodyResult (h : m.IsSealed events st.store object f)
    (hname : m.name = initializerName) (outcome : Flow) :
    Machine.bodyResult f outcome st = .object object := by
  have hinitializer : f.isInitializer = true := h.isInitializer.trans (beq_iff_eq.mpr hname)
  simp only [Machine.bodyResult, hinitializer, if_true, h.only.receiver, Option.getD_some]

namespace Machine

variable {task : Task goal} {k : Cont goal .value}

/-- A call that ends with a value has been begun. -/
theorem call_begins {called : Value}
    (h : (call limit called closing arguments (.halt : Cont .value .value) st).Ends limit
      (.ok v, st')) :
    (∃ f, called = .function f ∧ call limit called closing arguments (.halt : Cont .value .value) st =
      enterBody f arguments (.endCall .halt) { st with calls := st.calls + 1 }) ∨
    ∃ c, called = .cls c ∧ call limit called closing arguments (.halt : Cont .value .value) st =
      instantiate c arguments (.endCall .halt) { st with calls := st.calls + 1 } := by
  by_cases harity : arity? called = some arguments.length
  · by_cases hlt : limit ≤ st.calls
    · rw [call_refuses closing harity hlt] at h
      cases Step.ends_failed_iff.mp h
    · cases called with
      | function f =>
        refine .inl ⟨f, rfl, ?_⟩
        simp only [call, harity, ne_eq, not_true_eq_false, if_false, if_neg hlt]
      | cls c =>
        refine .inr ⟨c, rfl, ?_⟩
        simp only [call, harity, ne_eq, not_true_eq_false, if_false, if_neg hlt]
      | _ => cases harity
  · obtain ⟨cause, heq⟩ := call_rejects closing (.halt : Cont .value .value) st harity
    rw [heq] at h
    cases Step.ends_failed_iff.mp h

/-- A call of a class results in an instance of it that was not there before. -/
theorem Sealed.cls_ends (h : Sealed events task st)
    (hcalls : task.Calls (.cls c) closing arguments k)
    (hends : (Activation.call (.cls c) closing arguments).Ends limit st (.ok v, st')) :
    ∃ object, v = .object object ∧ st.store.class? object = none ∧
      st'.store.class? object = some c := by
  have hnew : st.store.class? st.store.instances.size = none := by
    rw [Store.class?, Array.getElem?_eq_none (Nat.le_refl _), Option.map_none]
  refine ⟨st.store.instances.size, ?_⟩
  obtain ⟨made, hsealed⟩ := h.call_alone hcalls limit
  change (call limit (.cls c) closing arguments .halt st).Ends limit _ at hends
  obtain ⟨_, hfunction, -⟩ | ⟨d, hcls, hbegin⟩ := call_begins hends
  · cases hfunction
  cases hcls
  rw [hbegin] at hends hsealed
  cases hm : c.method? initializerName with
  | none =>
    simp only [instantiate, hm] at hends
    obtain ⟨rfl, hstore⟩ := Step.endCall_ends hends
    exact ⟨rfl, hnew, by rw [hstore]; exact Store.class?_newInstance_self c⟩
  | some m =>
    simp only [instantiate, hm] at hends hsealed
    obtain ⟨outcome, st₁, -, hclass, hrest⟩ := Sealed.enterBody_ends hsealed hends
    obtain ⟨rfl, hstore⟩ := Step.endCall_ends ((Step.ends_next_iff _).mp hrest)
    refine ⟨rfl, hnew, ?_⟩
    rw [hstore]
    refine hclass _ _ ((Store.class?_of_instances_eq (s := (st.store.newInstance c).2) rfl _).trans ?_)
    exact Store.class?_newInstance_self c

/-- A call of an initializer results in the instance that it was bound to. -/
theorem Sealed.initializer_ends (h : Sealed events task st)
    (hcalls : task.Calls (.function f) closing arguments k) (hbound : .bound m object f ∈ events)
    (hname : m.name = initializerName)
    (hends : (Activation.call (.function f) closing arguments).Ends limit st (.ok v, st')) :
    v = .object object := by
  obtain ⟨made, hsealed⟩ := h.call_alone hcalls limit
  change (call limit (.function f) closing arguments .halt st).Ends limit _ at hends
  obtain ⟨_, hfunction, hbegin⟩ | ⟨_, hcls, -⟩ := call_begins hends
  · cases hfunction
    rw [hbegin] at hends hsealed
    obtain ⟨outcome, st₁, ⟨later, hafter⟩, -, hrest⟩ := Sealed.enterBody_ends hsealed hends
    have hreceiver := hafter.bound m object f (List.mem_append_right _ hbound)
    rw [← hreceiver.bodyResult hname outcome]
    exact (Step.endCall_ends hrest).1
  · cases hcls

end Machine

/-! ## Phases -/

/-- A function that has come into being as a value is none of the methods in a class. -/
theorem Event.AreDistinct.not_mem_methods {bound : Nat} {event : Event}
    {statement : Stmt} (h : Event.AreDistinct events bound) (hevent : event ∈ events)
    (hvalue : event.value = .function f) (hfounded : .founded statement c ∈ events) :
    f ∉ c.methods := by
  intro hm
  have heq := h.unique event hevent _ hfounded f.identity
    (event.identity_mem _ (by rw [hvalue]; rfl))
    (List.mem_append_left _ (List.mem_map_of_mem hm))
  subst heq
  cases hvalue

namespace Phase

/-- Whether calls of classes and initializers result in what they should in a phase, and all
methods that are held are bound. -/
structure Constructs (events : List Event) (a : Phase) : Prop where
  /-- A call of a class results in a new instance of it. -/
  classes : ∀ {goal : Yield} {task : Task goal} {st : State} {nextId : NodeId} {c : Class}
    {closing : Token} {arguments : List Value} {k : Cont goal .value},
    a = .running task st nextId → task.Calls (.cls c) closing arguments k →
      ∀ limit v st', (Activation.call (.cls c) closing arguments).Ends limit st (.ok v, st') →
        ∃ object, v = .object object ∧ st.store.class? object = none ∧
          st'.store.class? object = some c
  /-- A call of an initializer results in the instance that it was bound to. -/
  initializers : ∀ {goal : Yield} {task : Task goal} {st : State} {nextId : NodeId} {m f : Closure}
    {object : InstanceRef} {closing : Token} {arguments : List Value} {k : Cont goal .value},
    a = .running task st nextId → task.Calls (.function f) closing arguments k →
      .bound m object f ∈ events → m.name = initializerName →
        ∀ limit v st', (Activation.call (.function f) closing arguments).Ends limit st (.ok v, st') →
          v = .object object
  /-- However the body of an initializer ends, be it called by a program or for a new instance,
  its result is that instance. -/
  bodies : ∀ {goal : Yield} {st : State} {nextId : NodeId} {m f : Closure} {object : InstanceRef}
    {outcome : Flow} {k : Cont goal .value}, a = .running (.flow outcome (.endBody f k)) st nextId →
      .bound m object f ∈ events → m.name = initializerName →
        ∀ limit, Machine.step limit (.flow outcome (.endBody f k)) st =
          .next (.value (.object object) k) st
  /-- A function that is held is none of the methods in a class. It was declared as a function,
  or it is a method of a class that was bound, around a scope that holds the receiver and
  nothing else. -/
  functions : ∀ f, a.Holds (.function f) →
    (∀ statement c, .founded statement c ∈ events → f ∉ c.methods) ∧
      (.declared f ∈ events ∨ ∃ m object, .bound m object f ∈ events ∧
        m.IsSealed events a.state.store object f)

/-- Whatever sources run, one after the other and with whatever tables, classes make instances
of their own, initializers result in their receivers, and methods are only held bound. -/
theorem constructions_yield_instances {events : List Event} {a : Phase} (h : Arrives events a) :
    a.Constructs events where
  classes := by
    rintro goal task st nextId c closing arguments k rfl hcalls limit v st' hends
    exact Machine.Sealed.cls_ends h.sealed hcalls hends
  initializers := by
    rintro goal task st nextId m f object closing arguments k rfl hcalls hbound hname limit v st'
      hends
    exact Machine.Sealed.initializer_ends h.sealed hcalls hbound hname hends
  bodies := by
    rintro goal st nextId m f object outcome k rfl hbound hname limit
    have hreceiver := (Sealed.state h.sealed).bound m object f hbound
    rw [← hreceiver.bodyResult hname outcome]
    rfl
  functions f hf := by
    have hstate := h.sealed.state
    obtain hplain | ⟨event, hevent, hvalue⟩ := h.sealed.recorded_of_holds hf
    · cases hplain
    · refine ⟨fun statement c => hstate.distinct.not_mem_methods hevent hvalue, ?_⟩
      cases event with
      | declared g =>
        cases hvalue
        exact .inl hevent
      | founded statement c => cases hvalue
      | bound m object g =>
        cases hvalue
        exact .inr ⟨m, object, hevent, hstate.bound m object f hevent⟩

/-- A class whose initializer returns something else from inside a loop is called by a later
source, and nothing is known about any reference. -/
theorem constructions_yield_instances_return : ∃ (events : List Event) (task : Task .flow)
    (st : State) (nextId : NodeId) (c : Class) (closing : Token) (k : Cont .flow .value)
    (v : Value) (st' : State), Arrives events (.running task st nextId) ∧
      task.Calls (.cls c) closing [] k ∧
      (Activation.call (.cls c) closing []).Ends 9 st (.ok v, st') ∧
      ∃ object, v = .object object ∧ st.store.class? object = none ∧
        st'.store.class? object = some c := by
  obtain ⟨tokens, program, nextId, after, tokens', program', nextId', task, st, c, closing, k, v, st',
      hlex, hparse, hrun, hlex', hparse', hreaches, hcalls, hends⟩ :
      ∃ tokens program nextId after tokens' program' nextId',
        ∃ (task : Task .flow) (st : State) (c : Class) (closing : Token) (k : Cont .flow .value)
          (v : Value) (st' : State),
        (lex "class A \x7b init() \x7b while (true) \x7b return nil; \x7d \x7d \x7d").toExcept =
          .ok tokens ∧
        parseProgram tokens 0 = (.ok program, nextId) ∧
        { State.initial with table := ∅ }.interpret ⟨9, 30⟩ program = some (.ok (), after) ∧
        (lex "A();").toExcept = .ok tokens' ∧ parseProgram tokens' 0 = (.ok program', nextId') ∧
        Machine.Reaches 9 (Machine.program program', { after with table := ∅ }) (task, st) ∧
        task.Calls (.cls c) closing [] k ∧
        (Activation.call (.cls c) closing []).Ends 9 st (.ok v, st') :=
    ⟨_, _, _, _, _, _, _, _, _, _, _, _, _, _, by cbv, by cbv, by cbv, by cbv, by cbv,
      .of_stepFor (n := 4) rfl, .plain _ _ _, 30, rfl⟩
  obtain ⟨later, hafter⟩ := Arrives.fresh.interpret ∅ hlex hparse hrun
  have hbegun := hafter.next (.program ∅ hlex' hparse')
  obtain ⟨later', harrives⟩ := hbegun.reaches hreaches
  exact ⟨_, task, st, nextId', c, closing, k, v, st', harrives, hcalls, hends,
    (constructions_yield_instances harrives).classes rfl hcalls 9 v st' hends⟩

end Phase

end Lox
