import Lox.Proofs.Scoping.Steps

/-!
# What a step changes in the store

A step gives a value to one name at most in the scopes that there are, and this name is
the one that its task declares or assigns. Other names keep their values, scopes their
links and instances their classes and fields. A scope that the step makes holds what
the language gives, or the parameters of the function that is called.

## Implementation notes

A change is described by two predicates: which names of scopes may be set, and which
names a new scope may hold. So the changes of operations can be put together, and what
a task sets is said once, for whole steps.
-/

namespace Lox

/-! ## Changes -/

/-- Whether a store comes from another one by setting some names of scopes, by making
scopes that hold certain names, and by adding instances and fields. -/
structure Store.Changes (sets opens : ScopeRef → String → Prop) (s s' : Store) :
    Prop where
  size : s.scopes.size ≤ s'.scopes.size
  enclosing : ∀ scope < s.scopes.size, s'.enclosing? scope = s.enclosing? scope
  value : ∀ scope < s.scopes.size, ∀ name,
    s'.local? scope name = s.local? scope name ∨
      (sets scope name ∧ (s'.local? scope name).isSome)
  opened : ∀ scope, s.scopes.size ≤ scope → ∀ name, (s'.local? scope name).isSome →
    opens scope name ∨ sets scope name
  instances : s.instances.size ≤ s'.instances.size
  cls : ∀ object c, s.class? object = some c → s'.class? object = some c
  field : ∀ object name, (s.field? object name).isSome → (s'.field? object name).isSome
  identity : s.nextIdentity ≤ s'.nextIdentity

namespace Store

variable {s s' s'' : Store} {scope target : ScopeRef} {name : String} {v : Value}

/-! ### Instances -/

theorem lt_of_field? {object : InstanceRef} (h : (s.field? object name).isSome) :
    object < s.instances.size := by
  by_cases hlt : object < s.instances.size
  · exact hlt
  · rw [field?, Array.getElem?_eq_none (Nat.le_of_not_lt hlt)] at h
    cases h

theorem lt_of_class? {c : Class} {object : InstanceRef} (h : s.class? object = some c) :
    object < s.instances.size := by
  by_cases hlt : object < s.instances.size
  · exact hlt
  · rw [class?, Array.getElem?_eq_none (Nat.le_of_not_lt hlt)] at h
    cases h

theorem field?_newInstance {c : Class} {object : InstanceRef}
    (h : (s.field? object name).isSome) :
    (s.newInstance c).2.field? object name = s.field? object name := by
  have hlt := lt_of_field? h
  rw [field?, newInstance, Array.getElem?_push, if_neg (Nat.ne_of_lt hlt)]
  rfl

theorem class?_newInstance {c d : Class} {object : InstanceRef} (h : s.class? object = some d) :
    (s.newInstance c).2.class? object = some d := by
  have hlt := lt_of_class? h
  rw [class?, newInstance, Array.getElem?_push, if_neg (Nat.ne_of_lt hlt)]
  exact h

/-- The new instance is of the class that it is made of. -/
theorem class?_newInstance_self (c : Class) :
    (s.newInstance c).2.class? s.instances.size = some c := by
  rw [class?, newInstance, Array.getElem?_push, if_pos rfl]
  rfl

theorem isSome_field?_setField {object other : InstanceRef} {field : String}
    (h : (s.field? other field).isSome) :
    ((s.setField object name v).field? other field).isSome := by
  rw [field?] at h
  simp only [field?, setField, Array.getElem?_modify]
  split
  · rename_i heq
    subst heq
    cases hi : s.instances[object]? with
    | none =>
      rw [hi] at h
      cases h
    | some i =>
      rw [hi] at h
      simp only [Option.map_some, Option.bind_some, NameMap.get?_insert]
      split
      · rfl
      · exact h
  · exact h

/-! ### Operations -/

namespace Changes

variable {sets opens : ScopeRef → String → Prop}

/-- Identities do not matter, as long as none is used twice. -/
theorem of_eq (hscopes : s'.scopes = s.scopes) (hinstances : s'.instances = s.instances)
    (hidentity : s.nextIdentity ≤ s'.nextIdentity) : s.Changes sets opens s' := by
  have hgrows : Grows 0 s s' := .of_scopes_eq hscopes
  refine ⟨hgrows.size, hgrows.enclosing, fun scope _ name => ?_, fun scope hle name hlocal => ?_,
    Nat.le_of_eq (by rw [hinstances]), fun object c hc => ?_, fun object name hfield => ?_,
    hidentity⟩
  · exact .inl (local?_of_scopes_eq hscopes)
  · rw [local?_of_scopes_eq hscopes] at hlocal
    exact absurd (lt_of_local? hlocal) (Nat.not_lt_of_le hle)
  · rwa [class?_of_instances_eq hinstances]
  · rwa [field?_of_instances_eq hinstances]

theorem refl (s : Store) : s.Changes sets opens s :=
  of_eq rfl rfl (Nat.le_refl _)

theorem trans (h : s.Changes sets opens s') (h' : s'.Changes sets opens s'') :
    s.Changes sets opens s'' where
  size := Nat.le_trans h.size h'.size
  enclosing scope hlt :=
    (h'.enclosing scope (Nat.lt_of_lt_of_le hlt h.size)).trans (h.enclosing scope hlt)
  value scope hlt name := by
    rcases h'.value scope (Nat.lt_of_lt_of_le hlt h.size) name with heq | hset
    · rw [heq]
      exact h.value scope hlt name
    · exact .inr hset
  opened scope hle name hlocal := by
    by_cases hlt : scope < s'.scopes.size
    · rcases h'.value scope hlt name with heq | hset
      · rw [heq] at hlocal
        exact h.opened scope hle name hlocal
      · exact .inr hset.1
    · exact h'.opened scope (Nat.le_of_not_lt hlt) name hlocal
  instances := Nat.le_trans h.instances h'.instances
  cls object c hc := h'.cls object c (h.cls object c hc)
  field object name hfield := h'.field object name (h.field object name hfield)
  identity := Nat.le_trans h.identity h'.identity

theorem define (h : sets scope name) : s.Changes sets opens (s.define scope name v) where
  size := Nat.le_of_eq size_define.symm
  enclosing _ _ := enclosing?_define
  value target hlt other := by
    by_cases heq : scope = target ∧ name = other
    · obtain ⟨rfl, rfl⟩ := heq
      exact .inr ⟨h, by rw [local?_define_self hlt]; rfl⟩
    · exact .inl (local?_define_of_ne heq)
  opened target hle other hlocal := by
    have hlt := lt_of_local? hlocal
    rw [size_define] at hlt
    exact absurd hlt (Nat.not_lt_of_le hle)
  instances := Nat.le_refl _
  cls _ _ hc := hc
  field _ _ hfield := hfield
  identity := Nat.le_refl _

theorem newScope {bindings : NameMap Value} {enclosing : Option ScopeRef}
    (h : ∀ name, (bindings.get? name).isSome → opens s.scopes.size name) :
    s.Changes sets opens (s.newScope bindings enclosing).2 where
  size := Nat.le_of_lt (by rw [size_newScope]; exact Nat.lt_succ_self _)
  enclosing scope hlt := by rw [enclosing?_newScope, if_neg (Nat.ne_of_lt hlt)]
  value scope hlt name := by
    rw [local?_newScope, if_neg (Nat.ne_of_lt hlt)]
    exact .inl rfl
  opened scope hle name hlocal := by
    rw [local?_newScope] at hlocal
    split at hlocal
    · rename_i heq
      exact .inl (heq ▸ h name hlocal)
    · exact absurd (lt_of_local? hlocal) (Nat.not_lt_of_le hle)
  instances := Nat.le_refl _
  cls _ _ hc := hc
  field _ _ hfield := hfield
  identity := Nat.le_refl _

theorem newInstance (c : Class) : s.Changes sets opens (s.newInstance c).2 where
  size := Nat.le_refl _
  enclosing _ _ := rfl
  value _ _ _ := .inl rfl
  opened _ hle _ hlocal := absurd (lt_of_local? hlocal) (Nat.not_lt_of_le hle)
  instances := by
    rw [Store.newInstance, Array.size_push]
    exact Nat.le_succ _
  cls _ _ hc := class?_newInstance hc
  field _ _ hfield := by rwa [field?_newInstance hfield]
  identity := Nat.le_refl _

theorem setField {object : InstanceRef} : s.Changes sets opens (s.setField object name v) where
  size := Nat.le_refl _
  enclosing _ _ := rfl
  value _ _ _ := .inl rfl
  opened _ hle _ hlocal := absurd (lt_of_local? hlocal) (Nat.not_lt_of_le hle)
  instances := Nat.le_of_eq Array.size_modify.symm
  cls _ _ hc := by rwa [class?_setField]
  field _ _ hfield := isSome_field?_setField hfield
  identity := Nat.le_refl _

/-- A scope may hold what the language gives. -/
theorem newScope_keyword (k : Keyword) {enclosing : Option ScopeRef}
    (h : opens s.scopes.size k.text) :
    s.Changes sets opens (s.newScope (NameMap.empty.insert k.text v) enclosing).2 := by
  apply newScope
  intro name hname
  obtain ⟨found, hfound⟩ := Option.isSome_iff_exists.mp hname
  obtain ⟨rfl, -⟩ := NameMap.get?_single_iff.mp hfound
  exact h

theorem bindMethod (h : opens s.scopes.size Keyword.this.text) (m : Closure) (receiver : InstanceRef) :
    s.Changes sets opens (s.bindMethod m receiver).2 :=
  (newScope_keyword .this h).trans (of_eq rfl rfl (Nat.le_succ _))

theorem newMethods (scope : ScopeRef) (ds : List FunctionDecl) :
    s.Changes sets opens (State.newMethods s scope ds).2 := by
  induction ds generalizing s with
  | nil => exact refl s
  | cons d ds ih =>
    have hclosure : s.Changes sets opens
        (s.newClosure d scope (d.name.lexeme == initializerName)).2 := of_eq rfl rfl (Nat.le_succ _)
    exact hclosure.trans ih

end Changes

end Store

/-! ## Events -/

/-- How a function or a class comes into being. -/
inductive Event where
  | declared (function : Closure)
  | founded (statement : Stmt) (c : Class)
  | bound (method : Closure) (object : InstanceRef) (function : Closure)

/-- What has come into being. -/
def Event.value : Event → Value
  | .declared function => .function function
  | .founded _ c => .cls c
  | .bound _ _ function => .function function

/-- A method is bound to an instance. -/
def Store.binding (s : Store) (method : Closure) (object : InstanceRef) : Event :=
  .bound method object (s.bindMethod method object).1

/-- A class that has an initializer binds it to the new instance when it is called. -/
def Store.construction? (s : Store) : Value → Option Event
  | .cls c => (c.method? initializerName).map fun m =>
      (s.newInstance c).2.binding m (s.newInstance c).1
  | _ => none

/-- What comes into being when a task is carried out, unless it fails. -/
def Task.event? {goal : Yield} (task : Task goal) (st : State) : Option Event :=
  match task with
  | .eval (.inherited target method) _ =>
      match st.inheritance target with
      | .error _ => none
      | .ok (c, receiver) =>
          (c.method? method.lexeme).map fun m => st.store.binding m receiver
  | .exec (.funDecl function) _ =>
      some (.declared (st.store.newClosure function st.current false).1)
  | .exec (.classDecl name none methods) _ =>
      some (.founded (.classDecl name none methods)
        ((st.define name .nil).newClass name none methods).1)
  | .value v (.get name _) =>
      match v with
      | .object object =>
          match st.store.property? object name.lexeme with
          | some (.method m) => some (st.store.binding m object)
          | _ => none
      | _ => none
  | .value called (.callee _ [] _) => st.store.construction? called
  | .value _ (.argument called _ _ [] _) => st.store.construction? called
  | .value v (.superclass name reference methods _) =>
      match v with
      | .cls c =>
          some (.founded (.classDecl name (some reference) methods)
            (st.newClass name (some c) methods).1)
      | _ => none
  | _ => none

/-! ## Tasks -/

section

variable {goal : Yield}

/-- The name that a task declares in the current scope. -/
def Task.declares? : Task goal → Option Token
  | .exec (.varDecl name none) _ => some name
  | .exec (.funDecl function) _ => some function.name
  | .exec (.classDecl name _ _) _ => some name
  | .value _ (.define name _) => some name
  | _ => none

/-- The name that a task gives a value, be it declared or not. -/
def Task.sets? : Task goal → Option Token
  | .value _ (.assign target _) => some target.name
  | .value _ (.superclass name _ _ _) => some name
  | task => task.declares?

/-- Whether a task gives a value to a name of a scope: it declares it there, or there
is one already. -/
def Task.Sets (task : Task goal) (st : State) (scope : ScopeRef) (name : String) : Prop :=
  (scope = st.current ∧ ∃ t ∈ task.declares?, t.lexeme = name) ∨
    ((st.store.local? scope name).isSome ∧ ∃ t ∈ task.sets?, t.lexeme = name)

/-- The state that a step leads to. -/
def Step.state : Step goal → State
  | .next _ st => st
  | .done _ st => st
  | .failed _ st => st

/-- The function whose body a task begins with. -/
def Task.body? : Task goal → Option Closure
  | .flow .normal (.sequence _ (.leaveScope _ (.endBody closure _))) => some closure
  | _ => none

/-- Whether a name may be in a scope that is made, when something comes into being and
a task comes next: it is the receiver that a method is bound to, the superclass of a
class that is founded, or a parameter of the function whose body comes next. -/
def Task.Opens (task : Task goal) (made : Option Event) (scope : ScopeRef) (name : String) : Prop :=
  (name = Keyword.this.text ∧ ∃ m object f, .bound m object f ∈ made ∧ f.scope = scope) ∨
    (name = Keyword.super.text ∧ ∃ statement c, .founded statement c ∈ made) ∨
      ∃ f ∈ task.body?, ∃ p ∈ f.decl.parameters, p.lexeme = name

/-- Whether a name may be in a scope that a step makes. If the run ends, none is made. -/
def Step.Opens (made : Option Event) : Step goal → ScopeRef → String → Prop
  | .next task _, scope, name => task.Opens made scope name
  | _, _, _ => False

/-- Whether a step that makes something changes no more of a store than this. -/
def Step.Changes (sets : ScopeRef → String → Prop) (made : Option Event) (s : Store)
    (step : Step goal) : Prop :=
  s.Changes sets (step.Opens made) step.state.store

end

/-- Making a class opens a scope for its superclass at most. -/
theorem State.newClass_changes {sets opens : ScopeRef → String → Prop}
    (st : State) (name : Token) (superclass : Option Class) (methods : List FunctionDecl)
    (h : opens st.store.scopes.size Keyword.super.text) :
    st.store.Changes sets opens (st.newClass name superclass methods).2.store := by
  have hmethods (s : Store) (scope : ScopeRef) : s.Changes sets opens
      { (newMethods s scope methods).2 with
        nextIdentity := (newMethods s scope methods).2.nextIdentity + 1 } :=
    (Store.Changes.newMethods scope methods).trans (.of_eq rfl rfl (Nat.le_succ _))
  cases superclass with
  | none => exact hmethods st.store st.current
  | some c =>
    have hscope : st.store.Changes sets opens (st.store.newScope
        (NameMap.empty.insert Keyword.super.text (.cls c)) (some st.current)).2 :=
      .newScope_keyword .super h
    exact hscope.trans (hmethods _ _)

/-! ## Steps -/

namespace Task

variable {goal : Yield} {st : State}

theorem event?_of_inherited {target : Reference} {method : Token} {k : Cont goal .value} {c : Class}
    {object : InstanceRef} {m : Closure} (h : st.inheritance target = .ok (c, object))
    (hm : c.method? method.lexeme = some m) :
    (Task.eval (.inherited target method) k).event? st = some (st.store.binding m object) := by
  simp only [event?, h, hm, Option.map_some]

theorem event?_of_method {object : InstanceRef} {name : Token} {k : Cont goal .value} {m : Closure}
    (h : st.store.property? object name.lexeme = some (.method m)) :
    (Task.value (.object object) (.get name k)).event? st = some (st.store.binding m object) := by
  simp only [event?, h]

/-- What leaves the state as it is makes nothing. -/
theorem Unfolds.event?_eq {task task' : Task goal} (h : task.Unfolds st task') :
    task.event? st = none := by
  cases h with
  | field k h => simp only [event?, h]
  | _ => rfl

theorem Calls.event?_eq {task : Task goal} {called : Value} {closing : Token}
    {arguments : List Value} {k : Cont goal .value} (h : task.Calls called closing arguments k)
    (st : State) : task.event? st = st.store.construction? called := by
  cases h <;> rfl

end Task

theorem Store.construction?_of_initializer {s : Store} {c : Class} {m : Closure}
    (hm : c.method? initializerName = some m) :
    s.construction? (.cls c) = some ((s.newInstance c).2.binding m (s.newInstance c).1) := by
  rw [construction?, hm, Option.map_some]

namespace Machine

variable {goal : Yield} {sets : ScopeRef → String → Prop} {made : Option Event} {s : Store}
  {st : State}

/-- The scope of a call holds the parameters. -/
theorem enterBody_changes {closure : Closure} {arguments : List Value} {k : Cont goal .value}
    (h : s.Changes sets ((enterBody closure arguments k st).Opens made) st.store) :
    (enterBody closure arguments k st).Changes sets made s := by
  refine h.trans (.newScope fun name hname => ?_)
  obtain ⟨v, hv⟩ := Option.isSome_iff_exists.mp hname
  exact .inr (.inr ⟨closure, rfl, (NameMap.of_get?_ofArguments hv).1⟩)

/-- A class is assigned to its name in the nearest scope that has it. -/
theorem newClass_changes {name : Token} {superclass : Option Class} {methods : List FunctionDecl}
    {k : Cont goal .flow} {scope : ScopeRef} (hmade : ∃ statement c, .founded statement c ∈ made)
    (hsets : sets scope name.lexeme) :
    (Step.next (.flow .normal k) ((st.newClass name superclass methods).2.write scope name
      (.cls (st.newClass name superclass methods).1))).Changes sets made st.store := by
  have hclass : st.store.Changes sets ((Step.next (.flow .normal k) st : Step goal).Opens made)
      (st.newClass name superclass methods).2.store :=
    State.newClass_changes st name superclass methods (.inr (.inl ⟨rfl, hmade⟩))
  exact hclass.trans (.define hsets)

theorem Rule.changes {limit : Nat} {task : Task goal} {step : Step goal}
    (hrule : Rule limit st task step) (hlt : st.current < st.store.scopes.size) :
    step.Changes (task.Sets st) (task.event? st) st.store := by
  cases hrule with
  | halts outcome => exact Store.Changes.refl _
  | fails h =>
    rw [Step.Changes, Step.state, Task.store_unwind]
    exact .refl _
  | failsBase name methods k h =>
    rw [Step.Changes, Step.state, Cont.store_unwind]
    exact .define (.inl ⟨rfl, name, rfl, rfl⟩)
  | unfolds h => exact Store.Changes.refl _
  | varDecl name k => exact Store.Changes.define (.inl ⟨rfl, name, rfl, rfl⟩)
  | define v name k => exact Store.Changes.define (.inl ⟨rfl, name, rfl, rfl⟩)
  | subclass name reference methods k => exact Store.Changes.define (.inl ⟨rfl, name, rfl, rfl⟩)
  | funDecl d k =>
    have hclosure (sets opens : ScopeRef → String → Prop) : st.store.Changes sets opens
        (st.store.newClosure d st.current false).2 := .of_eq rfl rfl (Nat.le_succ _)
    exact (hclosure _ _).trans (.define (.inl ⟨rfl, d.name, rfl, rfl⟩))
  | base name methods k howner =>
    have hset : (Task.exec (.classDecl name none methods) k).Sets st st.current name.lexeme :=
      .inl ⟨rfl, name, rfl, rfl⟩
    have hdefine (opens : ScopeRef → String → Prop) :
        st.store.Changes _ opens (st.define name .nil).store := .define hset
    -- The nearest scope that has the name is the one that has just declared it.
    have hlocal : (st.define name .nil).store.local? st.current name.lexeme = some .nil :=
      Store.local?_define_self hlt
    rw [Store.owner?_of_local? (by rw [hlocal]; rfl)] at howner
    obtain rfl := Option.some.inj howner
    exact (hdefine _).trans (newClass_changes ⟨_, _, rfl⟩ hset)
  | derived c name reference methods k howner =>
    exact newClass_changes ⟨_, _, rfl⟩
      (.inr ⟨Store.local?_of_owner? howner, name, rfl, rfl⟩)
  | assign v target k howner =>
    exact Store.Changes.define (.inr ⟨State.local?_of_owner? howner, target.name, rfl, rfl⟩)
  | setField v object name k => exact Store.Changes.setField
  | inherited target method k h hm =>
    rw [Task.event?_of_inherited h hm]
    exact Store.Changes.bindMethod (.inl ⟨rfl, _, _, _, rfl, rfl⟩) _ _
  | method object name k h =>
    rw [Task.event?_of_method h]
    exact Store.Changes.bindMethod (.inl ⟨rfl, _, _, _, rfl, rfl⟩) _ _
  | print v k => exact Store.Changes.refl _
  | block body k => exact Store.Changes.newScope fun name hname => by cases hname
  | leaveScope f outer k => exact Store.Changes.refl _
  | function closure arguments k hcalls harity hdepth => exact enterBody_changes (.refl _)
  | newInstance c k hcalls hdepth hm => exact Store.Changes.newInstance c
  | initializer c m arguments k hcalls harity hdepth hm =>
    rw [hcalls.event?_eq, Store.construction?_of_initializer hm]
    refine enterBody_changes ((Store.Changes.newInstance c).trans ?_)
    exact .bindMethod (.inl ⟨rfl, _, _, _, rfl, rfl⟩) m _
  | endCall v k => exact Store.Changes.refl _

/-- What a step changes: it gives a value to the name that its task declares or
assigns, and what it makes is as the language or the parameters say. -/
theorem step_changes (limit : Nat) (task : Task goal) (hlt : st.current < st.store.scopes.size) :
    (step limit task st).Changes (task.Sets st) (task.event? st) st.store :=
  (step_rule limit task st).changes hlt

end Machine

end Lox
