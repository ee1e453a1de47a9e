import Lox.Proofs.History.Phases
import Lox.Proofs.History.Holdings

/-!
# What came into being in a session

The functions and classes that a session has made so far, the latest first. Each of
them has an identity that no other has, so whoever holds a function or a class holds
what was made then.

## Implementation notes

`Lived` says which events have led to a phase. It has one event at most for each step,
and none for a step that ends the run.
-/

namespace Lox

/-! ## Classes -/

theorem Store.enclosing?_of_scopes_eq {s s' : Store} {scope : ScopeRef} (h : s'.scopes = s.scopes) :
    s'.enclosing? scope = s.enclosing? scope := by
  unfold enclosing?
  rw [h]

namespace State

variable {st : State} {name : Token} {superclass : Option Class} {methods : List FunctionDecl}

/-- The methods of a class are numbered one after the other. -/
theorem newMethods_cons (s : Store) (scope : ScopeRef) (d : FunctionDecl) (ds : List FunctionDecl) :
    newMethods s scope (d :: ds) =
      ((s.newClosure d scope (d.name.lexeme == initializerName)).1 ::
          (newMethods (s.newClosure d scope (d.name.lexeme == initializerName)).2 scope ds).1,
        (newMethods (s.newClosure d scope (d.name.lexeme == initializerName)).2 scope ds).2) :=
  rfl

/-- What is known of the methods that are made around a scope. -/
structure MethodsMade (s : Store) (scope : ScopeRef) (methods : List FunctionDecl)
    (closures : List Closure) (s' : Store) : Prop where
  decls : closures.map Closure.decl = methods
  scope : ∀ m ∈ closures, m.scope = scope
  identities : closures.map Closure.identity = List.range' s.nextIdentity methods.length
  nextIdentity : s'.nextIdentity = s.nextIdentity + methods.length
  scopes : s'.scopes = s.scopes
  instances : s'.instances = s.instances

theorem newMethods_made (s : Store) (scope : ScopeRef) (methods : List FunctionDecl) :
    MethodsMade s scope methods (newMethods s scope methods).1 (newMethods s scope methods).2 := by
  induction methods generalizing s with
  | nil => exact ⟨rfl, by simp [newMethods], rfl, rfl, rfl, rfl⟩
  | cons d ds ih =>
    have h := ih (s.newClosure d scope (d.name.lexeme == initializerName)).2
    rw [newMethods_cons]
    refine ⟨congrArg (d :: ·) h.decls, List.forall_mem_cons.mpr ⟨rfl, h.scope⟩, ?_, ?_, h.scopes,
      h.instances⟩
    · rw [List.map_cons, h.identities, List.length_cons, List.range'_succ]
      rfl
    · rw [h.nextIdentity, List.length_cons]
      simp only [Store.newClosure, Store.newIdentity]
      omega

/-- The scope that the methods of a new class are in. -/
def methodScope (st : State) : Option Class → ScopeRef
  | none => st.current
  | some _ => st.store.scopes.size

/-- What is known of a class that is made, and of the store after that. -/
structure ClassMade (st : State) (superclass : Option Class) (methods : List FunctionDecl)
    (c : Class) (s' : Store) : Prop where
  parent : c.superclass = superclass
  decls : c.methods.map Closure.decl = methods
  scope : ∀ m ∈ c.methods, m.scope = st.methodScope superclass
  identities : c.methods.map Closure.identity =
    List.range' st.store.nextIdentity methods.length
  identity : c.identity = st.store.nextIdentity + methods.length
  nextIdentity : s'.nextIdentity = c.identity + 1
  inherited : ∀ d ∈ superclass,
    s'.local? st.store.scopes.size Keyword.super.text = some (.cls d) ∧
      s'.enclosing? st.store.scopes.size = some st.current

theorem newClass_made (st : State) (name : Token) (superclass : Option Class)
    (methods : List FunctionDecl) :
    ClassMade st superclass methods (st.newClass name superclass methods).1
      (st.newClass name superclass methods).2.store := by
  cases superclass with
  | none =>
    have h := newMethods_made st.store st.current methods
    exact ⟨rfl, h.decls, h.scope, h.identities, h.nextIdentity, rfl, by simp⟩
  | some d =>
    have h := newMethods_made (st.store.newScope (NameMap.empty.insert Keyword.super.text (.cls d))
      (some st.current)).2 st.store.scopes.size methods
    refine ⟨rfl, h.decls, h.scope, h.identities, h.nextIdentity, rfl, fun e he => ?_⟩
    obtain rfl := Option.mem_some.mp he
    constructor
    · refine (Store.local?_of_scopes_eq h.scopes).trans ?_
      rw [Store.local?_newScope, if_pos rfl, NameMap.get?_insert_self]
    · refine (Store.enclosing?_of_scopes_eq h.scopes).trans ?_
      exact Store.enclosing?_newScope.trans (if_pos rfl)

end State

/-! ## Events of a step -/

section

variable {goal : Yield}

/-- What a step makes that goes on, and what the store is then. -/
inductive Event.Arises (task : Task goal) (st : State) : Event → Store → Prop
  | declared {d : FunctionDecl} {k : Cont goal .flow} (h : task = .exec (.funDecl d) k) :
      Arises task st (.declared (st.store.newClosure d st.current false).1)
        (st.defineFunction d).store
  | founded {name : Token} {methods : List FunctionDecl} {k : Cont goal .flow} {scope : ScopeRef}
      (h : task = .exec (.classDecl name none methods) k)
      (howner : (st.define name .nil).store.owner? st.current name.lexeme = some scope) :
      Arises task st
        (.founded (.classDecl name none methods) ((st.define name .nil).newClass name none methods).1)
        (((st.define name .nil).newClass name none methods).2.store.define scope name.lexeme
          (.cls ((st.define name .nil).newClass name none methods).1))
  | derived {c : Class} {name : Token} {reference : Reference} {methods : List FunctionDecl}
      {k : Cont goal .flow} {scope : ScopeRef}
      (h : task = .value (.cls c) (.superclass name reference methods k))
      (howner : st.store.owner? st.current name.lexeme = some scope) :
      Arises task st
        (.founded (.classDecl name (some reference) methods) (st.newClass name (some c) methods).1)
        ((st.newClass name (some c) methods).2.store.define scope name.lexeme
          (.cls (st.newClass name (some c) methods).1))
  | inherited {target : Reference} {method : Token} {k : Cont goal .value} {c : Class}
      {object : InstanceRef} {m : Closure} (h : task = .eval (.inherited target method) k)
      (hfound : st.inheritance target = .ok (c, object))
      (hm : c.method? method.lexeme = some m) :
      Arises task st (st.store.binding m object) (st.store.bindMethod m object).2
  | got {object : InstanceRef} {name : Token} {k : Cont goal .value} {m : Closure}
      (h : task = .value (.object object) (.get name k))
      (hfound : st.store.property? object name.lexeme = some (.method m)) :
      Arises task st (st.store.binding m object) (st.store.bindMethod m object).2
  | constructed {c : Class} {m : Closure} {bindings : NameMap Value} {f : Closure}
      (h : .value (.cls c) ∈ task.holdings st.current)
      (hm : c.method? initializerName = some m)
      (hf : f = ((st.store.newInstance c).2.bindMethod m st.store.instances.size).1)
      (hbindings : ∀ name, (bindings.get? name).isSome → ∃ p ∈ m.decl.parameters, p.lexeme = name) :
      Arises task st ((st.store.newInstance c).2.binding m st.store.instances.size)
        (((st.store.newInstance c).2.bindMethod m st.store.instances.size).2.newScope bindings
          (some f.scope)).2

namespace Machine

variable {task : Task goal} {st : State} {event : Event}

theorem Rule.arises {limit : Nat} {step : Step goal} (hrule : Rule limit st task step)
    (hevent : event ∈ task.event? st) (hnext : step.IsNext) :
    event.Arises task st step.state.store := by
  cases hrule with
  | halts | fails | failsBase => cases hnext
  | unfolds hunfolds =>
    rw [hunfolds.event?_eq] at hevent
    cases hevent
  | funDecl d k =>
    obtain rfl := Option.some.inj hevent
    exact .declared rfl
  | base name methods k howner =>
    obtain rfl := Option.some.inj hevent
    exact .founded rfl howner
  | derived c name reference methods k howner =>
    obtain rfl := Option.some.inj hevent
    exact .derived rfl howner
  | inherited target method k hfound hm =>
    rw [Task.event?_of_inherited hfound hm] at hevent
    obtain rfl := Option.some.inj hevent
    exact .inherited rfl hfound hm
  | method object name k hfound =>
    rw [Task.event?_of_method hfound] at hevent
    obtain rfl := Option.some.inj hevent
    exact .got rfl hfound
  | function closure arguments k hcalls harity hlt =>
    rw [hcalls.event?_eq] at hevent
    cases hevent
  | newInstance c k hcalls hlt hm =>
    rw [hcalls.event?_eq, Store.construction?, hm] at hevent
    cases hevent
  | initializer c m arguments k hcalls harity hlt hm =>
    rw [hcalls.event?_eq, Store.construction?_of_initializer hm] at hevent
    obtain rfl := Option.some.inj hevent
    have hheld := (hcalls.holdings (P := (· ∈ task.holdings st.current)) fun _ => id).1
    exact .constructed hheld hm rfl fun name hname => by
      obtain ⟨v, hv⟩ := Option.isSome_iff_exists.mp hname
      exact (NameMap.of_get?_ofArguments hv).1
  | _ => cases hevent

/-- A step that goes on and makes something makes it in one of these ways. -/
theorem step_arises (limit : Nat) (hevent : event ∈ task.event? st)
    (hnext : (step limit task st).IsNext) :
    event.Arises task st (step limit task st).state.store :=
  (step_rule limit task st).arises hevent hnext

end Machine

end

/-! ## Histories -/

namespace Phase

/-- What a phase holds besides its store. -/
def holdings : Phase → List Holding
  | idle _ => []
  | running task st _ => task.holdings st.current

/-- Whether all that a phase holds fulfils a predicate. -/
structure All (P : Holding → Prop) (a : Phase) : Prop where
  store : a.state.store.All P
  holdings : ∀ x ∈ a.holdings, P x

/-- What comes into being from one phase to the next. -/
def event? : Phase → Phase → Option Event
  | running task st _, running _ _ _ => task.event? st
  | _, _ => none

/-- The nodes of a source that begins to run. -/
inductive Begins : Phase → Phase → Node → Prop
  | program {s : Session} {source : String} {program : List Stmt} {table : BindingTable}
      {nextId : NodeId} {t : Stmt} (h : s.Accepts source program table nextId) (ht : t ∈ program) :
      Begins (.idle s) (.running (Machine.program program) (s.state.learn table) nextId) (.stmt t)
  | expression {s : Session} {source : String} {tokens : List Token} {e : Expr}
      {nextId : NodeId} (hlex : (lex source).toExcept = .ok tokens)
      (hparse : parseExpression tokens s.nextId = (.ok e, nextId)) :
      Begins (.idle s) (.running (Machine.expression e) s.state nextId) (.expr e)

/-- The phases that a session can come to, with all that came into being on the way, the
latest first. -/
inductive Lived : List Event → Phase → Prop
  | fresh : Lived [] (.idle .fresh)
  | next {events : List Event} {a b : Phase} (h : Lived events a) (hnext : a.Next b) :
      Lived ((a.event? b).toList ++ events) b

variable {a b : Phase} {events : List Event} {event : Event} {P Q : Holding → Prop}

theorem All.mono (h : a.All P) (hPQ : ∀ x, P x → Q x) : a.All Q :=
  ⟨h.store.mono hPQ, fun x hx => hPQ x (h.holdings x hx)⟩

theorem Lived.reachable (h : Lived events a) : a.Reachable := by
  induction h with
  | fresh => exact .refl
  | next _ hnext ih => exact ih.tail hnext

/-- Whatever leads to a phase, something came into being on the way, or nothing. -/
theorem Reachable.lived (h : a.Reachable) : ∃ events, Lived events a := by
  induction h with
  | refl => exact ⟨[], .fresh⟩
  | tail _ hnext ih =>
    obtain ⟨events, h⟩ := ih
    exact ⟨_, .next h hnext⟩

namespace Next

/-- What comes into being does so in a step that goes on. -/
theorem arises (h : a.Next b) (hevent : event ∈ a.event? b) :
    ∃ (goal : Yield) (task : Task goal) (st : State) (nextId : NodeId),
      a = .running task st nextId ∧ event.Arises task st b.state.store := by
  cases h with
  | @step goal task task' st st' nextId limit hstep =>
    have harises := Machine.step_arises limit hevent (by rw [hstep]; trivial)
    rw [hstep] at harises
    exact ⟨goal, task, st, nextId, rfl, harises⟩
  | _ => cases hevent

/-- If all that a phase holds fulfils a predicate that carries on, and so do what comes
into being and what begins to run, then all that the next phase holds fulfils it. -/
theorem all (h : a.Next b) (ha : a.All P) (hcarries : Holding.Carries P b.state.store)
    (hmade : ∀ event ∈ a.event? b, P (.value event.value))
    (hbegins : ∀ node, a.Begins b node → P (.code b.state.current node)) : b.All P := by
  cases h with
  | reject hid => exact ⟨ha.store, by simp [Phase.holdings]⟩
  | program haccepts =>
    refine ⟨ha.store, ?_⟩
    simp only [Phase.holdings, Machine.program, Task.holdings, Flow.holdings, Cont.holdings,
      List.nil_append, List.append_nil, List.forall_mem_map]
    exact fun t ht => hbegins _ (.program haccepts ht)
  | expression hlex hparse =>
    exact ⟨ha.store, List.forall_mem_singleton.mpr (hbegins _ (.expression hlex hparse))⟩
  | @step goal task task' st st' nextId limit hstep =>
    have hall : (Machine.step limit task st).All P :=
      Machine.step_all ha.store (by rw [hstep]; exact hcarries) (fun _ => hmade) ha.holdings
    rw [hstep] at hall
    exact ⟨hall.1, hall.2⟩
  | @done goal task st st' nextId limit outcome hstep =>
    have hall : (Machine.step limit task st).All P :=
      Machine.step_all ha.store (by rw [hstep]; exact hcarries)
        (fun hnext => by rw [hstep] at hnext; cases hnext) ha.holdings
    rw [hstep] at hall
    exact ⟨hall, by simp [Phase.holdings]⟩
  | @failed goal task st st' nextId limit error hstep =>
    have hall : (Machine.step limit task st).All P :=
      Machine.step_all ha.store (by rw [hstep]; exact hcarries)
        (fun hnext => by rw [hstep] at hnext; cases hnext) ha.holdings
    rw [hstep] at hall
    exact ⟨hall, by simp [Phase.holdings]⟩

end Next

end Phase

end Lox
