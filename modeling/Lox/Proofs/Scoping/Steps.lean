import Lox.Proofs.Activation.Rules
import Lox.Proofs.Scoping.Sound

/-!
# Steps of a sound machine

A step of a sound machine leaves it sound. Where a run ends, be it by an error,
the store is sound and the machine is back among the globals.

## Implementation notes

There is one lemma for each operation on states, and one case for each rule of the machine.
-/

namespace Lox

open Store (Grows)

/-- Whether a state is sound and in a place. -/
structure State.At (known : Known) (table : BindingTable) (st : State) (p : Place) : Prop where
  store : st.store.Sound known
  table : st.table = table
  scope : p.scope = st.current
  stands : p.Stands st.store

namespace Machine

variable (known : Known) (table : BindingTable) {goal : Yield}

/-- Whether a machine is sound that has a task. -/
def Sound (task : Task goal) (st : State) : Prop :=
  ∃ p : Place, st.At known table p ∧ task.Sound known st.store p

/-- Whether a state is sound in which a run has ended. -/
structure SoundEnd (st : State) : Prop where
  store : st.store.Sound known
  table : st.table = table
  scope : st.current = Store.globals
  size : Store.globals < st.store.scopes.size

end Machine

/-- Whether a step leads to a sound machine. -/
def Step.Sound (known : Known) (table : BindingTable) {goal : Yield} : Step goal → Prop
  | .next task st => Machine.Sound known table task st
  | .done _ st => Machine.SoundEnd known table st
  | .failed _ st => Machine.SoundEnd known table st

section

variable {known : Known} {table : BindingTable} {goal : Yield} {st : State} {p : Place}

/-! ## Places -/

namespace State.At

/-- The store changes further in, or by values alone. -/
theorem of_store {s' : Store} {bound : ScopeRef} (h : st.At known table p) (hs : s'.Sound known)
    (hg : Grows bound st.store s') (hlt : p.scope < bound) :
    State.At known table { st with store := s' } p :=
  ⟨hs, h.table, h.scope, h.stands.grow hg hlt⟩

theorem lt_size (h : st.At known table p) : p.scope < st.store.scopes.size :=
  h.stands.models.lt

theorem size_pos (h : st.At known table p) : Store.globals < st.store.scopes.size :=
  Nat.lt_of_le_of_lt (Nat.zero_le _) h.lt_size

theorem define {name : Token} {v : Value} (h : st.At known table p) (hname : name.IsName)
    (hpending : p.pending = some name) (hv : v.Sound known (st.define name v).store) :
    (st.define name v).At known table (p.define name) := by
  refine ⟨h.store.define hname hv, h.table, h.scope, ?_⟩
  have hstands := h.stands.define (v := v) hpending
  rwa [h.scope] at hstands

theorem introduce {name : Token} {v : Value} (h : st.At known table p) (hname : name.IsName)
    (hpending : p.pending = none) (hnew : p.names.IsNew name)
    (hv : v.Sound known (st.define name v).store) :
    (st.define name v).At known table (p.introduce name) := by
  refine ⟨h.store.define hname hv, h.table, h.scope, ?_⟩
  have hstands := h.stands.introduce (v := v) hpending hnew
  rwa [h.scope] at hstands

theorem grows_define (h : st.At known table p) (name : Token) (v : Value) :
    Grows p.scope st.store (st.define name v).store := by
  rw [h.scope]
  exact .define

end State.At

/-! ## Ends -/

/-- On the way out, a sound continuation comes to the globals. -/
theorem Cont.Sound.current_unwind {y : Yield} {k : Cont goal y} {s : Store}
    (h : k.Sound known s p) (hscope : p.scope = st.current) :
    (k.unwind st).current = Store.globals := by
  induction k generalizing p st with
  | halt => exact hscope.symm.trans h.1
  | unary _ _ _ ih | get _ _ ih | setValue _ _ _ ih | construct _ _ ih => exact ih h hscope
  | endCall _ ih => exact ih h (show p.scope = { st with calls := st.calls - 1 }.current from hscope)
  | binaryLeft _ _ _ _ ih | logical _ _ _ ih | setObject _ _ _ ih | callee _ _ _ ih
  | discard _ ih | print _ ih | binaryRight _ _ _ _ ih => exact ih h.2 hscope
  | assign _ _ ih | ret _ ih | loopTest _ _ _ ih | loopBody _ _ _ ih => exact ih h.2.2 hscope
  | define _ _ ih => exact ih h.2.2 (by exact hscope)
  | argument _ _ _ _ _ ih | branch _ _ _ ih => exact ih h.2.2.2 hscope
  | superclass _ _ _ _ ih => exact ih h.2.2.2.2 hscope
  | sequence _ _ ih => exact ih (h.2.2 p.names) hscope
  | leaveScope outer _ ih =>
      obtain ⟨-, -, q, hq, -, -, hk⟩ := h
      exact ih hk (show q.scope = { st with current := outer }.current from hq)
  | endBody _ _ ih =>
      obtain ⟨-, context, hk⟩ := h
      exact ih hk (by exact hscope)

/-- A sound task that fails leaves a sound state behind. -/
theorem Task.Sound.unwind {task : Task goal} (h : task.Sound known st.store p)
    (hplace : st.At known table p) : Machine.SoundEnd known table (task.unwind st) := by
  have hcurrent : (task.unwind st).current = Store.globals := by
    cases task with
    | eval e k | value v k => exact h.2.current_unwind hplace.scope
    | exec t k => exact h.2.2.current_unwind (p := { p with names := t.after p.names }) hplace.scope
    | flow f k => exact h.2.2.current_unwind hplace.scope
  exact ⟨task.store_unwind st ▸ hplace.store, task.table_unwind st ▸ hplace.table, hcurrent,
    task.store_unwind st ▸ hplace.size_pos⟩

/-! ## Values -/

/-- The scope of a reference has its name. -/
theorem State.local?_of_owner? {target : Reference} {scope : ScopeRef}
    (h : st.owner? target = some scope) : (st.store.local? scope target.name.lexeme).isSome := by
  unfold owner? at h
  split at h
  · unfold Store.ownerAt? at h
    split at h
    · cases h
    · split at h
      next hlocal =>
        obtain rfl := Option.some.inj h
        exact hlocal
      next => cases h
  · exact Store.local?_of_owner? h

/-- A value takes the place of another. -/
theorem State.At.write {scope : ScopeRef} {name : Token} {v : Value} (h : st.At known table p)
    (hname : name.IsName) (hlocal : (st.store.local? scope name.lexeme).isSome)
    (hv : v.Sound known st.store) :
    (st.write scope name v).At known table p ∧
      Grows (p.scope + 1) st.store (st.write scope name v).store :=
  have hg : Grows (p.scope + 1) st.store (st.write scope name v).store := .write hlocal
  ⟨h.of_store (h.store.define hname (hv.grow (.refl known) hg)) hg (Nat.lt_succ_self _), hg⟩

/-! ## Calls -/

/-- A bound method is a sound value. -/
theorem State.At.bind {m : Closure} (h : st.At known table p)
    (hm : m.SoundMethod known st.store) (receiver : InstanceRef) :
    (st.bind m receiver).2.At known table p ∧
      (st.bind m receiver).1.Sound known (st.bind m receiver).2.store ∧
      Grows p.scope st.store (st.bind m receiver).2.store := by
  obtain ⟨hclosure, hsound, hg⟩ := h.store.bindMethod hm receiver
  exact ⟨h.of_store hsound hg h.lt_size, hclosure, hg.weaken (Nat.le_of_lt h.lt_size)⟩

theorem State.At.newInstance {c : Class} (h : st.At known table p) (hc : c.Sound known st.store) :
    State.At known table { st with store := (st.store.newInstance c).2 } p ∧
      Grows (p.scope + 1) st.store (st.store.newInstance c).2 := by
  have hg : Grows (p.scope + 1) st.store (st.store.newInstance c).2 := .of_scopes_eq rfl
  exact ⟨h.of_store (h.store.newInstance hc) hg (Nat.lt_succ_self _), hg⟩

/-- What is called is sound, and so is what it is called with. -/
theorem Task.Sound.of_calls {task : Task goal} {called : Value} {closing : Token}
    {arguments : List Value} {k : Cont goal .value} {s : Store} (h : task.Sound known s p)
    (hcalls : task.Calls called closing arguments k) :
    called.Sound known s ∧ (∀ v ∈ arguments, v.Sound known s) ∧ k.Sound known s p := by
  cases hcalls with
  | plain => exact ⟨h.1, List.forall_mem_nil _, h.2.2⟩
  | last v called closing done k =>
    obtain ⟨hv, hcalled, hdone, -, hk⟩ := h
    have hall : ∀ w ∈ v :: done, w.Sound known s := List.forall_mem_cons.mpr ⟨hv, hdone⟩
    exact ⟨hcalled, fun w hw => hall w (List.mem_reverse.mp hw), hk⟩

namespace Machine

/-- The body of a function starts in a scope that it fits. -/
theorem enterBody_sound {closure : Closure} {arguments : List Value} {k : Cont goal .value}
    (h : st.At known table p) (hclosure : closure.Sound known st.store)
    (harguments : ∀ v ∈ arguments, v.Sound known st.store)
    (hlen : arguments.length = closure.decl.parameters.length) (hk : k.Sound known st.store p) :
    (enterBody closure arguments k st).Sound known table := by
  obtain ⟨identity, ⟨name, parameters, body⟩, scope, isInitializer⟩ := closure
  obtain ⟨Γ, context, hmodels, hsettled, ⟨hnew, hnames, hbody⟩, hthis⟩ := hclosure
  obtain ⟨names, hfold, hfalse, htrue⟩ := Scopes.foldl_introduce_empty Γ hlen
  rw [hfold] at hbody
  have hg : Grows st.store.scopes.size st.store
      (st.store.newScope (.ofArguments parameters arguments) (some scope)).2 := .newScope
  have hbindings {name : String} {v : Value}
      (hv : (NameMap.ofArguments parameters arguments).get? name = some v) :
      v.Sound known st.store ∧ ∀ keyword : Keyword, name ≠ keyword.text := by
    obtain ⟨⟨q, hq, rfl⟩, hargument⟩ := NameMap.of_get?_ofArguments hv
    exact ⟨harguments v hargument, hnames q hq⟩
  have hstore := h.store.newScope (.ofArguments parameters arguments) (some scope)
    (fun _ _ hv => (hbindings hv).1.grow (.refl known) hg)
    (fun _ hv => absurd rfl ((hbindings hv).2 .this))
    (fun _ hv => absurd rfl ((hbindings hv).2 .super))
  refine ⟨⟨st.store.scopes.size, names :: Γ, context, none⟩,
    ⟨hstore, h.table, rfl, .enter hmodels hsettled hfalse htrue⟩, trivial, fun _ => rfl,
    rfl, hbody, fun _ => ⟨rfl, h.scope ▸ h.lt_size, { p with context }, h.scope, rfl, ?_, ?_⟩⟩
  · have hstands := h.stands.grow hg h.lt_size
    exact ⟨hstands.models, hstands.settled, hstands.exact⟩
  · exact ⟨fun hinit => hg.keeps _ _ (hthis hinit), p.context,
      hk.grow hg (Nat.le_of_lt h.lt_size)⟩

end Machine

/-! ## Classes -/

/-- Methods are made without a scope of their own. -/
theorem State.scopes_newMethods (s : Store) (scope : ScopeRef) (ds : List FunctionDecl) :
    (newMethods s scope ds).2.scopes = s.scopes := by
  induction ds generalizing s with
  | nil => rfl
  | cons d ds ih => exact ih (s.newClosure d scope (d.name.lexeme == initializerName)).2

/-- Methods are made without an instance. -/
theorem State.instances_newMethods (s : Store) (scope : ScopeRef) (ds : List FunctionDecl) :
    (newMethods s scope ds).2.instances = s.instances := by
  induction ds generalizing s with
  | nil => rfl
  | cons d ds ih => exact ih (s.newClosure d scope (d.name.lexeme == initializerName)).2

theorem State.newMethods_sound {s : Store} {scope : ScopeRef} {Γ : Scopes}
    {ds : List FunctionDecl} (hmodels : s.Models scope Γ) (hΓ : Γ.Settled none)
    (hds : FunctionDecl.AreScoped known (Γ.given .this) ds) :
    ∀ m ∈ (newMethods s scope ds).1, m.SoundMethod known s := by
  induction ds generalizing s with
  | nil => simp [newMethods]
  | cons d ds ih =>
      have hg : Grows 0 s (s.newClosure d scope (d.name.lexeme == initializerName)).2 :=
        .of_scopes_eq rfl
      have hmethods := ih (hmodels.grow hg) hds.2
      refine List.forall_mem_cons.mpr ⟨?_, fun m hm => ?_⟩
      · exact ⟨Γ, _, hmodels, hΓ, hds.1⟩
      · exact (hmethods m hm).grow (.refl known) (show Grows 0 _ s from .of_scopes_eq rfl)

/-- A class is made of methods that fit the scopes around them. -/
theorem State.At.newClass {superclass : Option Class} {methods : List FunctionDecl}
    (h : st.At known table p) (name : Token) (hpending : p.pending = none)
    (hsuper : ∀ c ∈ superclass, c.Sound known st.store)
    (hmethods : match superclass with
      | none => FunctionDecl.AreScoped known (p.names.given .this) methods
      | some _ => FunctionDecl.AreScoped known ((p.names.given .super).given .this) methods) :
    (st.newClass name superclass methods).2.At known table p ∧
      (st.newClass name superclass methods).1.Sound known
        (st.newClass name superclass methods).2.store ∧
      Grows st.store.scopes.size st.store (st.newClass name superclass methods).2.store := by
  have hsettled : p.names.Settled none := hpending ▸ h.stands.settled
  cases superclass with
  | none =>
      have hsound := State.newMethods_sound h.stands.models hsettled hmethods
      rw [h.scope] at hsound
      have hscopes := State.scopes_newMethods st.store st.current methods
      have hinstances := State.instances_newMethods st.store st.current methods
      have hg : Grows st.store.scopes.size st.store (st.newClass name none methods).2.store :=
        .of_scopes_eq hscopes
      exact ⟨h.of_store (h.store.of_eq hscopes hinstances) hg h.lt_size,
        fun m hm => (hsound m hm).grow (.refl known) hg, hg⟩
  | some c =>
      have hnew : Grows st.store.scopes.size st.store (st.store.newScope
          (NameMap.empty.insert Keyword.super.text (.cls c)) (some st.current)).2 := .newScope
      have hc : c.Sound known st.store := hsuper c rfl
      have hstore := h.store.newScope (.insert .empty Keyword.super.text (.cls c)) (some st.current)
        (fun other v hv => by
          obtain ⟨-, rfl⟩ := NameMap.get?_single_iff.mp hv
          exact hc.grow (.refl known) hnew)
        (fun v hv => absurd (NameMap.get?_single_iff.mp hv).1 (by decide))
        (fun v hv => ⟨c, (NameMap.get?_single_iff.mp hv).2.symm⟩)
      have hmodels := (h.scope ▸ h.stands.models).given .super (.cls c)
      have hsound := State.newMethods_sound hmodels (hsettled.given .super) hmethods
      have hscopes := State.scopes_newMethods (st.store.newScope
        (NameMap.empty.insert Keyword.super.text (.cls c)) (some st.current)).2
        st.store.scopes.size methods
      have hinstances := State.instances_newMethods (st.store.newScope
        (NameMap.empty.insert Keyword.super.text (.cls c)) (some st.current)).2
        st.store.scopes.size methods
      have hg : Grows st.store.scopes.size st.store (st.newClass name (some c) methods).2.store :=
        hnew.trans (.of_scopes_eq hscopes)
      exact ⟨h.of_store (hstore.of_eq hscopes hinstances) hg h.lt_size,
        ⟨hc.grow (.refl known) hg, fun m hm =>
          (hsound m hm).grow (.refl known) (show Grows 0 _ _ from .of_scopes_eq hscopes)⟩, hg⟩

/-- A class takes the place of what its name has been declared with. -/
theorem State.At.defineClass {superclass : Option Class} {methods : List FunctionDecl}
    {name : Token} {scope : ScopeRef} (h : st.At known table p)
    (howner : st.store.owner? st.current name.lexeme = some scope) (hname : name.IsName)
    (hpending : p.pending = none) (hsuper : ∀ c ∈ superclass, c.Sound known st.store)
    (hmethods : match superclass with
      | none => FunctionDecl.AreScoped known (p.names.given .this) methods
      | some _ => FunctionDecl.AreScoped known ((p.names.given .super).given .this) methods)
    {k : Cont goal .flow} (hk : k.Sound known st.store p) :
    (Step.next (.flow .normal k) ((st.newClass name superclass methods).2.write scope name
      (.cls (st.newClass name superclass methods).1))).Sound known table := by
  obtain ⟨hnew, hc, hg⟩ := h.newClass name hpending hsuper hmethods
  obtain ⟨hwrite, hg'⟩ := hnew.write (v := .cls _) hname
    (hg.keeps _ _ (Store.local?_of_owner? howner)) hc
  exact ⟨p, hwrite, trivial, fun _ => rfl,
    (hk.grow hg (Nat.le_of_lt h.lt_size)).grow hg' (Nat.le_succ _)⟩

/-! ## Tasks -/

/-- A function fits the scopes around it once its name has a value. -/
theorem State.At.defineFunction {function : FunctionDecl} (h : st.At known table p)
    (hpending : p.pending = none) (hnew : p.names.IsNew function.name)
    (hname : function.name.IsName)
    (hfunction : function.Scoped known (p.names.introduce function.name) .function) :
    (st.defineFunction function).At known table (p.introduce function.name) ∧
      Grows p.scope st.store (st.defineFunction function).store := by
  have hg : Grows (p.scope + 1) st.store (st.store.newClosure function st.current false).2 :=
    .of_scopes_eq rfl
  have hstore : (st.store.newClosure function st.current false).2.Sound known :=
    h.store.of_eq rfl rfl
  have hclosure := h.of_store hstore hg (Nat.lt_succ_self _)
  have hstands := hclosure.stands.introduce hpending hnew
    (v := .function (st.store.newClosure function st.current false).1)
  rw [hclosure.scope] at hstands
  have hsettled := hstands.settled
  rw [show (p.introduce function.name).pending = none from hpending] at hsettled
  have hmodels := hstands.models
  rw [show (p.introduce function.name).scope = st.current from h.scope] at hmodels
  have hsound : Closure.Sound known (st.defineFunction function).store
      (st.store.newClosure function st.current false).1 :=
    ⟨_, .function, hmodels, hsettled, hfunction, fun hinit => by cases hinit⟩
  exact ⟨hclosure.introduce hname hpending hnew hsound,
    (hg.weaken (Nat.le_succ _)).trans (hclosure.grows_define _ _)⟩

/-- A block starts in an empty scope. -/
theorem State.At.enterBlock (h : st.At known table p) (hpending : p.pending = none) :
    (st.enter .empty st.current).At known table
        ⟨st.store.scopes.size, .empty :: p.names, p.context, none⟩ ∧
      Grows st.store.scopes.size st.store (st.enter .empty st.current).store := by
  have hsettled : p.names.Settled none := hpending ▸ h.stands.settled
  have hmodels : st.store.Models st.current p.names := h.scope ▸ h.stands.models
  have hstore : (st.store.newScope .empty (some st.current)).2.Sound known :=
    h.store.newScope _ _ (fun _ _ hv => by cases hv) (fun _ hv => by cases hv) fun _ hv => by cases hv
  exact ⟨⟨hstore, h.table, rfl, .enter hmodels hsettled (by simp) (by simp)⟩, .newScope⟩

/-- What a task is taken apart to is sound, in the same place or one with another name that is
pending, or another context. -/
theorem Task.Unfolds.sound {task task' : Task goal} (hunfolds : task.Unfolds st task')
    (h : st.At known table p) (htask : task.Sound known st.store p) :
    Machine.Sound known table task' st := by
  have hstrict {e : Expr} {Γ : Scopes} (he : e.Scoped known True Γ) :
      e.Scoped known (goal = .flow) Γ := he.mono (.refl known) fun _ => trivial
  cases hunfolds with
  | literal v k => cases v <;> exact ⟨p, h, trivial, htask.2⟩
  | «variable» k hv | receiver k hv =>
    obtain ⟨scope, hheld⟩ := State.local?_of_read hv
    exact ⟨p, h, h.store.value scope _ _ hheld, htask.2⟩
  | grouping inner k => exact ⟨p, h, htask⟩
  | unary op operator operand k => exact ⟨p, h, htask.1.2, htask.2⟩
  | binary op operator left right k | logical op operator left right k =>
    obtain ⟨⟨-, hleft, hright⟩, hk⟩ := htask
    exact ⟨p, h, hleft, hright, hk⟩
  | assign target value k =>
    obtain ⟨⟨htarget, hname, hvalue⟩, hk⟩ := htask
    exact ⟨p, h, hvalue, htarget, hname, hk⟩
  | get object name k => exact ⟨p, h, htask⟩
  | set object name value k | call callee closing arguments k =>
    exact ⟨p, h, htask.1.1, htask.1.2, htask.2⟩
  | expression value k | print value k =>
    obtain ⟨hpending, hvalue, hk⟩ := htask
    exact ⟨p, h, hstrict hvalue, hpending, hk⟩
  | varDecl name initializer k =>
    obtain ⟨hpending, ⟨hnew, hname, hinitializer⟩, hk⟩ := htask
    refine ⟨p.declare name, ⟨h.store, h.table, h.scope, h.stands.declare hpending hnew⟩,
      hstrict (hinitializer initializer rfl), rfl, hname, ?_⟩
    rw [Place.define_declare hpending]
    exact hk
  | branch condition yes no k =>
    obtain ⟨hpending, ⟨hcondition, hyes, hno⟩, hk⟩ := htask
    exact ⟨p, h, hstrict hcondition, hpending, hyes, hno, hk⟩
  | loop condition body k =>
    obtain ⟨hpending, hloop, hk⟩ := htask
    exact ⟨p, h, hstrict hloop.1, hpending, hloop, hk⟩
  | ret keyword value k =>
    obtain ⟨hpending, ⟨hcontext, hvalue⟩, hk⟩ := htask
    exact ⟨p, h, hstrict (hvalue value rfl), hpending, hcontext, hk⟩
  | retNothing keyword k =>
    obtain ⟨-, ⟨hcontext, -⟩, hk⟩ := htask
    exact ⟨p, h, trivial, fun hnone => absurd hnone hcontext, hk⟩
  | operated k hw =>
    exact ⟨p, h, UnaryOp.of_apply hw (fun _ => trivial) fun _ => trivial, htask.2⟩
  | left op operator right v k =>
    obtain ⟨hv, hright, hk⟩ := htask
    exact ⟨p, h, hright, hv, hk⟩
  | combined k hw =>
    exact ⟨p, h, BinaryOp.of_apply hw (fun _ => trivial) (fun _ => trivial) fun _ => trivial,
      htask.2.2⟩
  | decided right k hdecided => exact ⟨p, h, htask.1, htask.2.2⟩
  | undecided right k hdecided => exact ⟨p, h, htask.2⟩
  | field k hfield =>
    exact ⟨p, h, h.store.field _ _ _ (Store.field?_of_property? hfield), htask.2⟩
  | object object name value k => exact ⟨p, h, htask.2⟩
  | callee v closing first rest k =>
    obtain ⟨hv, ⟨hfirst, hrest⟩, hk⟩ := htask
    exact ⟨p, h, hfirst, hv, List.forall_mem_nil _, hrest, hk⟩
  | argument v called closing done next rest k =>
    obtain ⟨hv, hcalled, hdone, ⟨hnext, hrest⟩, hk⟩ := htask
    exact ⟨p, h, hnext, hcalled, List.forall_mem_cons.mpr ⟨hv, hdone⟩, hrest, hk⟩
  | constructed v object k => exact ⟨p, h, trivial, htask.2⟩
  | discarded v k => exact ⟨p, h, trivial, fun _ => rfl, htask.2.2⟩
  | returned v k =>
    obtain ⟨hv, -, hcontext, hk⟩ := htask
    exact ⟨p, h, hv, fun hnone => absurd hnone hcontext, hk⟩
  | yes yes no k htruthy =>
    obtain ⟨-, hpending, ⟨hyes, hplain⟩, -, hk⟩ := htask
    exact ⟨p, h, hpending, hyes, by rwa [Stmt.after_of_isPlain hplain]⟩
  | no yes no k htruthy =>
    obtain ⟨-, hpending, -, ⟨hno, hplain⟩, hk⟩ := htask
    exact ⟨p, h, hpending, hno, by rwa [Stmt.after_of_isPlain hplain]⟩
  | neither yes k htruthy => exact ⟨p, h, trivial, fun _ => rfl, htask.2.2.2.2⟩
  | goesRound condition body k htruthy =>
    obtain ⟨-, hpending, hloop, hk⟩ := htask
    refine ⟨p, h, hpending, hloop.2.1, ?_⟩
    rw [Stmt.after_of_isPlain hloop.2.2]
    exact ⟨hpending, hloop, hk⟩
  | isOver condition body k htruthy => exact ⟨p, h, trivial, fun _ => rfl, htask.2.2.2⟩
  | finished f k | skipped v s rest k =>
    obtain ⟨hf, hnormal, -, -, hk⟩ := htask
    exact ⟨p, h, hf, hnormal, hk p.names⟩
  | first s rest k =>
    obtain ⟨-, -, hpending, ⟨hs, hrest⟩, hk⟩ := htask
    exact ⟨p, h, hpending, hs, hpending, hrest, hk⟩
  | tests condition body k =>
    obtain ⟨-, -, hpending, hloop, hk⟩ := htask
    exact ⟨p, h, hstrict hloop.1, hpending, hloop, hk⟩
  | leavesLoop v condition body k =>
    obtain ⟨hf, hnormal, -, -, hk⟩ := htask
    exact ⟨p, h, hf, hnormal, hk⟩
  | results f closure k =>
    obtain ⟨hf, -, -, context, hk⟩ := htask
    have hresult : (Machine.bodyResult closure f st).Sound known st.store :=
      Machine.of_bodyResult trivial h.store.value fun v hv => by rwa [hv] at hf
    exact ⟨{ p with context },
      ⟨h.store, h.table, h.scope, h.stands.models, h.stands.settled, h.stands.exact⟩, hresult, hk⟩

namespace Machine

theorem Rule.sound {limit : Nat} {task : Task goal} {step : Step goal}
    (hrule : Rule limit st task step) (h : st.At known table p)
    (htask : task.Sound known st.store p) : step.Sound known table := by
  have hopen : ({ st with calls := st.calls + 1 } : State).At known table p :=
    ⟨h.store, h.table, h.scope, h.stands⟩
  cases hrule with
  | halts outcome =>
    cases goal with
    | value => exact ⟨h.store, h.table, h.scope.symm.trans htask.2.1, h.size_pos⟩
    | flow => exact ⟨h.store, h.table, h.scope.symm.trans htask.2.2.1, h.size_pos⟩
  | fails hfails => exact htask.unwind h
  | failsBase name methods k hnone =>
    obtain ⟨hpending, ⟨hnew, hname, -⟩, hk⟩ := htask
    have hdefine := h.introduce (v := .nil) hname hpending hnew trivial
    have htask : (Task.flow .normal k).Sound known (st.define name .nil).store (p.introduce name) :=
      ⟨trivial, fun _ => rfl, hk.grow (h.grows_define name .nil) (Nat.le_refl _)⟩
    exact htask.unwind hdefine
  | unfolds hunfolds => exact hunfolds.sound h htask
  | varDecl name k =>
    obtain ⟨hpending, ⟨hnew, hname, -⟩, hk⟩ := htask
    exact ⟨_, h.introduce (v := .nil) hname hpending hnew trivial, trivial, fun _ => rfl,
      hk.grow (h.grows_define name .nil) (Nat.le_refl _)⟩
  | define v name k =>
    obtain ⟨hv, hpending, hname, hk⟩ := htask
    have hg := h.grows_define name v
    exact ⟨_, h.define hname hpending (hv.grow (.refl known) hg), trivial, fun _ => rfl,
      hk.grow hg (Nat.le_refl _)⟩
  | funDecl d k =>
    obtain ⟨hpending, ⟨hnew, hname, hfunction⟩, hk⟩ := htask
    obtain ⟨hdefine, hg⟩ := h.defineFunction hpending hnew hname hfunction
    exact ⟨_, hdefine, trivial, fun _ => rfl, hk.grow hg (Nat.le_refl _)⟩
  | subclass name reference methods k =>
    obtain ⟨hpending, ⟨hnew, hname, hreference, hmethods⟩, hk⟩ := htask
    have hheld : ((st.define name .nil).store.local? p.scope name.lexeme).isSome := by
      rw [State.define, ← h.scope, Store.local?_define_self h.lt_size]
      rfl
    have hstrict := hreference.mono (.refl known) fun _ : goal = .flow => trivial
    exact ⟨_, h.introduce (v := .nil) hname hpending hnew trivial, hstrict, hpending, hname, hheld,
      hmethods, hk.grow (h.grows_define name .nil) (Nat.le_refl _)⟩
  | base name methods k howner =>
    obtain ⟨hpending, ⟨hnew, hname, hmethods⟩, hk⟩ := htask
    have hdefine := h.introduce (v := .nil) hname hpending hnew trivial
    have hsuper : ∀ c ∈ (none : Option Class), c.Sound known (st.define name .nil).store := nofun
    exact hdefine.defineClass howner hname hpending hsuper hmethods
      (hk.grow (h.grows_define name .nil) (Nat.le_refl _))
  | derived c name reference methods k howner =>
    obtain ⟨hc, hpending, hname, -, hmethods, hk⟩ := htask
    have hsuper : ∀ d ∈ some c, d.Sound known st.store := fun d hd => Option.mem_some.mp hd ▸ hc
    exact h.defineClass howner hname hpending hsuper hmethods hk
  | assign v target k howner =>
    obtain ⟨hv, -, hname, hk⟩ := htask
    obtain ⟨hwrite, hg⟩ := h.write (v := v) hname (State.local?_of_owner? howner) hv
    exact ⟨p, hwrite, hv.grow (.refl known) hg, hk.grow hg (Nat.le_succ _)⟩
  | setField v object name k =>
    have hg : Grows (p.scope + 1) st.store (st.store.setField object name.lexeme v) :=
      .of_scopes_eq rfl
    exact ⟨p, h.of_store (h.store.setField htask.1) hg (Nat.lt_succ_self _),
      htask.1.grow (.refl known) hg, htask.2.grow hg (Nat.le_succ _)⟩
  | inherited target method k hfound hm =>
    obtain ⟨scope, hheld⟩ := State.local?_of_inheritance hfound
    have hsound := h.store.value scope _ _ hheld
    obtain ⟨hbind, hv, hg⟩ := h.bind (Class.Sound.method? hsound hm) _
    exact ⟨p, hbind, hv, htask.2.grow hg (Nat.le_refl _)⟩
  | method object name k hm =>
    obtain ⟨c, hc, hmethod⟩ := Store.method?_of_property? hm
    obtain ⟨hbind, hv, hg⟩ := h.bind ((h.store.cls object c hc).method? hmethod) object
    exact ⟨p, hbind, hv, htask.2.grow hg (Nat.le_refl _)⟩
  | print v k =>
    exact ⟨p, ⟨h.store, h.table, h.scope, h.stands⟩, trivial, fun _ => rfl, htask.2.2⟩
  | block body k =>
    obtain ⟨hpending, hbody, hk⟩ := htask
    obtain ⟨henter, hg⟩ := h.enterBlock hpending
    exact ⟨_, henter, trivial, fun _ => rfl, rfl, hbody, fun Γ => ⟨rfl, h.scope ▸ h.lt_size, p,
      h.scope, rfl, h.stands.grow hg h.lt_size, hk.grow hg (Nat.le_of_lt h.lt_size)⟩⟩
  | leaveScope f outer k =>
    obtain ⟨hf, hnormal, -, -, q, hscope, hcontext, hq, hk⟩ := htask
    exact ⟨q, ⟨h.store, h.table, hscope, hq⟩, hf, hcontext ▸ hnormal, hk⟩
  | function closure arguments k hcalls harity hlt =>
    obtain ⟨hclosure, harguments, hk⟩ := htask.of_calls hcalls
    exact enterBody_sound (k := .endCall k) hopen hclosure harguments harity.symm hk
  | newInstance c k hcalls hlt hm =>
    obtain ⟨hc, -, hk⟩ := htask.of_calls hcalls
    obtain ⟨hnew, hg⟩ := hopen.newInstance hc
    exact ⟨p, hnew, trivial, hk.grow hg (Nat.le_succ _)⟩
  | initializer c m arguments k hcalls harity hlt hm =>
    obtain ⟨hc, harguments, hk⟩ := htask.of_calls hcalls
    obtain ⟨hnew, hg⟩ := hopen.newInstance hc
    obtain ⟨hbind, hbound, hg'⟩ := hnew.bind ((hc.method? hm).grow (.refl known) hg)
      (st.store.newInstance c).1
    refine enterBody_sound (k := .construct _ (.endCall k)) hbind hbound (fun v hv => ?_)
      harity.symm ((hk.grow hg (Nat.le_succ _)).grow hg' (Nat.le_refl _))
    exact ((harguments v hv).grow (.refl known) hg).grow (.refl known) hg'
  | endCall v k => exact ⟨p, ⟨h.store, h.table, h.scope, h.stands⟩, htask⟩

/-- A step of a sound machine leaves it sound. -/
theorem step_sound (limit : Nat) {task : Task goal} (h : Sound known table task st) :
    (step limit task st).Sound known table := by
  obtain ⟨p, hplace, htask⟩ := h
  exact (step_rule limit task st).sound hplace htask

end Machine

end

end Lox
