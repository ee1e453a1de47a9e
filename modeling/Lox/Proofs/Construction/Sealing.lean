import Lox.Proofs.Construction.Places
import Lox.Proofs.Provenance.Steps

/-!
# Receivers stay where they are

A method that is bound to an instance is a closure around a scope that holds the instance as
its receiver. Nothing else ever comes into that scope, and the receiver never leaves it. No
code runs in the scope, so nothing is declared there, and what is assigned is a name, which
the scope does not have.

## Implementation notes

How far out a reference is looked up is left open, and so is what has been found out about
any: the argument is that no table leads to a scope that has the name. This is why the
invariant says what receivers' scopes hold and in which scopes code may run, rather than what
references find.
-/

namespace Lox

variable {events events' : List Event} {s s' : Store} {sets opens : ScopeRef → String → Prop}
  {scope : ScopeRef} {object : InstanceRef} {goal : Yield} {task : Task goal} {st st' : State}

/-! ## Scopes of receivers -/

/-- Whether a scope holds a receiver and nothing else. -/
def Store.HoldsOnly (s : Store) (scope : ScopeRef) (object : InstanceRef) : Prop :=
  ∀ name, s.local? scope name = if name = Keyword.this.text then some (.object object) else none

namespace Store.HoldsOnly

theorem of_bindMethod (s : Store) (m : Closure) (object : InstanceRef) :
    (s.bindMethod m object).2.HoldsOnly s.scopes.size object := by
  intro name
  refine local?_newScope.trans ((if_pos rfl).trans ?_)
  rw [NameMap.get?_insert, NameMap.get?_empty]
  exact if_congr eq_comm rfl rfl

theorem receiver (h : s.HoldsOnly scope object) :
    s.local? scope Keyword.this.text = some (.object object) :=
  (h _).trans (if_pos rfl)

theorem lt (h : s.HoldsOnly scope object) : scope < s.scopes.size := by
  have hsome : (s.local? scope Keyword.this.text).isSome := by rw [h.receiver]; rfl
  exact lt_of_local? hsome

theorem newScope {bindings : NameMap Value} {enclosing : Option ScopeRef}
    (h : s.HoldsOnly scope object) : (s.newScope bindings enclosing).2.HoldsOnly scope object :=
  fun name => (local?_newScope.trans (if_neg (Nat.ne_of_lt h.lt))).trans (h name)

theorem of_changes (h : s.HoldsOnly scope object) (hs : s.Changes sets opens s')
    (hsets : ∀ name, ¬sets scope name) : s'.HoldsOnly scope object := fun name =>
  ((hs.value scope h.lt name).resolve_right fun hset => hsets name hset.1).trans (h name)

end Store.HoldsOnly

/-- When a method is bound, the scope around it holds the receiver and nothing else. -/
theorem Event.Arises.holdsOnly {m f : Closure} (h : (Event.bound m object f).Arises task st s') :
    s'.HoldsOnly f.scope object := by
  cases h with
  | inherited | got => exact .of_bindMethod st.store m object
  | constructed _ _ hf =>
    subst hf
    exact (Store.HoldsOnly.of_bindMethod _ m _).newScope

/-- Whether a scope is one that code may run in, which is that of no receiver. -/
def Store.IsOpen (events : List Event) (s : Store) (scope : ScopeRef) : Prop :=
  scope < s.scopes.size ∧ ∀ m object f, .bound m object f ∈ events → f.scope ≠ scope

/-! ## Names -/

/-- What a task gives a value is a name of the code. -/
theorem Task.FramesOf.isNameOf {P : Token → Prop} {t : Token} (h : task.FramesOf P)
    (ht : t ∈ task.sets?) : t.IsNameOf P := by
  cases task with
  | eval e k => cases ht
  | exec d k =>
    obtain ⟨hd, -⟩ := h
    cases d with
    | varDecl name initializer =>
      cases initializer with
      | none => exact Option.some.inj ht ▸ hd.1
      | some e => cases ht
    | funDecl function => exact Option.some.inj ht ▸ FunctionDecl.MadeOf.name hd
    | classDecl name superclass methods =>
      cases superclass <;> exact Option.some.inj ht ▸ hd.1
    | _ => cases ht
  | value v k =>
    cases k with
    | assign target k => exact Option.some.inj ht ▸ h.1
    | define name k => exact Option.some.inj ht ▸ h.1
    | superclass name reference methods k => exact Option.some.inj ht ▸ h.1.1
    | _ => cases ht
  | flow f k => cases ht

/-- Nothing in the scope of a receiver is given a value. -/
theorem Store.HoldsOnly.not_sets (h : st.store.HoldsOnly scope object)
    (htask : task.FramesOf Token.IsSpelled) (hne : scope ≠ st.current) (name : String) :
    ¬task.Sets st scope name := by
  rintro (⟨heq, -⟩ | ⟨hsome, t, ht, rfl⟩)
  · exact hne heq
  · have hname := htask.isNameOf ht
    rw [h, if_neg (hname.of.name hname.kind .this)] at hsome
    cases hsome

/-! ## Methods and classes -/

/-- What is known of a method that was bound. -/
structure Closure.IsSealed (events : List Event) (s : Store) (m : Closure) (object : InstanceRef)
    (f : Closure) : Prop where
  decl : f.decl = m.decl
  isInitializer : f.isInitializer = (m.name == initializerName)
  enclosing : s.enclosing? f.scope = some m.scope
  only : s.HoldsOnly f.scope object
  method : ∃ statement c, .founded statement c ∈ events ∧ m ∈ c.methods

/-- What is known of a class that was founded. -/
structure Class.IsFounded (events : List Event) (c : Class) : Prop where
  chain : ∀ d ∈ c.chain, ∃ statement, .founded statement d ∈ events
  isInitializer : ∀ m ∈ c.methods, m.isInitializer = (m.name == initializerName)

theorem Closure.IsSealed.keep {m f : Closure} (h : m.IsSealed events s object f)
    (hevents : events ⊆ events') (hs : s.Changes sets opens s')
    (hsets : ∀ name, ¬sets f.scope name) : m.IsSealed events' s' object f where
  decl := h.decl
  isInitializer := h.isInitializer
  enclosing := (hs.enclosing _ h.only.lt).trans h.enclosing
  only := h.only.of_changes hs hsets
  method := by
    obtain ⟨statement, c, hfounded, hm⟩ := h.method
    exact ⟨statement, c, hevents hfounded, hm⟩

theorem Class.IsFounded.mono {c : Class} (h : c.IsFounded events) (hevents : events ⊆ events') :
    c.IsFounded events' where
  chain d hd := (h.chain d hd).imp fun _ hfounded => hevents hfounded
  isInitializer := h.isInitializer

/-- A method is an initializer if its name says so. -/
theorem State.isInitializer_of_newMethods (s : Store) (scope : ScopeRef)
    (methods : List FunctionDecl) : ∀ m ∈ (newMethods s scope methods).1,
      m.isInitializer = (m.name == initializerName) := by
  induction methods generalizing s with
  | nil => exact fun m hm => absurd hm List.not_mem_nil
  | cons d ds ih =>
    rw [newMethods_cons]
    exact List.forall_mem_cons.mpr ⟨rfl, ih _⟩

theorem State.isInitializer_of_newClass (st : State) (name : Token) (superclass : Option Class)
    (methods : List FunctionDecl) : ∀ m ∈ (st.newClass name superclass methods).1.methods,
      m.isInitializer = (m.name == initializerName) := by
  cases superclass <;> exact isInitializer_of_newMethods _ _ methods

/-! ## States and machines -/

/-- Whether the receivers of all methods that were bound are where they were put, whatever is
known about references. -/
structure State.Sealed (events : List Event) (st : State) : Prop where
  code : st.store.All (Holding.MadeOf Token.IsSpelled)
  recorded : st.store.All (Holding.IsRecorded events)
  distinct : Event.AreDistinct events st.store.nextIdentity
  founded : ∀ statement c, .founded statement c ∈ events → c.IsFounded events
  bound : ∀ m object f, .bound m object f ∈ events → m.IsSealed events st.store object f
  current : st.store.IsOpen events st.current

/-- A class that is held was founded, and so were those above it. -/
theorem State.Sealed.isFounded {c : Class} (h : st.Sealed events)
    (hc : (Holding.value (.cls c)).IsRecorded events) : c.IsFounded events := by
  obtain hplain | ⟨event, hevent, hvalue⟩ := hc
  · cases hplain
  · cases event with
    | founded statement d =>
      cases hvalue
      exact h.founded statement c hevent
    | declared f => cases hvalue
    | bound m object f => cases hvalue

namespace Machine

/-- Whether all this is so while a task is carried out. -/
structure Sealed (events : List Event) (task : Task goal) (st : State) : Prop where
  state : st.Sealed events
  code : ∀ x ∈ task.holdings st.current, x.MadeOf Token.IsSpelled
  frames : task.FramesOf Token.IsSpelled
  recorded : ∀ x ∈ task.holdings st.current, x.IsRecorded events
  saved : ∀ scope ∈ task.saved, st.store.IsOpen events scope

namespace Sealed

variable {made : Option Event} {event : Event}

theorem madeOf (h : Sealed events task st) : MadeOf Token.IsSpelled task st :=
  ⟨h.state.code, h.code, h.frames⟩

theorem isOpen_of_mem (h : Sealed events task st) (hscope : scope ∈ st.current :: task.saved) :
    st.store.IsOpen events scope :=
  List.forall_mem_cons.mpr ⟨h.state.current, h.saved⟩ scope hscope

/-- Scopes that were made stay open, and so is one that a step makes but for a receiver. -/
theorem isOpen (h : Sealed events task st) (hs : st.store.Changes sets opens s')
    (hmade : ∀ event ∈ made, event.Arises task st s')
    (hscope : scope ∈ st.current :: task.saved ∨ (st.store.scopes.size ≤ scope ∧
      scope < s'.scopes.size ∧ ∀ m object f, .bound m object f ∈ made → f.scope ≠ scope)) :
    s'.IsOpen (made.toList ++ events) scope := by
  rcases hscope with hold | ⟨hle, hlt, hne⟩
  · obtain ⟨hlt, hne⟩ := h.isOpen_of_mem hold
    refine ⟨Nat.lt_of_lt_of_le hlt hs.size, fun m object f hf => ?_⟩
    rcases List.mem_append.mp hf with hf | hf
    · rw [(hmade _ (Option.mem_toList.mp hf)).binds.1.scope]
      exact Nat.ne_of_gt hlt
    · exact hne m object f hf
  · refine ⟨hlt, fun m object f hf => ?_⟩
    rcases List.mem_append.mp hf with hf | hf
    · exact hne m object f (Option.mem_toList.mp hf)
    · exact Nat.ne_of_lt (Nat.lt_of_lt_of_le (h.state.bound m object f hf).only.lt hle)

/-- A class that a step founds stands below one that was founded, or below none. -/
theorem isFounded {statement : Stmt} {c : Class} (h : Sealed events task st)
    (hevent : (Event.founded statement c).Arises task st s') :
    c.IsFounded (.founded statement c :: events) := by
  cases hevent with
  | @founded name methods k scope htask =>
    have hmade := (st.define name .nil).newClass_made name none methods
    refine ⟨fun d hd => ?_, State.isInitializer_of_newClass _ name none methods⟩
    rw [Class.chain_of_none hmade.parent, List.mem_singleton] at hd
    exact hd ▸ ⟨_, List.mem_cons_self⟩
  | @derived e name reference methods k scope htask =>
    have hmade := st.newClass_made name (some e) methods
    refine ⟨fun d hd => ?_, State.isInitializer_of_newClass st name (some e) methods⟩
    rw [Class.chain_of_some hmade.parent] at hd
    rcases List.mem_cons.mp hd with rfl | hd
    · exact ⟨_, List.mem_cons_self⟩
    · have hheld : (Holding.value (.cls e)).IsRecorded events :=
        h.recorded _ (by rw [htask]; exact List.mem_cons_self)
      exact ((h.state.isFounded hheld).chain d hd).imp fun _ =>
        List.mem_cons_of_mem _

/-- A method that a step binds is one of a class that was founded. -/
theorem isSealed {m f : Closure} (h : Sealed events task st)
    (hevent : (Event.bound m object f).Arises task st s') : m.IsSealed events s' object f := by
  obtain ⟨hbinds, c, hsource, d, hd, hm⟩ := hevent.binds
  have hc : (Holding.value (.cls c)).IsRecorded events := by
    cases hsource with
    | inherited hlocal => exact h.state.recorded.value _ _ _ hlocal
    | got hclass => exact h.state.recorded.cls _ _ hclass
    | constructed hheld => exact h.recorded _ hheld
  obtain ⟨statement, hfounded⟩ := (h.state.isFounded hc).chain d hd
  refine ⟨hbinds.decl, hbinds.isInitializer.trans ?_, hbinds.enclosing, hevent.holdsOnly,
    statement, d, hfounded, hm⟩
  exact (h.state.founded statement d hfounded).isInitializer m hm

/-- The state after a step, with what has come into being. -/
theorem after (h : Sealed events task st) (hs : st.store.Changes (task.Sets st) opens st'.store)
    (hmade : ∀ event ∈ made, event.Arises task st st'.store)
    (hcode : st'.store.All (Holding.MadeOf Token.IsSpelled))
    (hrecorded : st'.store.All (Holding.IsRecorded (made.toList ++ events)))
    (hcurrent : st'.store.IsOpen (made.toList ++ events) st'.current) :
    st'.Sealed (made.toList ++ events) where
  code := hcode
  recorded := hrecorded
  distinct := h.state.distinct.append hs.identity fun event hevent => (hmade event hevent).identities
  founded statement c hc := by
    rcases List.mem_append.mp hc with hnew | hold
    · refine (h.isFounded (hmade _ (Option.mem_toList.mp hnew))).mono ?_
      exact List.cons_subset.mpr ⟨hc, List.subset_append_right _ _⟩
    · exact (h.state.founded statement c hold).mono (List.subset_append_right _ _)
  bound m object f hf := by
    rcases List.mem_append.mp hf with hnew | hold
    · have hsealed := h.isSealed (hmade _ (Option.mem_toList.mp hnew))
      exact { hsealed with
        method := hsealed.method.imp fun _ => .imp fun _ => .imp_left (List.mem_append_right _) }
    · have hsealed := h.state.bound m object f hold
      refine hsealed.keep (List.subset_append_right _ _) hs fun name => ?_
      exact hsealed.only.not_sets h.frames (h.state.current.2 m object f hold) name
  current := hcurrent

/-- The state that is left when a run ends, where nothing comes into being. -/
theorem ended (h : Sealed events task st) (hs : st.store.Changes (task.Sets st) opens st'.store)
    (hcode : st'.store.All (Holding.MadeOf Token.IsSpelled))
    (hrecorded : st'.store.All (Holding.IsRecorded events))
    (hcurrent : st'.current ∈ st.current :: task.saved) : st'.Sealed events := by
  have hmade (event : Event) (hevent : event ∈ none) : event.Arises task st st'.store :=
    nomatch hevent
  exact h.after hs hmade hcode hrecorded (h.isOpen hs hmade (.inl hcurrent))

end Sealed

end Machine

/-! ## Steps and runs -/

/-- Whether receivers are where they were put after a step, with what it has made. -/
def Step.Sealed (events : List Event) (made : Option Event) : Step goal → Prop
  | .next task st => Machine.Sealed (made.toList ++ events) task st
  | .done _ st => st.Sealed events
  | .failed _ st => st.Sealed events

namespace Machine

theorem step_sealed (limit : Nat) (h : Sealed events task st) :
    (step limit task st).Sealed events (task.event? st) := by
  have hs := step_changes limit task h.state.current.1
  have harises (event : Event) (hevent : event ∈ task.event? st) := step_arises limit hevent
  have hcode := step_all_madeOf limit h.madeOf
  have hblames := step_blames limit h.madeOf
  have hplaces := step_places limit task st
  have hrecorded (made : Option Event) (hmade : (step limit task st).IsNext →
      ∀ event ∈ task.event? st, event ∈ made) :
      (step limit task st).All (Holding.IsRecorded (made.toList ++ events)) := by
    have hmono {x : Holding} (hx : x.IsRecorded events) : x.IsRecorded (made.toList ++ events) :=
      hx.mono (List.subset_append_right _ _)
    refine step_all (h.state.recorded.mono fun _ => hmono) Holding.carries_isRecorded
      (fun hnext event hevent => .inr ⟨event, ?_, rfl⟩) fun x hx => hmono (h.recorded x hx)
    exact List.mem_append_left _ (Option.mem_toList.mpr (hmade hnext event hevent))
  cases hstep : step limit task st with
  | next task' st' =>
    specialize hrecorded (task.event? st) fun _ _ => id
    rw [hstep] at hs harises hcode hblames hplaces hrecorded
    have hmade (event : Event) (hevent : event ∈ task.event? st) :
        event.Arises task st st'.store := harises event hevent trivial
    have hopen (scope : ScopeRef) (hscope : scope ∈ st'.current :: task'.saved) :=
      h.isOpen hs hmade (hplaces scope hscope)
    refine ⟨h.after hs hmade hcode.1 hrecorded.1 (hopen _ List.mem_cons_self), hcode.2, hblames,
      hrecorded.2, fun scope hscope => hopen scope (List.mem_cons_of_mem _ hscope)⟩
  | done outcome st' =>
    specialize hrecorded none (by rw [hstep]; exact nofun)
    rw [hstep] at hs hcode hplaces hrecorded
    exact h.ended hs hcode hrecorded hplaces
  | failed error st' =>
    specialize hrecorded none (by rw [hstep]; exact nofun)
    rw [hstep] at hs hcode hplaces hrecorded
    exact h.ended hs hcode hrecorded hplaces

theorem Sealed.of_step {limit : Nat} {step' : Step goal} (h : Sealed events task st)
    (hstep : step limit task st = step') : step'.Sealed events (task.event? st) :=
  hstep ▸ step_sealed limit h

/-- A run that ends leaves receivers where they were put, and instances with their classes. -/
theorem Sealed.run {limit n : Nat} {r : Except RuntimeError goal.Outcome}
    (h : Sealed events task st) (hrun : Machine.run limit n task st = some (r, st')) :
    (∃ later, st'.Sealed (later ++ events)) ∧
      ∀ object c, st.store.class? object = some c → st'.store.class? object = some c := by
  induction n generalizing task st events with
  | zero => cases hrun
  | succ n ih =>
    rw [run_succ] at hrun
    have hs := step_changes limit task h.state.current.1
    cases hstep : step limit task st with
    | next task' st₁ =>
      rw [hstep] at hrun hs
      obtain ⟨⟨later, hlater⟩, hclass⟩ := ih (h.of_step hstep) hrun
      refine ⟨⟨later ++ (task.event? st).toList, ?_⟩, fun object c hc => hclass _ _ (hs.cls _ _ hc)⟩
      rwa [List.append_assoc]
    | done outcome st₁ =>
      rw [hstep] at hrun hs
      cases hrun
      exact ⟨⟨[], h.of_step hstep⟩, hs.cls⟩
    | failed error st₁ =>
      rw [hstep] at hrun hs
      cases hrun
      exact ⟨⟨[], h.of_step hstep⟩, hs.cls⟩

end Machine

end Lox
