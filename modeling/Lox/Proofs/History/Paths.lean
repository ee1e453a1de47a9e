import Lox.Proofs.History.Identities
import Mathlib.Data.List.Perm.Subperm

/-!
# Ways out and up

From a scope that is in use, finitely many links lead to the globals, and from a class,
finitely many to one that has no superclass. The walks of the store and of classes go
along these ways and so come to an end.

## Implementation notes

The way out of a scope is the list of scopes on it. A walk that is given a bound is one
along the whole way, since no scope is on the way twice.
-/

namespace Lox

/-! ## Ways to the globals -/

namespace Store

variable {s s' : Store} {scope outer : ScopeRef} {path : List ScopeRef} {name : String}

/-- The scopes on the way from a scope to the globals, both included. -/
inductive Path (s : Store) : ScopeRef → List ScopeRef → Prop
  | globals (h : s.enclosing? globals = none) (hlt : globals < s.scopes.size) :
      s.Path globals [globals]
  | out {scope outer : ScopeRef} {path : List ScopeRef} (h : s.enclosing? scope = some outer)
      (hpath : s.Path outer path) : s.Path scope (scope :: path)

namespace Path

theorem head_eq (h : s.Path scope path) : ∃ tail, path = scope :: tail := by
  cases h with
  | globals => exact ⟨[], rfl⟩
  | out _ _ => exact ⟨_, rfl⟩

theorem unique (h : s.Path scope path) {other : List ScopeRef} (h' : s.Path scope other) :
    path = other := by
  induction h generalizing other with
  | globals hnone _ =>
    cases h' with
    | globals => rfl
    | out hsome _ => rw [hnone] at hsome; cases hsome
  | out hsome _ ih =>
    cases h' with
    | globals hnone _ => rw [hnone] at hsome; cases hsome
    | out hsome' hpath' =>
      rw [hsome] at hsome'
      cases hsome'
      rw [ih hpath']

theorem mem_lt (h : s.Path scope path) : ∀ x ∈ path, x < s.scopes.size := by
  induction h with
  | globals _ hlt => simpa using hlt
  | out h _ ih => exact List.forall_mem_cons.mpr ⟨lt_of_enclosing? h, ih⟩

/-- From each scope on the way the rest of the way is no longer. -/
theorem of_mem (h : s.Path scope path) {x : ScopeRef} (hx : x ∈ path) :
    ∃ rest, s.Path x rest ∧ rest.length ≤ path.length := by
  induction h with
  | globals hnone hlt =>
    obtain rfl := List.mem_singleton.mp hx
    exact ⟨_, .globals hnone hlt, Nat.le_refl _⟩
  | @out scope outer path h hpath ih =>
    rcases List.mem_cons.mp hx with rfl | hx
    · exact ⟨_, .out h hpath, Nat.le_refl _⟩
    · obtain ⟨rest, hrest, hle⟩ := ih hx
      exact ⟨rest, hrest, Nat.le_succ_of_le hle⟩

/-- No scope is on the way out of itself. -/
theorem nodup (h : s.Path scope path) : path.Nodup := by
  induction h with
  | globals => simp
  | @out scope outer path h hpath ih =>
    refine List.nodup_cons.mpr ⟨fun hmem => ?_, ih⟩
    obtain ⟨rest, hrest, hle⟩ := hpath.of_mem hmem
    rw [hrest.unique (.out h hpath), List.length_cons] at hle
    exact absurd hle (Nat.not_succ_le_self _)

theorem length_le (h : s.Path scope path) : path.length ≤ s.scopes.size := by
  have hsub : path ⊆ List.range s.scopes.size := fun x hx => List.mem_range.mpr (h.mem_lt x hx)
  simpa using (h.nodup.subperm hsub).length_le

/-- So many scopes further out is so far along the way. -/
theorem ancestor?_eq (h : s.Path scope path) (d : Nat) : s.ancestor? scope d = path[d]? := by
  induction h generalizing d with
  | globals hnone _ => cases d <;> simp [ancestor?, hnone]
  | out hsome _ ih =>
    cases d with
    | zero => rfl
    | succ d => rw [ancestor?, hsome, List.getElem?_cons_succ]; exact ih d

theorem ownerWithin?_eq (h : s.Path scope path) {reach : Nat} (hreach : path.length ≤ reach) :
    s.ownerWithin? name reach scope = path.find? fun x => (s.local? x name).isSome := by
  induction h generalizing reach with
  | globals hnone _ =>
    obtain ⟨reach, rfl⟩ := Nat.exists_eq_add_of_le' hreach
    rw [List.length_singleton, ownerWithin?, hnone, List.find?_singleton]
  | @out scope outer path hsome _ ih =>
    obtain ⟨reach, rfl⟩ := Nat.exists_eq_add_of_le' hreach
    rw [List.length_cons, ← Nat.add_assoc, ownerWithin?, hsome, List.find?_cons]
    simp only
    rw [ih (Nat.le_add_left _ _)]
    cases (s.local? scope name).isSome <;> rfl

/-- The nearest scope that has a name is the first on the way that has it. -/
theorem owner?_eq (h : s.Path scope path) :
    s.owner? scope name = path.find? fun x => (s.local? x name).isSome :=
  h.ownerWithin?_eq h.length_le

theorem of_changes {sets opens : ScopeRef → String → Prop}
    (h : s.Path scope path) (hs : s.Changes sets opens s') : s'.Path scope path := by
  induction h with
  | globals hnone hlt =>
    exact .globals ((hs.enclosing _ hlt).trans hnone) (Nat.lt_of_lt_of_le hlt hs.size)
  | out h _ ih => exact .out ((hs.enclosing _ (lt_of_enclosing? h)).trans h) ih

end Path

/-- From a scope that is as it was seen, there is a way to the globals. -/
theorem Models.exists_path {Γ : Scopes} (h : s.Models scope Γ) (hroot : s.enclosing? globals = none) :
    ∃ path, s.Path scope path := by
  induction Γ generalizing scope with
  | nil =>
    obtain ⟨rfl, hlt⟩ := h
    exact ⟨_, .globals hroot hlt⟩
  | cons names Γ ih =>
    obtain ⟨-, outer, houter, hΓ⟩ := h
    obtain ⟨path, hpath⟩ := ih hΓ
    exact ⟨_, .out houter hpath⟩

/-- Whether there is a way from a scope to the globals. -/
def Rooted (s : Store) (scope : ScopeRef) : Prop :=
  ∃ path, s.Path scope path

theorem Rooted.of_changes {sets opens : ScopeRef → String → Prop}
    (h : s.Rooted scope) (hs : s.Changes sets opens s') : s'.Rooted scope :=
  h.imp fun _ hpath => hpath.of_changes hs

theorem Rooted.out (h : s.Rooted outer) (houter : s.enclosing? scope = some outer) :
    s.Rooted scope :=
  have ⟨_, hpath⟩ := h
  ⟨_, .out houter hpath⟩

end Store

/-! ## Classes above a class -/

namespace Class

/-- A class and those above it, from below. -/
def chain : Class → List Class
  | ⟨identity, name, none, methods⟩ => [⟨identity, name, none, methods⟩]
  | ⟨identity, name, some superclass, methods⟩ =>
      ⟨identity, name, some superclass, methods⟩ :: superclass.chain

theorem chain_of_none {c : Class} (h : c.superclass = none) : c.chain = [c] := by
  obtain ⟨identity, name, superclass, methods⟩ := c
  cases superclass with
  | none => rw [chain]
  | some d => cases h

theorem chain_of_some {c d : Class} (h : c.superclass = some d) : c.chain = c :: d.chain := by
  obtain ⟨identity, name, superclass, methods⟩ := c
  cases superclass with
  | none => cases h
  | some e =>
    obtain rfl := Option.some.inj h
    rw [chain]

theorem mem_chain_self (c : Class) : c ∈ c.chain := by
  cases h : c.superclass with
  | none => rw [chain_of_none h]; exact List.mem_singleton_self c
  | some d => rw [chain_of_some h]; exact List.mem_cons_self

/-- Classes are followed upwards by induction. -/
theorem chain_induction {motive : Class → Prop}
    (none : ∀ c : Class, c.superclass = none → motive c)
    (some : ∀ c d : Class, c.superclass = some d → motive d → motive c) : ∀ c, motive c
  | ⟨_, _, .none, _⟩ => none _ rfl
  | ⟨_, _, .some d, _⟩ => some _ d rfl (chain_induction none some d)

/-- A method is looked up in the classes from below. -/
theorem method?_eq (c : Class) (name : String) :
    c.method? name = c.chain.findSome? fun d => ownMethod? d.methods name := by
  induction c using chain_induction with
  | none c h =>
    obtain ⟨identity, other, superclass, methods⟩ := c
    obtain rfl := h
    rw [method?, chain, List.findSome?_singleton]
  | some c d h ih =>
    obtain ⟨identity, other, superclass, methods⟩ := c
    obtain rfl := h
    rw [method?, chain, List.findSome?_cons, ih]
    cases ownMethod? methods name <;> rfl

theorem mem_of_method? {c : Class} {name : String} {m : Closure} (h : c.method? name = some m) :
    ∃ d ∈ c.chain, m ∈ d.methods := by
  rw [method?_eq] at h
  obtain ⟨d, hd, hm⟩ := List.exists_of_findSome?_eq_some h
  exact ⟨d, hd, List.mem_reverse.mp (List.mem_of_find?_eq_some hm)⟩

end Class

/-! ## What is held -/

/-- What is known of a method that is bound, and of the store after that. -/
structure Event.Binds (st : State) (m : Closure) (object : InstanceRef) (f : Closure)
    (s' : Store) : Prop where
  decl : f.decl = m.decl
  isInitializer : f.isInitializer = m.isInitializer
  scope : f.scope = st.store.scopes.size
  enclosing : s'.enclosing? f.scope = some m.scope
  receiver : s'.local? f.scope Keyword.this.text = some (.object object)

theorem Store.bindMethod_binds {st : State} {s : Store} {m : Closure} {object : InstanceRef}
    (hsize : s.scopes.size = st.store.scopes.size) :
    Event.Binds st m object (s.bindMethod m object).1 (s.bindMethod m object).2 := by
  refine ⟨rfl, rfl, hsize, ?_, ?_⟩
  · exact Store.enclosing?_newScope.trans (if_pos rfl)
  · refine Store.local?_newScope.trans ((if_pos rfl).trans ?_)
    exact NameMap.get?_insert_self _ _ _

/-- Where a method that is bound comes from. -/
inductive Event.Source {goal : Yield} (task : Task goal) (st : State) : Class → Prop
  | inherited {scope : ScopeRef} {c : Class}
      (h : st.store.local? scope Keyword.super.text = some (.cls c)) : Source task st c
  | got {object : InstanceRef} {c : Class} (h : st.store.class? object = some c) : Source task st c
  | constructed {c : Class} (h : .value (.cls c) ∈ task.holdings st.current) : Source task st c

/-- A method that is bound is one of a class that is held, or of one above it. -/
theorem Event.Arises.binds {goal : Yield} {task : Task goal} {st : State} {m f : Closure}
    {object : InstanceRef} {s' : Store} (h : (Event.bound m object f).Arises task st s') :
    Event.Binds st m object f s' ∧ ∃ c, Event.Source task st c ∧ ∃ d ∈ c.chain, m ∈ d.methods := by
  cases h with
  | inherited htask hfound hm =>
    obtain ⟨scope, hscope⟩ := State.local?_of_inheritance hfound
    exact ⟨Store.bindMethod_binds rfl, _, .inherited hscope, Class.mem_of_method? hm⟩
  | got htask hfound =>
    obtain ⟨c, hc, hm⟩ := Store.method?_of_property? hfound
    exact ⟨Store.bindMethod_binds rfl, c, .got hc, Class.mem_of_method? hm⟩
  | @constructed c m bindings f hc hm hf hbindings =>
    obtain rfl := hf
    have hbinds : Event.Binds st m st.store.instances.size
        ((st.store.newInstance c).2.bindMethod m st.store.instances.size).1
        ((st.store.newInstance c).2.bindMethod m st.store.instances.size).2 :=
      Store.bindMethod_binds rfl
    have hlt : st.store.scopes.size <
        ((st.store.newInstance c).2.bindMethod m st.store.instances.size).2.scopes.size :=
      Nat.lt_of_lt_of_eq (Nat.lt_succ_self _) Store.size_newScope.symm
    refine ⟨⟨rfl, rfl, rfl, ?_, ?_⟩, c, .constructed hc, Class.mem_of_method? hm⟩
    · exact (Store.enclosing?_newScope.trans (if_neg (Nat.ne_of_lt hlt))).trans hbinds.enclosing
    · exact (Store.local?_newScope.trans (if_neg (Nat.ne_of_lt hlt))).trans hbinds.receiver

/-! ## Ways out of what is held -/

/-- Whether there is a way to the globals from each scope of a holding. -/
def Holding.IsRooted (s : Store) : Holding → Prop
  | .value (.function f) => s.Rooted f.scope
  | .value (.cls c) => ∀ d ∈ c.chain, ∀ m ∈ d.methods, s.Rooted m.scope
  | .value _ => True
  | .code scope _ => s.Rooted scope

namespace Holding

variable {s s' : Store} {sets opens : ScopeRef → String → Prop}

theorem IsRooted.of_changes {x : Holding} (h : x.IsRooted s) (hs : s.Changes sets opens s') :
    x.IsRooted s' := by
  cases x with
  | code scope node => exact Store.Rooted.of_changes h hs
  | value v =>
    cases v with
    | function f => exact Store.Rooted.of_changes h hs
    | cls c => exact fun d hd m hm => (h d hd m hm).of_changes hs
    | _ => trivial

theorem carries_isRooted : Holding.Carries (IsRooted s) s where
  plain v hv := by cases v <;> first | exact hv.elim | trivial
  part _ _ h _ _ := h
  block _ _ _ h henclosing _ _ _ := h.out henclosing
  body _ _ h henclosing _ _ _ := h.out henclosing

end Holding

namespace Phase

variable {a b : Phase}

/-- What comes into being is in scopes from which there is a way to the globals. -/
theorem Next.made_isRooted (h : a.Next b) (ha : a.Sound) (hrooted : a.All (Holding.IsRooted a.state.store)) :
    ∀ event ∈ a.event? b, Holding.IsRooted b.state.store (.value event.value) := by
  intro event hevent
  have hchanges := h.changes ha
  obtain ⟨goal, task, st, nextId, rfl, harises⟩ := h.arises hevent
  have hcurrent (t : Stmt) (ht : Holding.code st.current (.stmt t) ∈ task.holdings st.current) :
      b.state.store.Rooted st.current :=
    (hrooted.holdings _ ht : st.store.Rooted st.current).of_changes hchanges
  generalize hs : b.state.store = s' at *
  cases event with
  | declared f =>
    cases harises with
    | declared htask => exact hcurrent _ (by rw [htask]; exact List.mem_cons_self)
  | founded statement c =>
    cases harises with
    | @founded name methods k scope htask =>
      have hmade := (st.define name .nil).newClass_made name none methods
      intro d hd m hm
      rw [Class.chain_of_none hmade.parent, List.mem_singleton] at hd
      subst hd
      rw [hmade.scope m hm]
      exact hcurrent _ (by rw [htask]; exact List.mem_cons_self)
    | @derived e name reference methods k scope htask =>
      have hmade := st.newClass_made name (some e) methods
      intro d hd m hm
      rw [Class.chain_of_some hmade.parent] at hd
      rcases List.mem_cons.mp hd with rfl | hd
      · rw [hmade.scope m hm]
        have hin := hcurrent _ (by rw [htask]; exact List.mem_cons_of_mem _ List.mem_cons_self)
        refine hin.out ?_
        rw [Store.enclosing?_define]
        exact (hmade.inherited e rfl).2
      · have hholding : (Holding.value (.cls e)).IsRooted st.store :=
          hrooted.holdings _ (by rw [Phase.holdings, htask]; exact List.mem_cons_self)
        exact (hholding d hd m hm).of_changes hchanges
  | bound m object f =>
    obtain ⟨hbinds, c, hsource, d, hd, hm⟩ := harises.binds
    have hc : (Holding.value (.cls c)).IsRooted st.store := by
      cases hsource with
      | inherited h => exact hrooted.store.value _ _ _ h
      | got h => exact hrooted.store.cls _ _ h
      | constructed h => exact hrooted.holdings _ h
    exact ((hc d hd m hm).of_changes hchanges).out hbinds.enclosing

/-- From all that is held there is a way to the globals. -/
theorem Reachable.isRooted (h : a.Reachable) :
    a.state.store.enclosing? Store.globals = none ∧ a.All (Holding.IsRooted a.state.store) := by
  induction h with
  | refl =>
    refine ⟨rfl, ⟨fun scope name v hv => ?_, fun object name v hv => ?_, fun object c hc => ?_⟩,
      by simp [Phase.holdings]⟩
    · cases scope <;> cases hv
    · cases hv
    · cases hc
  | @tail a b hleads hnext ih =>
    have ha : a.Sound := Reachable.sound hleads
    have hchanges := hnext.changes ha
    have hpos : Store.globals < a.state.store.scopes.size :=
      Nat.lt_of_le_of_lt (Nat.zero_le _) ha.current_lt
    have hroot : b.state.store.enclosing? Store.globals = none :=
      (hchanges.enclosing _ hpos).trans ih.1
    refine ⟨hroot, hnext.all (ih.2.mono fun x hx => hx.of_changes hchanges) Holding.carries_isRooted
      (hnext.made_isRooted ha ih.2) fun node hbegins => ?_⟩
    have hcurrent : Store.globals = b.state.current := by
      cases hbegins with
      | program | expression => exact (show Session.Sound _ from ha).state.scope.symm
    exact hcurrent ▸ ⟨_, .globals hroot (Nat.lt_of_lt_of_le hpos hchanges.size)⟩

end Phase

end Lox
