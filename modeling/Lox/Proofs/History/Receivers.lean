import Lox.Proofs.History.Seats
import Mathlib

/-!
# Receivers and superclasses are statically right

Whenever the code of a method is running, be it the method itself or a function inside
it, `this` is the instance that the method was bound to, and `super` looks methods up
from the superclass of the class that the method was declared in. However the method
was reached, and whatever the class of the instance is, does not matter.

## Implementation notes

The history of a phase says which methods were bound, and to what, and which classes were
founded by which statements. The code of a method is running when the scope of its
receiver is the nearest on the way out that has one.
-/

namespace Lox

theorem List.find?_eq_bind_findIdx? {α : Type} {p : α → Bool} (l : List α) :
    l.find? p = (l.findIdx? p).bind (l[·]?) := by
  induction l with
  | nil => rfl
  | cons x l ih =>
    rw [List.find?_cons, List.findIdx?_cons]
    cases hx : p x with
    | true => rfl
    | false =>
      rw [ih]
      cases l.findIdx? p <;> rfl

namespace Phase

/-- Whether the code that is running is that of a method that was bound, or of a function
inside it. -/
def RunsIn (a : Phase) (f : Closure) : Prop :=
  a.state.store.owner? a.state.current Keyword.this.text = some f.scope

/-- Whether the code that is running, which stands in a class, sees an instance as its
receiver. -/
structure Sees (a : Phase) (c : Class) (object : InstanceRef) : Prop where
  /-- The class of the instance is that one, or one below. -/
  cls : ∃ d, a.state.store.class? object = some d ∧ c ∈ d.chain
  /-- What `this` evaluates to. -/
  receiver : ∀ {goal : Yield} {target : Reference} {k : Cont goal .value} {st : State}
    {nextId : NodeId}, a = .running (.eval (.receiver target) k) st nextId →
    ∀ limit, Machine.step limit (.eval (.receiver target) k) st =
      .next (.value (.object object) k) st
  /-- What `super` evaluates to: the method of the first class that declares it, starting
  with the superclass, bound to the same instance. -/
  inherited : ∀ {goal : Yield} {target : Reference} {method : Token} {k : Cont goal .value}
    {st : State} {nextId : NodeId}, a = .running (.eval (.inherited target method) k) st nextId →
    ∃ d, c.superclass = some d ∧ ∀ limit,
      Machine.step limit (.eval (.inherited target method) k) st =
        match d.chain.findSome? fun e => Class.ownMethod? e.methods method.lexeme with
        | none => Machine.fail (.undefinedProperty method.lexeme) method k st
        | some m => .next (.value (st.bind m object).1 k) (st.bind m object).2

/-- Whether receivers and superclasses are as their places in the program say. -/
structure IsStatic (events : List Event) (a : Phase) : Prop where
  /-- Code of a method sees what the method was bound to. -/
  sees : ∀ m object f statement c, .bound m object f ∈ events → .founded statement c ∈ events →
    m ∈ c.methods → a.RunsIn f → a.Sees c object
  /-- Wherever a program evaluates `this` or `super`, the code of a method is running in
  which the reference stands, and which is one of the methods of a class statement. -/
  mentions : ∀ {goal : Yield} {e : Expr} {id : NodeId} {k : Cont goal .value} {st : State}
    {nextId : NodeId}, a = .running (.eval e k) st nextId →
    ((∃ target, e = .receiver target ∧ id = target.id) ∨
      ∃ target method, e = .inherited target method ∧ id = target.id) →
    (goal = .flow ∨ (st.table.distance? id).isSome) →
    ∃ m object f c name reference, .bound m object f ∈ events ∧ a.RunsIn f ∧ m ∈ c.methods ∧
      .founded (.classDecl name reference (c.methods.map Closure.decl)) c ∈ events ∧
      ∃ r ∈ m.decl.mentions 0, r.id = id

section

variable {events : List Event} {goal : Yield} {e : Expr} {k : Cont goal .value} {st : State}
  {nextId : NodeId} {id : NodeId} {word : Keyword}

/-- What is known of a mention that is evaluated: it is one of the method whose receiver
is the nearest, and it is bound where that receiver is, or it is not bound at all. -/
theorem Lived.of_mention (h : Lived events (.running (.eval e k) st nextId))
    (hmention : ∀ d, ⟨id, d, word⟩ ∈ e.mentions d) :
    (∃ m object f d, .bound m object f ∈ events ∧ (running (.eval e k) st nextId).RunsIn f ∧
        st.store.ancestor? st.current d = some f.scope ∧ ⟨id, d, word⟩ ∈ m.decl.mentions 0) ∨
      (st.store.owner? st.current Keyword.this.text = none ∧ st.table.distance? id = none) := by
  have hcode : Holding.IsSeated events (st.table.known nextId) st.store (.code st.current (.expr e)) :=
    h.traced.holdings.holdings _ List.mem_cons_self
  obtain ⟨-, -, path, hpath, hseat⟩ := hcode
  have howner : st.store.owner? st.current Keyword.this.text =
      (path.findIdx? st.store.hasReceiver).bind (path[·]?) :=
    hpath.owner?_eq.trans (List.find?_eq_bind_findIdx? path)
  rcases hseat with ⟨m, object, f, d, hbound, hfind, hscope, hmentions⟩ | ⟨hnone, d, hmentions⟩
  · refine .inl ⟨m, object, f, d, hbound, ?_, ?_, hmentions (hmention d)⟩
    · rw [RunsIn]
      exact howner.trans (by rw [hfind]; exact hscope)
    · rw [hpath.ancestor?_eq, hscope]
  · exact .inr ⟨by rw [howner, hnone]; rfl,
      BindingTable.distance?_of_known (hmentions _ (hmention d))⟩

/-- A mention in a method that was bound is bound as its place says. -/
theorem Traced.distance? {a : Phase} (h : a.Traced events) {m f : Closure}
    {object : InstanceRef} (hbound : .bound m object f ∈ events) {r : Mention}
    (hr : r ∈ m.decl.mentions 0) : a.known r.id = some (some r.distance) := by
  obtain ⟨statement, c, d, hfounded, hm, -, -⟩ := (h.bound m object f hbound).cls
  exact ((h.founded statement c hfounded).mentions m hm r hr).1

/-- If the code of a method is running, a mention that is evaluated is bound, and its
receiver is that of the method. -/
theorem Lived.mention_of_runsIn (h : Lived events (.running (.eval e k) st nextId))
    (hmention : ∀ d, ⟨id, d, word⟩ ∈ e.mentions d) {f : Closure}
    (hruns : (running (.eval e k) st nextId).RunsIn f) :
    ∃ m object f' d, .bound m object f' ∈ events ∧ f'.scope = f.scope ∧
      st.store.ancestor? st.current d = some f.scope ∧ ⟨id, d, word⟩ ∈ m.decl.mentions 0 ∧
      st.table.distance? id = some (Mention.distance ⟨id, d, word⟩) := by
  rcases h.of_mention hmention with ⟨m, object, f', d, hbound, hruns', hancestor, hmem⟩ | ⟨hnone, -⟩
  · have hscope : f'.scope = f.scope := Option.some.inj (hruns'.symm.trans hruns)
    exact ⟨m, object, f', d, hbound, hscope, hscope ▸ hancestor, hmem,
      BindingTable.distance?_of_known (h.traced.distance? hbound hmem)⟩
  · rw [RunsIn] at hruns
    cases hnone.symm.trans hruns

end

section

variable {events : List Event} {a : Phase} {m f : Closure} {object : InstanceRef}
  {statement : Stmt} {c : Class}

/-- A method belongs to one class only. -/
theorem Lived.class_unique (h : Lived events a) {other : Stmt} {d : Class}
    (hc : .founded statement c ∈ events) (hd : .founded other d ∈ events) (hm : m ∈ c.methods)
    (hm' : m ∈ d.methods) : c = d := by
  have hmem {d : Class} {other : Stmt} (hm : m ∈ d.methods) :
      m.identity ∈ (Event.founded other d).identities :=
    List.mem_append_left _ (List.mem_map_of_mem hm)
  cases h.eq_of_identity _ hc _ hd m.identity (hmem hm) (hmem hm')
  rfl

/-- Code of a method that was bound sees its receiver, and looks inherited methods up from
the superclass of its class. -/
theorem Lived.sees (h : Lived events a) (hbound : .bound m object f ∈ events)
    (hfounded : .founded statement c ∈ events) (hm : m ∈ c.methods) (hruns : a.RunsIn f) :
    a.Sees c object := by
  have htraced := h.traced
  have hto := htraced.bound m object f hbound
  refine ⟨?_, ?_, ?_⟩
  · obtain ⟨other, d, e, hd, hm', he, hchain⟩ := hto.cls
    exact ⟨e, he, h.class_unique hfounded hd hm hm' ▸ hchain⟩
  · rintro goal target k st nextId rfl limit
    obtain ⟨-, -, -, d, -, -, hancestor, -, hdistance⟩ :=
      h.mention_of_runsIn (fun _ => List.mem_singleton_self _) hruns
    obtain ⟨-, p, -, ⟨-, hname, -⟩, -⟩ := h.reachable.sound
    have hread : st.read target = some (.object object) := by
      rw [State.read, State.owner?, hdistance, hname, ← hto.receiver]
      exact Store.getAt?_of_ancestor? hancestor
    rw [Machine.step, Machine.eval, hread]
    rfl
  · rintro goal target method k st nextId rfl
    obtain ⟨m', object', f', d, hbound', hscope, hancestor, hmem, hdistance⟩ :=
      h.mention_of_runsIn (fun _ => List.mem_singleton_self _) hruns
    have hto' := htraced.bound m' object' f' hbound'
    obtain ⟨other, c', -, hfounded', hm', -⟩ := hto'.cls
    have hmscope : m'.scope = m.scope :=
      Option.some.inj (hto'.enclosing.symm.trans (hscope ▸ hto.enclosing))
    have hsuper := ((htraced.founded _ _ hfounded).inherited m hm).2
    have hsuper' := ((htraced.founded _ _ hfounded').inherited m' hm').2
    have hsome := ((htraced.founded _ _ hfounded').mentions m' hm' _ hmem).2 rfl
    rw [hmscope, hsuper] at hsuper'
    obtain ⟨superclass, hc⟩ : ∃ superclass, c.superclass = some superclass := by
      rw [← Option.isSome_iff_exists, ← Option.isSome_map, hsuper', Option.isSome_map]
      exact hsome
    refine ⟨superclass, hc, fun limit => ?_⟩
    rw [hc] at hsuper
    have hout : st.store.ancestor? st.current (d + 1) = some m.scope := by
      rw [Store.ancestor?_succ, hancestor]
      exact hto.enclosing
    have hinheritance : st.inheritance target = .ok (superclass, object) := by
      have hcls : st.store.getAt? st.current (d + 1) Keyword.super.text = some (.cls superclass) :=
        (Store.getAt?_of_ancestor? hout).trans hsuper
      have hobject : st.store.getAt? st.current d Keyword.this.text = some (.object object) :=
        (Store.getAt?_of_ancestor? hancestor).trans hto.receiver
      rw [State.inheritance, hdistance]
      simp only [Mention.distance, hcls, hobject]
    rw [← superclass.method?_eq method.lexeme]
    cases hmethod : superclass.method? method.lexeme <;>
      simp only [Machine.step, Machine.eval, hinheritance, hmethod]

end

/-- In the run of a program, a mention that is evaluated is bound. -/
theorem Sound.distance? {e : Expr} {id : NodeId} {k : Cont .flow .value} {st : State}
    {nextId : NodeId} (h : (running (.eval e k) st nextId).Sound)
    (he : (∃ target, e = .receiver target ∧ id = target.id) ∨
      ∃ target method, e = .inherited target method ∧ id = target.id) :
    (st.table.distance? id).isSome := by
  obtain ⟨-, p, -, hscoped, -⟩ := h
  obtain ⟨target, rfl, rfl⟩ | ⟨target, method, rfl, rfl⟩ := he
  · obtain ⟨hfound, hname, hstrict⟩ := hscoped
    obtain ⟨d, hd⟩ := hstrict rfl
    rw [Reference.Found, hname, hd] at hfound
    rw [BindingTable.distance?_of_known hfound]
    rfl
  · obtain ⟨hfound, hname, hstrict⟩ := hscoped
    obtain ⟨d, hd, -⟩ := hstrict rfl
    rw [Reference.Found, hname, hd] at hfound
    rw [BindingTable.distance?_of_known hfound]
    rfl

/-- Whatever the history of a session, receivers and superclasses are as their places in
the program say. -/
theorem receivers_are_static {events : List Event} {a : Phase} (h : Lived events a) :
    a.IsStatic events where
  sees _ _ _ _ _ hbound hfounded hm hruns := h.sees hbound hfounded hm hruns
  mentions := by
    rintro goal e id k st nextId rfl he hknown
    have hdistance : (st.table.distance? id).isSome := by
      rcases hknown with rfl | hsome
      · exact h.reachable.sound.distance? he
      · exact hsome
    obtain ⟨word, hmention⟩ : ∃ word, ∀ d, (⟨id, d, word⟩ : Mention) ∈ e.mentions d := by
      obtain ⟨target, rfl, rfl⟩ | ⟨target, method, rfl, rfl⟩ := he
      · exact ⟨.this, fun _ => List.mem_singleton_self _⟩
      · exact ⟨.super, fun _ => List.mem_singleton_self _⟩
    rcases h.of_mention hmention with ⟨m, object, f, d, hbound, hruns, -, hmem⟩ | ⟨-, hnone⟩
    · obtain ⟨statement, c, -, hfounded, hm, -⟩ := (h.traced.bound m object f hbound).cls
      obtain ⟨name, reference, rfl⟩ := (h.traced.founded statement c hfounded).statement
      exact ⟨m, object, f, c, name, reference, hbound, hruns, hm, hfounded, _, hmem, rfl⟩
    · rw [hnone] at hdistance
      cases hdistance

/-- A method that is inherited twice over calls the one that it overrides. -/
theorem receivers_are_static_super : ∃ (events : List Event) (target : Reference)
    (method : Token) (k : Cont .flow .value) (st : State) (nextId : NodeId),
    Lived events (.running (.eval (.inherited target method) k) st nextId) ∧
      IsStatic events (.running (.eval (.inherited target method) k) st nextId) := by
  obtain ⟨program, table, nextId, target, method, k, st, haccepts, hreaches⟩ :
      ∃ program table nextId target method, ∃ (k : Cont .flow .value) (st : State),
        Session.fresh.Accepts "class A \x7b m() \x7b\x7d \x7d class B < A \x7b m() \x7b super.m(); \x7d \x7d class C < B \x7b\x7d C().m();" program table nextId ∧
        Machine.Reaches 9 (Machine.program program, Session.fresh.state.learn table)
          (.eval (.inherited target method) k, st) :=
    ⟨_, _, _, _, _, _, _, ⟨⟨_, by cbv, by cbv⟩, rfl⟩, .of_stepFor (n := 23) rfl⟩
  have ha : Reachable (.running (.eval (.inherited target method) k) st nextId) :=
    (Relation.ReflTransGen.single (.program haccepts)).trans (leads_of_reaches hreaches)
  obtain ⟨events, hlived⟩ := ha.lived
  exact ⟨events, target, method, k, st, nextId, hlived, receivers_are_static hlived⟩

end Phase

end Lox
