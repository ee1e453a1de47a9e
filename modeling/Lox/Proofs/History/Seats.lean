import Lox.Proofs.History.Growth
import Lox.Proofs.History.Mentions

/-!
# Seats of receivers

On the way out from a piece of code that mentions a receiver there is the scope of that
receiver, as far out as the mention says. It was made when the method was bound in which
the mention stands.

## Implementation notes

The history of a phase knows how each method was bound and each class founded. The
invariant ties code to that history: on the way out from the scope of a piece of code,
the nearest receiver is that of a method which was bound, and each mention in the code
is one of the method's, standing as many scopes in as the receiver is scopes out. Words
of the language are never assigned or declared, so a scope keeps the receiver that it
was made with.
-/

namespace Lox

/-! ## Words of the language -/

/-- What a task declares, it sets. -/
theorem Task.mem_sets? {goal : Yield} {task : Task goal} {t : Token} (h : t ∈ task.declares?) :
    t ∈ task.sets? := by
  cases task with
  | value v k =>
    cases k with
    | assign | superclass => cases h
    | _ => exact h
  | _ => exact h

/-- A task that is sound sets names only, not words of the language. -/
theorem Task.Sound.isName {known : Known} {s : Store} {goal : Yield} {task : Task goal}
    {p : Place} {name : Token} (h : task.Sound known s p) (hname : name ∈ task.sets?) :
    name.IsName := by
  cases task with
  | eval e k => cases hname
  | exec t k =>
    obtain ⟨-, ht, -⟩ := h
    cases t with
    | varDecl other initializer =>
      cases initializer with
      | none => exact Option.some.inj hname ▸ ht.2.1
      | some e => cases hname
    | funDecl d => exact Option.some.inj hname ▸ ht.2.1
    | classDecl other superclass methods =>
      cases superclass <;> exact Option.some.inj hname ▸ ht.2.1
    | _ => cases hname
  | value v k =>
    cases k with
    | assign target k => exact Option.some.inj hname ▸ h.2.2.1
    | define other k => exact Option.some.inj hname ▸ h.2.2.1
    | superclass other reference methods k => exact Option.some.inj hname ▸ h.2.2.1
    | _ => cases hname
  | flow f k => cases hname

namespace Phase

variable {a b : Phase} {scope : ScopeRef} {name : String}

/-- A phase that is sound sets names only. -/
theorem Sound.ne_word (h : a.Sound) (hset : a.Sets scope name) (word : Keyword) :
    name ≠ word.text := by
  cases a with
  | idle s => exact hset.elim
  | running task st nextId =>
    obtain ⟨-, p, -, htask⟩ := h
    rcases hset with ⟨-, t, ht, rfl⟩ | ⟨-, t, ht, rfl⟩
    · exact htask.isName (Task.mem_sets? ht) word
    · exact htask.isName ht word

/-- A scope keeps its value of a word of the language. -/
theorem Next.word (h : a.Next b) (ha : a.Sound) (hlt : scope < a.state.store.scopes.size)
    (word : Keyword) :
    b.state.store.local? scope word.text = a.state.store.local? scope word.text :=
  ((h.changes ha).value scope hlt word.text).resolve_right fun hset =>
    ha.ne_word hset.1 word rfl

/-- What is known of the references that have been numbered. -/
def known : Phase → Known
  | idle s => s.state.table.known s.nextId
  | running _ st nextId => st.table.known nextId

/-- What is known stays known. -/
theorem Next.grows (h : a.Next b) (ha : a.Sound) : a.known.Grows b.known := by
  cases h with
  | reject hid => exact ((show Session.Sound _ from ha).silent.advance hid).grows
  | program haccepts =>
    obtain ⟨⟨tokens, hlex, hparse⟩, hresolve⟩ := haccepts
    exact ((show Session.Sound _ from ha).silent.program hlex hparse hresolve).1.grows
  | expression hlex hparse =>
    exact ((show Session.Sound _ from ha).silent.expression hlex hparse).1.grows
  | @step goal task task' st st' nextId limit hstep =>
    have hnext := Machine.step_sound limit ha.2
    rw [hstep] at hnext
    obtain ⟨p, hplace, -⟩ := hnext
    rw [known, known, hplace.table]
    exact .refl _
  | @done goal task st st' nextId limit outcome hstep =>
    have hnext := Machine.step_sound limit ha.2
    rw [hstep] at hnext
    rw [known, known, show st'.table = st.table from hnext.table]
    exact .refl _
  | @failed goal task st st' nextId limit error hstep =>
    have hnext := Machine.step_sound limit ha.2
    rw [hstep] at hnext
    rw [known, known, show st'.table = st.table from hnext.table]
    exact .refl _

end Phase

/-! ## Seats -/

/-- Whether a scope holds a receiver. -/
def Store.hasReceiver (s : Store) (scope : ScopeRef) : Bool :=
  (s.local? scope Keyword.this.text).isSome

/-- Whether the mentions in a node that runs in a scope are mentions of the method whose
receiver is the nearest on the way out, as many scopes in as the receiver is out. If there
is no receiver, the node has no mention that is bound. -/
def Store.Seats (events : List Event) (known : Known) (s : Store) (scope : ScopeRef)
    (node : Node) : Prop :=
  ∃ path, s.Path scope path ∧
    ((∃ m object f d, .bound m object f ∈ events ∧ path.findIdx? s.hasReceiver = some d ∧
        path[d]? = some f.scope ∧ node.mentions d ⊆ m.decl.mentions 0) ∨
      (path.findIdx? s.hasReceiver = none ∧ ∃ d, ∀ r ∈ node.mentions d, known r.id = some none))

section

variable {events events' : List Event} {known known' : Known} {s s' : Store}
  {sets opens : ScopeRef → String → Prop} {scope inner : ScopeRef} {node part : Node}

theorem Store.hasReceiver_of_none (h : s.local? scope Keyword.this.text = none) :
    s.hasReceiver scope = false := by
  rw [hasReceiver, h]
  rfl

/-- The nearest receiver stays the same while no scope on the way gains or loses one. -/
theorem List.findIdx?_hasReceiver {path : List ScopeRef}
    (h : ∀ x ∈ path, s'.hasReceiver x = s.hasReceiver x) :
    path.findIdx? s'.hasReceiver = path.findIdx? s.hasReceiver := by
  induction path with
  | nil => rfl
  | cons x path ih =>
    obtain ⟨hx, hpath⟩ := List.forall_mem_cons.mp h
    rw [List.findIdx?_cons, List.findIdx?_cons, hx, ih hpath]

namespace Store.Seats

/-- A seat is kept while the history goes on. -/
theorem keep (h : s.Seats events known scope node) (hevents : events ⊆ events')
    (hknown : known.Grows known') (hs : s.Changes sets opens s')
    (hword : ∀ x < s.scopes.size, s'.hasReceiver x = s.hasReceiver x) :
    s'.Seats events' known' scope node := by
  obtain ⟨path, hpath, h⟩ := h
  have hsame := List.findIdx?_hasReceiver fun x hx => hword x (hpath.mem_lt x hx)
  refine ⟨path, hpath.of_changes hs, h.imp ?_ ?_⟩
  · rintro ⟨m, object, f, d, hbound, hfind, hscope, hmentions⟩
    exact ⟨m, object, f, d, hevents hbound, hsame.trans hfind, hscope, hmentions⟩
  · rintro ⟨hfind, d, hmentions⟩
    exact ⟨hsame.trans hfind, d, fun r hr => hknown _ _ (hmentions r hr)⟩

theorem of_part (h : s.Seats events known scope node)
    (hpart : ∀ d, part.mentions d ⊆ node.mentions d) : s.Seats events known scope part := by
  obtain ⟨path, hpath, h⟩ := h
  refine ⟨path, hpath, h.imp ?_ ?_⟩
  · rintro ⟨m, object, f, d, hbound, hfind, hscope, hmentions⟩
    exact ⟨m, object, f, d, hbound, hfind, hscope, List.Subset.trans (hpart d) hmentions⟩
  · rintro ⟨hfind, d, hmentions⟩
    exact ⟨hfind, d, fun r hr => hmentions r (hpart d hr)⟩

/-- Further in, the receiver is one more scope out. -/
theorem of_inner (h : s.Seats events known scope node) (hinner : s.enclosing? inner = some scope)
    (hnone : s.local? inner Keyword.this.text = none)
    (hpart : ∀ d, part.mentions (d + 1) ⊆ node.mentions d) : s.Seats events known inner part := by
  obtain ⟨path, hpath, h⟩ := h
  have hfind : (inner :: path).findIdx? s.hasReceiver =
      (path.findIdx? s.hasReceiver).map (· + 1) := by
    rw [List.findIdx?_cons, hasReceiver_of_none hnone]
    rfl
  refine ⟨inner :: path, .out hinner hpath, h.imp ?_ ?_⟩
  · rintro ⟨m, object, f, d, hbound, hd, hscope, hmentions⟩
    exact ⟨m, object, f, d + 1, hbound, by rw [hfind, hd]; rfl, hscope, List.Subset.trans (hpart d) hmentions⟩
  · rintro ⟨hnone, d, hmentions⟩
    exact ⟨by rw [hfind, hnone]; rfl, d + 1, fun r hr => hmentions r (hpart d hr)⟩

end Store.Seats

/-! ## What is known of events -/

/-- What is known of a class that a statement has founded. -/
structure Class.FoundedBy (known : Known) (s : Store) (statement : Stmt) (c : Class) : Prop where
  statement : ∃ name reference,
    statement = .classDecl name reference (c.methods.map Closure.decl)
  parameters : ∀ m ∈ c.methods, ∀ p ∈ m.decl.parameters, p.IsName
  mentions : ∀ m ∈ c.methods, ∀ r ∈ m.decl.mentions 0,
    known r.id = some (some r.distance) ∧ (r.word = .super → c.superclass.isSome)
  inherited : ∀ m ∈ c.methods, m.scope < s.scopes.size ∧
    s.local? m.scope Keyword.super.text = c.superclass.map .cls

/-- What is known of a method that was bound: the scope of the receiver is inside that of
the method, and the class of the method is the receiver's, or above it. -/
structure Closure.BoundTo (events : List Event) (s : Store) (m : Closure) (object : InstanceRef)
    (f : Closure) : Prop where
  decl : f.decl = m.decl
  enclosing : s.enclosing? f.scope = some m.scope
  receiver : s.local? f.scope Keyword.this.text = some (.object object)
  cls : ∃ statement c d, .founded statement c ∈ events ∧ m ∈ c.methods ∧
    s.class? object = some d ∧ c ∈ d.chain

theorem Class.FoundedBy.keep {statement : Stmt} {c : Class} (h : c.FoundedBy known s statement)
    (hknown : known.Grows known') (hs : s.Changes sets opens s')
    (hword : ∀ x < s.scopes.size, ∀ word : Keyword, s'.local? x word.text = s.local? x word.text) :
    c.FoundedBy known' s' statement where
  statement := h.statement
  parameters := h.parameters
  mentions m hm r hr := (h.mentions m hm r hr).imp_left (hknown _ _)
  inherited m hm := by
    obtain ⟨hlt, hlocal⟩ := h.inherited m hm
    exact ⟨Nat.lt_of_lt_of_le hlt hs.size, (hword _ hlt .super).trans hlocal⟩

theorem Closure.BoundTo.keep {m f : Closure} {object : InstanceRef}
    (h : m.BoundTo events s object f) (hevents : events ⊆ events') (hs : s.Changes sets opens s')
    (hword : ∀ x < s.scopes.size, ∀ word : Keyword, s'.local? x word.text = s.local? x word.text) :
    m.BoundTo events' s' object f where
  decl := h.decl
  enclosing := (hs.enclosing _ (Store.lt_of_enclosing? h.enclosing)).trans h.enclosing
  receiver := (hword _ (Store.lt_of_enclosing? h.enclosing) .this).trans h.receiver
  cls := by
    obtain ⟨statement, c, d, hfounded, hm, hd, hc⟩ := h.cls
    exact ⟨statement, c, d, hevents hfounded, hm, hs.cls object d hd, hc⟩

/-! ## Holdings that are seated -/

/-- Whether code that is held has its mentions where they belong. -/
def Holding.IsSeated (events : List Event) (known : Known) (s : Store) : Holding → Prop
  | .value (.function f) =>
      (∀ p ∈ f.decl.parameters, p.IsName) ∧ s.Seats events known f.scope (.function f.decl)
  | .value (.cls c) => ∀ d ∈ c.chain, ∃ statement, .founded statement d ∈ events
  | .value _ => True
  | .code scope node =>
      scope < s.scopes.size ∧ (∀ word : Keyword, s.local? scope word.text = none) ∧
        s.Seats events known scope node

namespace Holding

theorem IsSeated.keep {x : Holding} (h : x.IsSeated events known s) (hevents : events ⊆ events')
    (hknown : known.Grows known') (hs : s.Changes sets opens s')
    (hword : ∀ x < s.scopes.size, ∀ word : Keyword, s'.local? x word.text = s.local? x word.text) :
    x.IsSeated events' known' s' := by
  have hreceiver : ∀ x < s.scopes.size, s'.hasReceiver x = s.hasReceiver x := fun x hlt => by
    rw [Store.hasReceiver, hword x hlt .this, Store.hasReceiver]
  cases x with
  | code scope node =>
    obtain ⟨hlt, hnone, hseats⟩ := h
    exact ⟨Nat.lt_of_lt_of_le hlt hs.size, fun word => (hword _ hlt word).trans (hnone word),
      hseats.keep hevents hknown hs hreceiver⟩
  | value v =>
    cases v with
    | function f => exact ⟨h.1, h.2.keep hevents hknown hs hreceiver⟩
    | cls c => exact fun d hd => (h d hd).imp fun statement hfounded => hevents hfounded
    | _ => trivial

theorem carries_isSeated : Holding.Carries (IsSeated events known s) s where
  plain v hv := by cases v <;> first | exact hv.elim | trivial
  part scope node h part hpart :=
    ⟨h.1, h.2.1, h.2.2.of_part fun _ => Node.mentions_part hpart⟩
  block scope inner body h henclosing hnone t ht :=
    ⟨Store.lt_of_enclosing? henclosing, fun word => hnone word.text,
      h.2.2.of_inner henclosing (hnone _) fun _ => Stmt.mentions_block ht⟩
  body f inner h henclosing hparameters t ht := by
    have hnone (word : Keyword) : s.local? inner word.text = none := by
      cases hlocal : s.local? inner word.text with
      | none => rfl
      | some v =>
        obtain ⟨p, hp, hname⟩ := hparameters word.text (by rw [hlocal]; rfl)
        exact absurd hname (h.1 p hp word)
    exact ⟨Store.lt_of_enclosing? henclosing, hnone,
      h.2.of_inner henclosing (hnone .this) fun _ => FunctionDecl.mentions_body ht⟩

end Holding

end

/-- Whether what a phase holds fits its history. -/
structure Phase.Traced (events : List Event) (a : Phase) : Prop where
  globals : ∀ word : Keyword, a.state.store.local? Store.globals word.text = none
  founded : ∀ statement c, .founded statement c ∈ events →
    c.FoundedBy a.known a.state.store statement
  bound : ∀ m object f, .bound m object f ∈ events → m.BoundTo events a.state.store object f
  receivers : ∀ scope, a.state.store.hasReceiver scope → ∃ m object f,
    .bound m object f ∈ events ∧ f.scope = scope
  holdings : a.All (Holding.IsSeated events a.known a.state.store)

/-! ## Looking up an inherited method -/

theorem Store.ancestor?_succ (s : Store) (scope : ScopeRef) (d : Nat) :
    s.ancestor? scope (d + 1) = (s.ancestor? scope d).bind s.enclosing? := by
  induction d generalizing scope with
  | zero =>
    rw [ancestor?, ancestor?, Option.bind_some]
    cases s.enclosing? scope <;> rfl
  | succ d ih =>
    rw [ancestor?, ancestor?]
    cases houter : s.enclosing? scope with
    | none => rfl
    | some outer => exact ih outer

theorem Store.ancestor?_of_getAt? {s : Store} {scope : ScopeRef} {d : Nat} {name : String}
    {v : Value} (h : s.getAt? scope d name = some v) :
    ∃ x, s.ancestor? scope d = some x ∧ s.local? x name = some v := by
  cases hx : s.ancestor? scope d with
  | none => rw [getAt?, ownerAt?, hx] at h; cases h
  | some x => exact ⟨x, rfl, by rwa [getAt?_of_ancestor? hx] at h⟩

/-- An inherited method is looked up from the scope right around that of a receiver. -/
theorem State.of_inheritance {st : State} {target : Reference} {c : Class} {object : InstanceRef}
    (h : st.inheritance target = .ok (c, object)) :
    ∃ d x y, st.table.distance? target.id = some (d + 1) ∧
      st.store.ancestor? st.current d = some x ∧
      st.store.local? x Keyword.this.text = some (.object object) ∧
      st.store.enclosing? x = some y ∧ st.store.local? y Keyword.super.text = some (.cls c) := by
  unfold inheritance at h
  split at h
  · cases h
  rename_i distance hdistance
  split at h
  · rename_i c' hsuper
    split at h
    · cases h
    rename_i d
    split at h
    · rename_i receiver hthis
      cases h
      obtain ⟨x, hx, hthis⟩ := Store.ancestor?_of_getAt? hthis
      obtain ⟨y, hy, hsuper⟩ := Store.ancestor?_of_getAt? hsuper
      rw [Store.ancestor?_succ, hx] at hy
      exact ⟨d, x, y, hdistance, hx, hthis, hy, hsuper⟩
    · cases h
  · cases h

namespace Class

theorem mem_chain_of_superclass {c d e : Class} (h : c ∈ e.chain) (hd : c.superclass = some d) :
    d ∈ e.chain := by
  induction e using chain_induction with
  | none e hnone =>
    rw [chain_of_none hnone, List.mem_singleton] at h
    rw [h, hnone] at hd
    cases hd
  | some e f hf ih =>
    rw [chain_of_some hf] at h ⊢
    rcases List.mem_cons.mp h with rfl | h
    · obtain rfl := Option.some.inj (hf.symm.trans hd)
      exact List.mem_cons_of_mem _ f.mem_chain_self
    · exact List.mem_cons_of_mem _ (ih h)

/-- What is above a class that is above another one is above that one. -/
theorem chain_subset {c e : Class} (h : c ∈ e.chain) : c.chain ⊆ e.chain := by
  induction c using chain_induction with
  | none c hnone =>
    rw [chain_of_none hnone]
    exact fun d hd => List.mem_singleton.mp hd ▸ h
  | some c d hd ih =>
    rw [chain_of_some hd]
    exact List.cons_subset.mpr ⟨h, ih (mem_chain_of_superclass h hd)⟩

end Class

namespace Phase.Traced

variable {a : Phase} {events : List Event}

/-- The scope of a receiver was made when a method was bound to it. -/
theorem of_receiver (h : a.Traced events) {scope : ScopeRef} {v : Value}
    (hv : a.state.store.local? scope Keyword.this.text = some v) :
    ∃ m object f, .bound m object f ∈ events ∧ f.scope = scope ∧ v = .object object := by
  obtain ⟨m, object, f, hbound, rfl⟩ := h.receivers scope (by rw [Store.hasReceiver, hv]; rfl)
  refine ⟨m, object, f, hbound, rfl, ?_⟩
  exact Option.some.inj (hv.symm.trans (h.bound _ _ _ hbound).receiver)

/-- An inherited method is looked up from the superclass of the class whose method was
bound. -/
theorem inheritance (h : a.Traced events) {target : Reference} {c : Class}
    {object : InstanceRef} (hfound : a.state.inheritance target = .ok (c, object)) :
    ∃ m f statement d, .bound m object f ∈ events ∧ .founded statement d ∈ events ∧
      m ∈ d.methods ∧ d.superclass = some c ∧
      ∃ e, a.state.store.class? object = some e ∧ d ∈ e.chain := by
  obtain ⟨-, x, y, -, -, hthis, hy, hsuper⟩ := State.of_inheritance hfound
  obtain ⟨m, receiver, f, hbound, rfl, hv⟩ := h.of_receiver hthis
  cases hv
  have hto := h.bound _ _ _ hbound
  obtain ⟨statement, d, e, hfounded, hm, he, hd⟩ := hto.cls
  obtain rfl : m.scope = y := Option.some.inj (hto.enclosing.symm.trans hy)
  rw [((h.founded _ _ hfounded).inherited m hm).2] at hsuper
  obtain ⟨c', hc', heq⟩ := Option.map_eq_some_iff.mp hsuper
  cases heq
  exact ⟨m, f, statement, d, hbound, hfounded, hm, hc', e, he, hd⟩

end Phase.Traced

/-! ## Steps -/

/-- The scope that a place is in has no word of the language, if the store has none there. -/
theorem Place.Stands.depth?_ne {p : Place} {s : Store} {word : Keyword} (h : p.Stands s)
    (hpending : p.pending = none) (hnone : s.local? p.scope word.text = none) :
    p.names.depth? word.text ≠ some 0 := by
  intro hdepth
  obtain ⟨target, htarget, hlocal⟩ := h.find hdepth
  obtain rfl : p.scope = target := Option.some.inj htarget
  rw [hnone, hpending] at hlocal
  simp at hlocal

section

variable {a b : Phase} {events : List Event} {goal : Yield} {task : Task goal} {st : State}
  {nextId : NodeId} {s' : Store}

/-- What is known of a class when it is founded. -/
theorem Event.Arises.foundedBy {statement : Stmt} {c : Class}
    (h : (Event.founded statement c).Arises task st s')
    (ha : (Phase.running task st nextId).Sound)
    (htraced : (Phase.running task st nextId).Traced events)
    {sets opens : ScopeRef → String → Prop} (hs : st.store.Changes sets opens s')
    (hword : ∀ x < st.store.scopes.size, ∀ word : Keyword,
      s'.local? x word.text = st.store.local? x word.text) :
    c.FoundedBy (st.table.known nextId) s' statement := by
  have hcurrent := ha.current_lt
  obtain ⟨-, p, hplace, hsound⟩ := ha
  cases h with
  | @founded name methods k scope htask =>
    have hmade := (st.define name .nil).newClass_made name none methods
    subst htask
    obtain ⟨hpending, ⟨hnew, hname, hmethods⟩, -⟩ := hsound
    obtain ⟨hlt, hnone, -⟩ := htraced.holdings.holdings _ List.mem_cons_self
    have hdecl {m : Closure} (hm : m ∈ ((st.define name .nil).newClass name none methods).1.methods) :
        m.decl.Scoped (st.table.known nextId) ((p.names.introduce name).given .this)
          (.ofMethod m.decl.name) :=
      hmethods.of_mem (hmade.decls ▸ List.mem_map_of_mem hm)
    refine ⟨⟨name, none, by rw [hmade.decls]⟩, fun m hm => (hdecl hm).body.2.1,
      fun m hm r hr => ?_, fun m hm => ?_⟩
    · obtain ⟨hknown, hsuper⟩ := ((hdecl hm).mentions (.refl _) r hr).of_method
      refine ⟨hknown, fun hr => absurd (hsuper hr) ?_⟩
      rw [Scopes.introduce, Scopes.depth?_mark (hname .super), Scopes.depth?_mark (hname .super)]
      exact hplace.stands.depth?_ne hpending (hplace.scope ▸ hnone .super)
    · rw [hmade.scope m hm, hmade.parent]
      exact ⟨Nat.lt_of_lt_of_le hlt hs.size, (hword _ hlt .super).trans (hnone .super)⟩
  | @derived d name reference methods k scope htask =>
    have hmade := st.newClass_made name (some d) methods
    subst htask
    obtain ⟨-, -, hname, -, hmethods, -⟩ := hsound
    have hdecl {m : Closure} (hm : m ∈ (st.newClass name (some d) methods).1.methods) :
        m.decl.Scoped (st.table.known nextId) ((p.names.given .super).given .this)
          (.ofMethod m.decl.name) :=
      hmethods.of_mem (hmade.decls ▸ List.mem_map_of_mem hm)
    refine ⟨⟨name, some reference, by rw [hmade.decls]⟩, fun m hm => (hdecl hm).body.2.1,
      fun m hm r hr => ?_, fun m hm => ?_⟩
    · exact ⟨((hdecl hm).mentions (.refl _) r hr).of_method.1, fun _ => by rw [hmade.parent]; rfl⟩
    · obtain ⟨hlocal, henclosing⟩ := hmade.inherited d rfl
      rw [hmade.scope m hm, hmade.parent]
      refine ⟨?_, ?_⟩
      · rw [Store.size_define]
        exact Store.lt_of_enclosing? henclosing
      · rw [Store.local?_define_of_ne fun heq => hname .super heq.2]
        exact hlocal

/-- What is known of a method when it is bound. -/
theorem Event.Arises.boundTo {m f : Closure} {object : InstanceRef}
    (h : (Event.bound m object f).Arises task st s')
    (htraced : (Phase.running task st nextId).Traced events)
    {sets opens : ScopeRef → String → Prop} (hs : st.store.Changes sets opens s') :
    m.BoundTo events s' object f := by
  have hbinds := h.binds.1
  have hstore := htraced.holdings.store
  refine ⟨hbinds.decl, hbinds.enclosing, hbinds.receiver, ?_⟩
  cases h with
  | @inherited target method k c object m htask hfound hm =>
    obtain ⟨-, -, y, -, -, -, -, hsuper⟩ := State.of_inheritance hfound
    obtain ⟨-, -, -, d, -, -, -, hd, e, he, hde⟩ :=
      htraced.inheritance (a := .running task st nextId) hfound
    obtain ⟨c', hc', hm'⟩ := Class.mem_of_method? hm
    obtain ⟨statement, hfounded⟩ := hstore.value _ _ _ hsuper c' hc'
    exact ⟨statement, c', e, hfounded, hm', hs.cls _ _ he,
      Class.chain_subset (Class.mem_chain_of_superclass hde hd) hc'⟩
  | @got object name k m htask hfound =>
    obtain ⟨c, hc, hm⟩ := Store.method?_of_property? hfound
    obtain ⟨c', hc', hm'⟩ := Class.mem_of_method? hm
    obtain ⟨statement, hfounded⟩ := hstore.cls _ _ hc c' hc'
    exact ⟨statement, c', c, hfounded, hm', hs.cls _ _ hc, hc'⟩
  | @constructed c m bindings f hc hm hf hbindings =>
    obtain ⟨c', hc', hm'⟩ := Class.mem_of_method? hm
    obtain ⟨statement, hfounded⟩ := htraced.holdings.holdings _ hc c' hc'
    exact ⟨statement, c', c, hfounded, hm', Store.class?_newInstance_self c, hc'⟩

end

/-- The function whose body a task begins with is held. -/
theorem Task.mem_holdings_of_body? {goal : Yield} {task : Task goal} {f : Closure}
    {scope : ScopeRef} (h : f ∈ task.body?) : .value (.function f) ∈ task.holdings scope := by
  unfold body? at h
  split at h
  · obtain rfl := Option.some.inj h
    exact List.mem_append_right _ (List.mem_append_right _ List.mem_cons_self)
  · cases h

namespace Phase

variable {a b : Phase} {events : List Event}

/-- What comes into being fits the history, of which it is the latest part. -/
theorem Next.made_isSeated (h : a.Next b) (ha : a.Reachable) (htraced : a.Traced events)
    (hfounded : ∀ statement c, .founded statement c ∈ a.event? b →
      c.FoundedBy b.known b.state.store statement)
    (hbound : ∀ m object f, .bound m object f ∈ a.event? b →
      m.BoundTo events b.state.store object f) :
    ∀ event ∈ a.event? b, Holding.IsSeated ((a.event? b).toList ++ events) b.known b.state.store
      (.value event.value) := by
  intro event hevent
  have hmem : event ∈ (a.event? b).toList ++ events :=
    List.mem_append_left _ (Option.mem_toList.mpr hevent)
  have hsound : a.Sound := ha.sound
  have hchanges := h.changes hsound
  have hword (x : ScopeRef) (hlt : x < a.state.store.scopes.size) (word : Keyword) :
      b.state.store.local? x word.text = a.state.store.local? x word.text :=
    h.word hsound hlt word
  have hrooted := h.made_isRooted hsound ha.isRooted.2 event hevent
  have hkeep {x : Holding} (hx : x.IsSeated events a.known a.state.store) :
      x.IsSeated ((a.event? b).toList ++ events) b.known b.state.store :=
    hx.keep (List.subset_append_right _ _) (h.grows hsound) hchanges hword
  cases event with
  | declared f =>
    obtain ⟨goal, task, st, nextId, rfl, harises⟩ := h.arises hevent
    generalize b.state.store = s' at *
    cases harises with
    | @declared d k htask =>
      subst htask
      obtain ⟨-, p, -, -, hscoped, -⟩ := hsound
      have hcode := hkeep (htraced.holdings.holdings (.code st.current (.stmt (.funDecl d)))
        List.mem_cons_self)
      exact ⟨hscoped.2.2.body.2.1, hcode.2.2.of_part fun _ => List.Subset.refl _⟩
  | founded statement c =>
    obtain ⟨goal, task, st, nextId, rfl, harises⟩ := h.arises hevent
    generalize b.state.store = s' at *
    cases harises with
    | @founded name methods k scope htask =>
      intro d hd
      rw [Class.chain_of_none ((st.define name .nil).newClass_made name none methods).parent,
        List.mem_singleton] at hd
      exact hd ▸ ⟨_, hmem⟩
    | @derived e name reference methods k scope htask =>
      intro d hd
      rw [Class.chain_of_some (st.newClass_made name (some e) methods).parent] at hd
      rcases List.mem_cons.mp hd with rfl | hd
      · exact ⟨_, hmem⟩
      · subst htask
        exact hkeep (htraced.holdings.holdings (.value (.cls e)) List.mem_cons_self) d hd
  | bound m object f =>
    have hto := hbound m object f hevent
    obtain ⟨statement, c, d, hstatement, hm, -, -⟩ := hto.cls
    obtain ⟨path, hpath⟩ := hrooted
    obtain ⟨tail, rfl⟩ := hpath.head_eq
    refine ⟨?_, f.scope :: tail, hpath, .inl ⟨m, object, f, 0, hmem, ?_, rfl, ?_⟩⟩
    · rw [hto.decl]
      exact (htraced.founded statement c hstatement).parameters m hm
    · rw [List.findIdx?_cons, Store.hasReceiver, hto.receiver]
      rfl
    · rw [hto.decl]
      exact List.Subset.refl _

/-- What begins to run mentions no receiver that is bound. -/
theorem Next.begins_isSeated (h : a.Next b) (ha : a.Reachable) (htraced : a.Traced events)
    {node : Node} (hbegins : a.Begins b node) :
    Holding.IsSeated ((a.event? b).toList ++ events) b.known b.state.store
      (.code b.state.current node) := by
  have hsound : a.Sound := ha.sound
  have hroot := ha.isRooted.1
  have hnone : [Store.globals].findIdx? a.state.store.hasReceiver = none := by
    rw [List.findIdx?_cons, Store.hasReceiver_of_none (htraced.globals .this)]
    rfl
  cases hbegins with
  | @program s source program table nextId t haccepts ht =>
    have hs : s.Sound := hsound
    obtain ⟨⟨tokens, hlex, hparse⟩, hresolve⟩ := haccepts
    have hscoped := (hs.silent.program hlex hparse hresolve).2
    have hseat : Holding.IsSeated ([] ++ events) ((s.state.table.merge table).known nextId)
        s.state.store (.code Store.globals (.stmt t)) := by
      refine ⟨hs.state.size, htraced.globals, _, .globals hroot hs.state.size, .inr ⟨hnone, 0, ?_⟩⟩
      intro r hr
      exact (hscoped.mentions (.refl _) r (Stmt.mem_mentionsAll.mpr ⟨t, ht, hr⟩)).of_nil
    rw [← hs.state.scope] at hseat
    exact hseat
  | @expression s source tokens e nextId hlex hparse =>
    have hs : s.Sound := hsound
    have hscoped := (hs.silent.expression hlex hparse).2
    have hseat : Holding.IsSeated ([] ++ events) (s.state.table.known nextId)
        s.state.store (.code Store.globals (.expr e)) := by
      refine ⟨hs.state.size, htraced.globals, _, .globals hroot hs.state.size, .inr ⟨hnone, 0, ?_⟩⟩
      exact fun r hr => (hscoped.mentions (.refl _) r hr).of_nil
    rw [← hs.state.scope] at hseat
    exact hseat

/-- A scope with a receiver is made only when a method is bound. -/
theorem Next.bound_of_hasReceiver (h : a.Next b) (ha : a.Sound) {known : Known}
    (hholdings : b.All (Holding.IsSeated events known b.state.store)) {scope : ScopeRef}
    (hle : a.state.store.scopes.size ≤ scope) (hscope : b.state.store.hasReceiver scope) :
    ∃ m object f, .bound m object f ∈ a.event? b ∧ f.scope = scope := by
  rcases (h.changes ha).opened scope hle _ hscope with hopens | hset
  · cases b with
    | idle s => exact hopens.elim
    | running task st nextId =>
      rcases hopens with ⟨-, hbound⟩ | ⟨hname, -⟩ | ⟨f, hf, p, hp, hname⟩
      · exact hbound
      · exact absurd hname (by decide)
      · have hbody : Holding.IsSeated events known st.store (.value (.function f)) :=
          hholdings.holdings _ (Task.mem_holdings_of_body? hf)
        exact absurd hname (hbody.1 p hp .this)
  · exact absurd rfl (ha.ne_word hset .this)

/-- A phase that fits its history leads to one that fits its own. -/
theorem Next.traced (h : a.Next b) (ha : a.Reachable) (htraced : a.Traced events) :
    b.Traced ((a.event? b).toList ++ events) := by
  have hsound : a.Sound := ha.sound
  have hchanges := h.changes hsound
  have hword (x : ScopeRef) (hlt : x < a.state.store.scopes.size) (word : Keyword) :
      b.state.store.local? x word.text = a.state.store.local? x word.text :=
    h.word hsound hlt word
  have hsub : events ⊆ (a.event? b).toList ++ events := List.subset_append_right _ _
  have hfounded : ∀ statement c, .founded statement c ∈ a.event? b →
      c.FoundedBy b.known b.state.store statement := by
    intro statement c hc
    obtain ⟨goal, task, st, nextId, rfl, harises⟩ := h.arises hc
    have hby := harises.foundedBy hsound htraced hchanges hword
    exact { hby with
      mentions := fun m hm r hr => (hby.mentions m hm r hr).imp_left (h.grows hsound _ _) }
  have hbound : ∀ m object f, .bound m object f ∈ a.event? b →
      m.BoundTo events b.state.store object f := by
    intro m object f hf
    obtain ⟨goal, task, st, nextId, rfl, harises⟩ := h.arises hf
    exact harises.boundTo htraced hchanges
  have hholdings : b.All (Holding.IsSeated ((a.event? b).toList ++ events) b.known b.state.store) :=
    h.all (htraced.holdings.mono fun x hx => hx.keep hsub (h.grows hsound) hchanges hword)
      Holding.carries_isSeated (h.made_isSeated ha htraced hfounded hbound)
      fun node hbegins => h.begins_isSeated ha htraced hbegins
  refine ⟨fun word => ?_, fun statement c hc => ?_, fun m object f hf => ?_, fun scope hscope => ?_,
    hholdings⟩
  · exact (hword _ (Nat.lt_of_le_of_lt (Nat.zero_le _) hsound.current_lt) word).trans
      (htraced.globals word)
  · rcases List.mem_append.mp hc with hnew | hold
    · exact hfounded statement c (Option.mem_toList.mp hnew)
    · exact (htraced.founded statement c hold).keep (h.grows hsound) hchanges hword
  · rcases List.mem_append.mp hf with hnew | hold
    · have hto := hbound m object f (Option.mem_toList.mp hnew)
      obtain ⟨statement, c, d, hc, hcls⟩ := hto.cls
      exact { hto with cls := ⟨statement, c, d, hsub hc, hcls⟩ }
    · exact (htraced.bound m object f hold).keep hsub hchanges hword
  · by_cases hlt : scope < a.state.store.scopes.size
    · rw [Store.hasReceiver, hword scope hlt .this] at hscope
      obtain ⟨m, object, f, hf, hfscope⟩ := htraced.receivers scope hscope
      exact ⟨m, object, f, hsub hf, hfscope⟩
    · obtain ⟨m, object, f, hf, hfscope⟩ :=
        h.bound_of_hasReceiver hsound hholdings (Nat.le_of_not_lt hlt) hscope
      exact ⟨m, object, f, List.mem_append_left _ (Option.mem_toList.mpr hf), hfscope⟩

/-- Whatever a phase holds fits its history. -/
theorem Lived.traced (h : Lived events a) : a.Traced events := by
  induction h with
  | fresh =>
    have hlocal (scope : ScopeRef) (name : String) : Store.initial.local? scope name = none := by
      cases scope <;> rfl
    refine ⟨fun word => hlocal _ _, by simp, by simp, fun scope hscope => ?_,
      Store.all_initial _, by simp [Phase.holdings]⟩
    cases hscope.symm.trans (Store.hasReceiver_of_none (hlocal scope _))
  | next h hnext ih => exact hnext.traced h.reachable ih

end Phase

end Lox
