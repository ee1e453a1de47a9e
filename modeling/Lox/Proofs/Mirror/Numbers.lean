import Lox.Proofs.Mirror.Sessions

/-!
# Numbers of references in a session

The numbers that a session has given out are those of the references in its table
and in its functions, wherever these are kept, and no later source gets one of
them. So what was found out about a reference stays as it was.

## Implementation notes

The functions of a session are those that can be got at from any scope whatever,
the globals among them.
-/

namespace Lox

/-! ## What can be got at -/

/-- The values that can be got at from a scope: through names, closures, the parts
of classes, and fields. -/
inductive Store.Reaches (s : Store) : ScopeRef → Value → Prop
  | name {scope owner : ScopeRef} {k : Nat} {name : String} {v : Value}
      (howner : s.ancestor? scope k = some owner) (hv : s.local? owner name = some v) :
      Reaches s scope v
  | captured {scope : ScopeRef} {c : Closure} {v : Value} (hc : Reaches s scope (.function c))
      (hv : Reaches s c.scope v) : Reaches s scope v
  | superclass {scope : ScopeRef} {c superclass : Class} (hc : Reaches s scope (.cls c))
      (hsuper : c.superclass = some superclass) : Reaches s scope (.cls superclass)
  | method {scope : ScopeRef} {c : Class} {m : Closure} (hc : Reaches s scope (.cls c))
      (hm : m ∈ c.methods) : Reaches s scope (.function m)
  | cls {scope : ScopeRef} {object : InstanceRef} {c : Class}
      (hobject : Reaches s scope (.object object)) (hc : s.class? object = some c) :
      Reaches s scope (.cls c)
  | field {scope : ScopeRef} {object : InstanceRef} {name : String} {v : Value}
      (hobject : Reaches s scope (.object object)) (hv : s.field? object name = some v) :
      Reaches s scope v

section

variable {V : Visit → Prop} {s : Store} {L : Labels}

/-- What a value consists of comes from visited declarations. Unlike a function
that is a value, a method need not be where it was visited, since it is not bound. -/
def Value.IsVisited (V : Visit → Prop) (s : Store) (L : Labels) : Value → Prop
  | .function c => ∃ v, V v ∧ v.node = .function c.decl
  | .cls c => c.Mirrored V s L
  | _ => True

theorem Value.Mirrored.isVisited {v : Value} (h : v.Mirrored V s L) : v.IsVisited V s L := by
  cases v with
  | function c =>
    obtain ⟨Γ, T, -, -, hvisited⟩ := h
    exact ⟨_, hvisited.root, rfl⟩
  | cls c => exact h
  | _ => trivial

/-- Whatever can be got at comes from visited declarations. -/
theorem Store.Mirrored.reaches (h : s.Mirrored V L) {scope : ScopeRef} {v : Value}
    (hv : s.Reaches scope v) : v.IsVisited V s L := by
  induction hv with
  | name _ hv => exact (h.value _ _ _ hv).isVisited
  | captured _ _ _ ih => exact ih
  | @superclass _ c _ _ hsuper ih =>
    obtain ⟨_, _, _, _⟩ := c
    obtain rfl := hsuper
    exact ih.1
  | @method _ c m _ hm ih =>
    have hmethod : m.MirroredMethod V s L := by
      obtain ⟨_, _, superclass, _⟩ := c
      cases superclass with
      | none => exact ih m hm
      | some _ => exact ih.2 m hm
    obtain ⟨Γ, T, -, -, hvisited⟩ := hmethod
    exact ⟨_, hvisited.root, rfl⟩
  | cls _ hc => exact h.cls _ _ hc
  | field _ hv => exact (h.field _ _ _ hv).isVisited

end

/-! ## Numbers given out -/

/-- The numbers in a state are among those given out, and each function in it is
one of a program that has run, with the table that was found out then. -/
structure State.IsNumbered (past : List Accepted) (nextId : NodeId) (st : State) : Prop where
  table (id : NodeId) (b : Binding) (h : st.table[id]? = some b) : @LT.lt Nat _ id nextId
  function (scope : ScopeRef) (c : Closure) (h : st.store.Reaches scope (.function c)) :
    ∃ a ∈ past, (∃ v ∈ programVisits a.program, v.node = .function c.decl) ∧
      ∀ id ∈ c.decl.ids, @LT.lt Nat _ id nextId ∧ st.table[id]? = a.table[id]?

namespace Session

variable {past : List Accepted} {s : Session} {source : String} {tokens : List Token}
  {program : List Stmt} {e : Expr} {table : BindingTable} {nextId : NodeId} {st : State}

/-- A state like that of a session that recalls its past has only numbers that were
given out. -/
theorem Recalls.isNumbered (h : Recalls past s) (hsilent : s.state.table.SilentFrom s.nextId)
    (hstore : ∃ L, st.store.Mirrored (· ∈ Accepted.visits past) L)
    (htable : st.table = s.state.table) : st.IsNumbered past s.nextId := by
  constructor
  · intro id b hb
    by_contra hge
    have hnone : s.state.table[id]? = none :=
      Option.map_eq_none_iff.mp (hsilent id (Nat.le_of_not_lt hge))
    rw [htable, hnone] at hb
    cases hb
  · intro scope c hc
    obtain ⟨L, hstore⟩ := hstore
    obtain ⟨v, hv, hnode⟩ := hstore.reaches hc
    obtain ⟨a, ha, hv⟩ := List.mem_flatMap.mp hv
    refine ⟨a, ha, ⟨v, hv, hnode⟩, fun id hid => ?_⟩
    have hprogram : id ∈ Stmt.idsAll a.program := by
      have hsubset := (Stmt.in_visitsAll [] a.program .start).ids_subset v hv
      rw [hnode] at hsubset
      exact hsubset hid
    constructor
    · exact (h.fresh.bounds id (List.mem_flatMap.mpr ⟨a, ha, hprogram⟩)).2
    · rw [htable, h.table a ha id hprogram]

/-- The numbers of a session are in order: those in use are below the next one,
and those in the tree of the next source are not. No entry of the table is
replaced. Each function goes by what was found out in its own run, and an
expression that is evaluated looks its names up among the globals. -/
structure KeepsNumbers (past : List Accepted) (s : Session) : Prop where
  state : s.state.IsNumbered past s.nextId
  program (tokens : List Token) (program : List Stmt) (nextId : NodeId)
    (h : parseProgram tokens s.nextId = (.ok program, nextId)) :
    Fresh s.nextId nextId (Stmt.idsAll program)
  expression (tokens : List Token) (e : Expr) (nextId : NodeId)
    (h : parseExpression tokens s.nextId = (.ok e, nextId)) : Fresh s.nextId nextId e.ids
  learn (source : String) (program : List Stmt) (table : BindingTable) (nextId : NodeId)
    (h : s.Accepts source program table nextId) (id : NodeId) (b : Binding) :
    (table[id]? = some b → s.state.table[id]? = none) ∧
      (s.state.table[id]? = some b → (s.state.learn table).table[id]? = some b)
  run (source : String) (program : List Stmt) (table : BindingTable) (nextId : NodeId)
    (h : s.Accepts source program table nextId) (limit : Nat) (task : Task .flow) (st : State)
    (hreaches : Machine.Reaches limit (Machine.program program, s.state.learn table) (task, st)) :
    st.IsNumbered (⟨program, table⟩ :: past) nextId
  evaluate (source : String) (tokens : List Token) (e : Expr) (nextId : NodeId)
    (hlex : (lex source).toExcept = .ok tokens)
    (h : parseExpression tokens s.nextId = (.ok e, nextId)) (limit : Nat) (task : Task .value)
    (st : State) (hreaches : Machine.Reaches limit (Machine.expression e, s.state) (task, st)) :
    st.IsNumbered past nextId ∧ ∀ target : Reference, target.id ∈ e.ids →
      st.table.distance? target.id = none ∧
        st.owner? target = st.store.owner? Store.globals target.name.lexeme

/-- No number of an accepted program has an entry yet. -/
theorem Accepts.new_entry (h : s.Accepts source program table nextId) (hs : s.Sound) {id : NodeId}
    {b : Binding} (hb : table[id]? = some b) : s.state.table[id]? = none := by
  obtain ⟨hfresh, -, -, hsilent⟩ := h.visited hs
  have hmem : id ∈ Stmt.idsAll program := by
    by_contra hmem
    rw [hsilent id hmem] at hb
    cases hb
  exact Option.map_eq_none_iff.mp (hs.silent id (hfresh.bounds id hmem).1)

/-- No run changes the table that it goes by. -/
theorem Accepts.table_eq (h : s.Accepts source program table nextId) (hs : s.Sound) {limit : Nat}
    {task : Task .flow}
    (hreaches : Machine.Reaches limit (Machine.program program, s.state.learn table) (task, st)) :
    st.table = (s.state.learn table).table := by
  obtain ⟨_, hat, -⟩ := hreaches.sound (hs.program h).2
  exact hat.table

/-- Every session keeps its numbers in order, and so does each moment of what it
does next. -/
theorem numbers_are_kept (h : Ran past s) : KeepsNumbers past s := by
  have hs : s.Sound := h.reachable.sound
  have hrecalls : Recalls past s := h.recalls
  constructor
  · exact hrecalls.isNumbered hs.silent hrecalls.mirrored rfl
  · intro tokens program nextId hparse
    exact fresh_of_parseProgram hparse
  · intro tokens e nextId hparse
    exact fresh_of_parseExpression hparse
  · intro source program table nextId haccepts id b
    refine ⟨haccepts.new_entry hs, fun hb => ?_⟩
    have hnew : table[id]? = none := by
      by_contra hne
      obtain ⟨b', hb'⟩ := Option.ne_none_iff_exists'.mp hne
      rw [haccepts.new_entry hs hb'] at hb
      cases hb
    change (s.state.table.merge table)[id]? = some b
    rw [BindingTable.getElem?_merge, hnew, Option.none_or, hb]
  · intro source program table nextId haccepts limit task st hreaches
    obtain ⟨L, _, hspot, -⟩ := hreaches.mirrored (fun _ => id) (hrecalls.accepted hs haccepts)
    exact (hrecalls.accept hs haccepts).isNumbered (hs.program haccepts).1 ⟨L, hspot.store⟩
      (haccepts.table_eq hs hreaches)
  · intro source tokens e nextId hlex hparse limit task st hreaches
    obtain ⟨haccepts, hscoped⟩ := hs.silent.expression hlex hparse
    obtain ⟨L, _, hspot, -⟩ := hreaches.mirrored (fun v hv => List.mem_append_left _ hv)
      (hrecalls.mirrored_expression hs.state.scope e)
    obtain ⟨_, hat, -⟩ := hreaches.sound (Machine.expression_sound (hs.accept haccepts) hscoped)
    have htable : st.table = s.state.table := hat.table
    constructor
    · exact (hrecalls.advance (le_of_parseExpression hparse)).isNumbered haccepts.silent
        ⟨L, hspot.store⟩ htable
    · intro target htarget
      have hnone : st.table.distance? target.id = none := by
        rw [htable]
        exact hs.silent target.id ((fresh_of_parseExpression hparse).bounds _ htarget).1
      rw [State.owner?, hnone]
      exact ⟨rfl, rfl⟩

/-- A function that prints its parameter is kept among the globals. -/
theorem numbers_are_kept_function : ∃ past s c, Ran past s ∧
    s.state.store.Reaches Store.globals (.function c) ∧ c.decl.ids = [0] ∧ s.nextId = 1 ∧
      KeepsNumbers past s := by
  obtain ⟨program, table, nextId, s, c, haccepts, hrun, hc, hids, hnext⟩ :
      ∃ program table nextId s c,
        fresh.Accepts "fun f(a) \x7b print a; \x7d" program table nextId ∧
        fresh.run ⟨1, 9⟩ "fun f(a) \x7b print a; \x7d" = some (.ok (), s) ∧
        s.state.store.local? Store.globals "f" = some (.function c) ∧ c.decl.ids = [0] ∧
        s.nextId = 1 :=
    ⟨_, _, _, _, _, ⟨⟨_, by cbv, by cbv⟩, rfl⟩, by cbv, by cbv, by cbv, by cbv⟩
  have hran : Ran [⟨program, table⟩] s := .run .fresh haccepts hrun
  exact ⟨_, s, c, hran, .name (k := 0) rfl hc, hids, hnext, numbers_are_kept hran⟩

end Session

end Lox
