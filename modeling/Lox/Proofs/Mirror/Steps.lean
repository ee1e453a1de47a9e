import Lox.Proofs.Mirror.Chains
import Lox.Proofs.Scoping.Steps

/-!
# Steps of a machine that mirrors the walk

A machine mirrors the walk if it is in a chain of scopes in which the next piece
of program was visited, and every piece that a continuation keeps was visited in
the scopes to which the continuation will come back. A step leaves it so.

## Implementation notes

There are two sets of visits. Statements and functions were visited in the first.
Expressions may have been visited in the second, larger one, so that an expression
that is evaluated by itself, which no walk visits, can be counted among them.
-/

namespace Lox

/-! ## Spots -/

/-- Where a piece of program runs: in which scope, and what the walk had open
there. -/
structure Spot where
  scope : ScopeRef
  names : Scopes
  texts : Texts

/-- A spot is in a store as the walk had it. -/
structure Spot.Stands (p : Spot) (s : Store) (L : Labels) : Prop where
  models : s.Models p.scope p.names
  labelled : s.Labelled L p.scope p.texts

theorem Spot.Stands.later {p : Spot} {s s' : Store} {L L' : Labels} (h : p.Stands s L)
    (hs : s.Spreads L s' L') : p.Stands s' L' :=
  ⟨h.models.grow hs.grows, h.labelled.spread hs⟩

/-- The spot behind the initializer of a variable. -/
def Spot.define (p : Spot) (name : Token) : Spot :=
  { p with names := p.names.mark name.lexeme true }

/-- The spot behind the declaration of a name. -/
def Spot.introduce (p : Spot) (name : Token) : Spot :=
  { p with names := p.names.introduce name }

/-- A state is mirrored and at a spot. -/
structure State.AtSpot (V : Visit → Prop) (L : Labels) (st : State) (p : Spot) : Prop where
  store : st.store.Mirrored V L
  scope : p.scope = st.current
  stands : p.Stands st.store L

/-! ## Tasks -/

section

variable (U V : Visit → Prop) (s : Store) (L : Labels) {goal : Yield}

/-- What a continuation keeps was visited at the spots to which it comes. -/
def Cont.Mirrored : {y : Yield} → Cont goal y → Spot → Prop
  | _, .halt, _ => True
  | _, .unary _ _ k, p => k.Mirrored p
  | _, .binaryLeft _ _ right k, p => right.Visited U p.names p.texts ∧ k.Mirrored p
  | _, .binaryRight _ _ left k, p => left.Mirrored V s L ∧ k.Mirrored p
  | _, .logical _ right k, p => right.Visited U p.names p.texts ∧ k.Mirrored p
  | _, .assign _ k, p => k.Mirrored p
  | _, .get _ k, p => k.Mirrored p
  | _, .setObject _ value k, p => value.Visited U p.names p.texts ∧ k.Mirrored p
  | _, .setValue _ _ k, p => k.Mirrored p
  | _, .callee _ arguments k, p => Expr.AreVisited U p.names p.texts arguments ∧ k.Mirrored p
  | _, .argument called _ done rest k, p =>
      called.Mirrored V s L ∧ (∀ v ∈ done, v.Mirrored V s L) ∧
        Expr.AreVisited U p.names p.texts rest ∧ k.Mirrored p
  | _, .construct _ k, p => k.Mirrored p
  | _, .endCall k, p => k.Mirrored p
  | _, .discard k, p => k.Mirrored p
  | _, .print k, p => k.Mirrored p
  | _, .define name k, p => p.texts.Has [name.lexeme] ∧ k.Mirrored (p.define name)
  | _, .ret k, p => k.Mirrored p
  | _, .branch yes no k, p =>
      (yes.Visited V p.names p.texts ∧ yes.IsPlain) ∧
        Stmt.VisitedOptional V p.names p.texts no ∧ k.Mirrored p
  | _, .loopTest condition body k, p =>
      (Stmt.loop condition body).Visited V p.names p.texts ∧ k.Mirrored p
  | _, .superclass _ _ methods k, p =>
      FunctionDecl.AreVisited V ((p.names.given .super).given .this)
        ([Keyword.this.text] :: [Keyword.super.text] :: p.texts) methods ∧ k.Mirrored p
  | _, .sequence rest k, p =>
      Stmt.AreVisited V p.names p.texts rest ∧ ∀ Γ, k.Mirrored { p with names := Γ }
  | _, .leaveScope outer k, _ => ∃ q : Spot, q.scope = outer ∧ q.Stands s L ∧ k.Mirrored q
  | _, .loopBody condition body k, p =>
      (Stmt.loop condition body).Visited V p.names p.texts ∧ k.Mirrored p
  | _, .endBody _ k, p => k.Mirrored p

/-- The piece of program of a task was visited at the spot where it runs. -/
def Task.Mirrored : Task goal → Spot → Prop
  | .eval e k, p => e.Visited U p.names p.texts ∧ k.Mirrored U V s L p
  | .exec t k, p =>
      t.Visited V p.names p.texts ∧ k.Mirrored U V s L { p with names := t.after p.names }
  | .value v k, p => v.Mirrored V s L ∧ k.Mirrored U V s L p
  | .flow f k, p => f.Mirrored V s L ∧ k.Mirrored U V s L p

end

namespace Machine

variable (U V : Visit → Prop) {goal : Yield}

/-- A machine that has a task mirrors the walk. -/
def Mirrored (task : Task goal) (st : State) : Prop :=
  ∃ L p, st.AtSpot V L p ∧ task.Mirrored U V st.store L p

end Machine

/-- The step leads to a machine that mirrors the walk, or ends with a mirrored
store. -/
def Step.Mirrored (U V : Visit → Prop) {goal : Yield} : Step goal → Prop
  | .next task st => Machine.Mirrored U V task st
  | .done _ st => ∃ L, st.store.Mirrored V L
  | .failed _ st => ∃ L, st.store.Mirrored V L

section

variable {U V : Visit → Prop} {goal : Yield}

/-- A continuation stays mirrored while the store grows. -/
theorem Cont.Mirrored.later {s s' : Store} {L L' : Labels} {y : Yield} {k : Cont goal y} {p : Spot}
    (h : k.Mirrored U V s L p) (hs : s.Spreads L s' L') : k.Mirrored U V s' L' p := by
  induction k generalizing p with
  | halt => exact h
  | unary _ _ _ ih | assign _ _ ih | get _ _ ih | setValue _ _ _ ih | construct _ _ ih
  | endCall _ ih | discard _ ih | print _ ih | ret _ ih | endBody _ _ ih => exact ih h
  | binaryLeft _ _ _ _ ih | logical _ _ _ ih | setObject _ _ _ ih | callee _ _ _ ih | define _ _ ih
  | loopTest _ _ _ ih | superclass _ _ _ _ ih | loopBody _ _ _ ih => exact ⟨h.1, ih h.2⟩
  | binaryRight _ _ _ _ ih => exact ⟨h.1.later hs, ih h.2⟩
  | argument _ _ _ _ _ ih =>
    obtain ⟨hcalled, hdone, hrest, h⟩ := h
    exact ⟨hcalled.later hs, fun v hv => (hdone v hv).later hs, hrest, ih h⟩
  | branch _ _ _ ih => exact ⟨h.1, h.2.1, ih h.2.2⟩
  | sequence _ _ ih => exact ⟨h.1, fun Γ => ih (h.2 Γ)⟩
  | leaveScope _ _ ih =>
    obtain ⟨q, hscope, hstands, h⟩ := h
    exact ⟨q, hscope, hstands.later hs, ih h⟩

variable {L : Labels} {st : State} {p : Spot}

namespace State.AtSpot

/-- The store grows around the spot. -/
theorem of_store {s' : Store} {L' : Labels} (h : st.AtSpot V L p) (hs' : s'.Mirrored V L')
    (hs : st.store.Spreads L s' L') : State.AtSpot V L' { st with store := s' } p :=
  ⟨hs', h.scope, h.stands.later hs⟩

theorem spreads_define (L : Labels) (st : State) (name : Token) (v : Value) :
    st.store.Spreads L (st.define name v).store L :=
  .of_grows Store.Grows.define

/-- A name that the text around declares gets a value. -/
theorem define {name : Token} {v : Value} (h : st.AtSpot V L p)
    (hname : p.texts.Has [name.lexeme]) (hv : v.Mirrored V (st.define name v).store L) :
    (st.define name v).AtSpot V L (p.define name) := by
  have hlabel : st.current ≠ Store.globals → name.lexeme ∈ L st.current := by
    intro hne
    rw [← h.scope] at hne ⊢
    exact h.stands.labelled.has hname hne List.mem_cons_self
  have hmodels : (st.define name v).store.Models st.current (p.define name).names :=
    (h.scope ▸ h.stands.models : st.store.Models st.current p.names).define
  exact ⟨h.store.define hlabel hv, h.scope, h.scope ▸ hmodels,
    h.stands.labelled.spread (spreads_define L st name v)⟩

theorem introduce {name : Token} {v : Value} (h : st.AtSpot V L p)
    (hname : p.texts.Has [name.lexeme]) (hv : v.Mirrored V (st.define name v).store L) :
    (st.define name v).AtSpot V L (p.introduce name) := by
  have hdeclared : st.AtSpot V L { p with names := p.names.mark name.lexeme false } :=
    ⟨h.store, h.scope, h.stands.models.declare, h.stands.labelled⟩
  exact hdeclared.define hname hv

/-- A value takes the place of another. -/
theorem write {scope : ScopeRef} {name : Token} {v : Value} (h : st.AtSpot V L p)
    (hlocal : (st.store.local? scope name.lexeme).isSome) (hv : v.Mirrored V st.store L) :
    (st.write scope name v).AtSpot V L p ∧ st.store.Spreads L (st.write scope name v).store L := by
  have hs : st.store.Spreads L (st.write scope name v).store L := .of_grows Store.Grows.define
  exact ⟨h.of_store (h.store.define (fun hne => h.store.labelled scope _ hne hlocal)
    (hv.later hs)) hs, hs⟩

/-- A bound method is a mirrored value. -/
theorem bind {m : Closure} (h : st.AtSpot V L p) (hm : m.MirroredMethod V st.store L)
    (receiver : InstanceRef) :
    ∃ L', (st.bind m receiver).2.AtSpot V L' p ∧
      (st.bind m receiver).1.Mirrored V (st.bind m receiver).2.store L' ∧
      st.store.Spreads L (st.bind m receiver).2.store L' := by
  obtain ⟨L', hs, hstore, hbound⟩ := h.store.bindMethod hm receiver
  exact ⟨L', h.of_store hstore hs, hbound, hs⟩

/-- A new scope is entered, with a text and names that are held. -/
theorem enter {scope : ScopeRef} {Γ : Scopes} {T : Texts} {bindings : NameMap Value}
    {names : NameMap Bool} {text : List String} (h : st.AtSpot V L p)
    (hmodels : st.store.Models scope Γ) (hlabelled : st.store.Labelled L scope T)
    (hnames : ∀ name, names.get? name = some true → (bindings.get? name).isSome)
    (hvalue : ∀ name v, bindings.get? name = some v → v.Mirrored V st.store L ∧ name ∈ text) :
    ∃ L', (st.enter bindings scope).AtSpot V L'
        ⟨st.store.scopes.size, names :: Γ, text :: T⟩ ∧
      st.store.Spreads L (st.enter bindings scope).store L' :=
  ⟨L.push st.store.scopes.size text,
    ⟨h.store.newScope bindings _ text hvalue, rfl, hmodels.newScope names bindings hnames,
      hlabelled.newScope h.store.pos bindings text⟩, .newScope _ _ _⟩

end State.AtSpot

/-! ## Calls -/

theorem State.AtSpot.newInstance {c : Class} (h : st.AtSpot V L p)
    (hc : c.Mirrored V st.store L) :
    State.AtSpot V L { st with store := (st.store.newInstance c).2 } p ∧
      st.store.Spreads L (st.store.newInstance c).2 L := by
  have hs : st.store.Spreads L (st.store.newInstance c).2 L := .of_scopes_eq rfl
  exact ⟨h.of_store (h.store.newInstance hc) hs, hs⟩

/-- What is called is mirrored, and so is what it is called with. -/
theorem Task.Mirrored.of_calls {task : Task goal} {called : Value} {closing : Token}
    {arguments : List Value} {k : Cont goal .value} {s : Store} (h : task.Mirrored U V s L p)
    (hcalls : task.Calls called closing arguments k) :
    called.Mirrored V s L ∧ (∀ v ∈ arguments, v.Mirrored V s L) ∧ k.Mirrored U V s L p := by
  cases hcalls with
  | plain => exact ⟨h.1, List.forall_mem_nil _, h.2.2⟩
  | last v called closing done k =>
    obtain ⟨hv, hcalled, hdone, -, hk⟩ := h
    have hall : ∀ w ∈ v :: done, w.Mirrored V s L := List.forall_mem_cons.mpr ⟨hv, hdone⟩
    exact ⟨hcalled, fun w hw => hall w (List.mem_reverse.mp hw), hk⟩

/-- The body of a function starts in a scope that is labelled with its text. -/
theorem Machine.enterBody_mirrored {closure : Closure} {arguments : List Value} {k : Cont goal .value}
    (h : st.AtSpot V L p) (hclosure : closure.Mirrored V st.store L)
    (harguments : ∀ v ∈ arguments, v.Mirrored V st.store L)
    (hlen : arguments.length = closure.decl.parameters.length) (hk : k.Mirrored U V st.store L p) :
    (enterBody closure arguments k st).Mirrored U V := by
  obtain ⟨Γ, T, hmodels, hlabelled, hvisited⟩ := hclosure
  obtain ⟨names, hfold, -, htrue⟩ := Scopes.foldl_introduce_empty Γ hlen
  have hbody := hvisited.body
  rw [hfold] at hbody
  have hvalue : ∀ name v, (NameMap.ofArguments closure.decl.parameters arguments).get? name =
      some v → v.Mirrored V st.store L ∧ name ∈ closure.decl.declared := by
    intro name v hv
    obtain ⟨⟨q, hq, rfl⟩, hargument⟩ := NameMap.of_get?_ofArguments hv
    exact ⟨harguments v hargument, List.mem_append_left _ (List.mem_map_of_mem hq)⟩
  obtain ⟨L', henter, hs⟩ :=
    h.enter hmodels hlabelled (fun name => (htrue name).mp) hvalue
  exact ⟨L', _, henter, trivial, hbody, fun _ => ⟨p, h.scope, h.stands.later hs, hk.later hs⟩⟩

/-! ## Declarations -/

/-- The methods of a class are around one scope, and nothing else changes. -/
theorem State.newMethods_mirrored {scope : ScopeRef} {Γ : Scopes} {T : Texts} :
    ∀ {ds : List FunctionDecl} {s : Store}, s.Mirrored V L → s.Models scope Γ →
      s.Labelled L scope T →
      FunctionDecl.AreVisited V (Γ.given .this) ([Keyword.this.text] :: T) ds →
      (newMethods s scope ds).2.Mirrored V L ∧ s.Spreads L (newMethods s scope ds).2 L ∧
        ∀ m ∈ (newMethods s scope ds).1, m.MirroredMethod V (newMethods s scope ds).2 L
  | [], _, h, _, _, _ => ⟨h, .of_scopes_eq rfl, by simp [newMethods]⟩
  | d :: ds, s, h, hmodels, hlabelled, hd => by
      have hs : s.Spreads L (s.newClosure d scope (d.name.lexeme == initializerName)).2 L :=
        .of_scopes_eq rfl
      have hfirst : (s.newClosure d scope (d.name.lexeme == initializerName)).2.Mirrored V L :=
        h.of_eq rfl rfl
      obtain ⟨hstore, hrest, hmethods⟩ :=
        newMethods_mirrored hfirst (hmodels.grow hs.grows) (hlabelled.spread hs) hd.2
      refine ⟨hstore, hs.trans hrest, List.forall_mem_cons.mpr ⟨⟨Γ, T, ?_, ?_, hd.1⟩, hmethods⟩⟩
      · exact hmodels.grow (hs.trans hrest).grows
      · exact hlabelled.spread (hs.trans hrest)

/-- A class is made in the scopes where its methods were visited. -/
theorem State.AtSpot.newClass {superclass : Option Class} {methods : List FunctionDecl}
    (h : st.AtSpot V L p) (name : Token) (hsuper : ∀ c ∈ superclass, c.Mirrored V st.store L)
    (hmethods : match superclass with
      | none => FunctionDecl.AreVisited V (p.names.given .this)
          ([Keyword.this.text] :: p.texts) methods
      | some _ => FunctionDecl.AreVisited V ((p.names.given .super).given .this)
          ([Keyword.this.text] :: [Keyword.super.text] :: p.texts) methods) :
    ∃ L', (st.newClass name superclass methods).2.AtSpot V L' p ∧
      (st.newClass name superclass methods).1.Mirrored V
        (st.newClass name superclass methods).2.store L' ∧
      st.store.Spreads L (st.newClass name superclass methods).2.store L' := by
  have hmodels : st.store.Models st.current p.names := h.scope ▸ h.stands.models
  have hlabelled : st.store.Labelled L st.current p.texts := h.scope ▸ h.stands.labelled
  cases superclass with
  | none =>
    obtain ⟨hstore, hs, hall⟩ := newMethods_mirrored h.store hmodels hlabelled hmethods
    have hs' : (newMethods st.store st.current methods).2.Spreads L
        (st.newClass name none methods).2.store L := .of_scopes_eq rfl
    exact ⟨L, h.of_store (hstore.of_eq rfl rfl) (hs.trans hs'),
      fun m hm => (hall m hm).spread (fun _ => id) hs', hs.trans hs'⟩
  | some c =>
    have hc := hsuper c rfl
    let bindings : NameMap Value := NameMap.empty.insert Keyword.super.text (.cls c)
    have hvalue : ∀ name v, bindings.get? name = some v →
        v.Mirrored V st.store L ∧ name ∈ [Keyword.super.text] := by
      intro name v hv
      obtain ⟨rfl, rfl⟩ := NameMap.get?_single_iff.mp hv
      exact ⟨hc, List.mem_singleton_self _⟩
    have hs : st.store.Spreads L (st.store.newScope bindings (some st.current)).2
        (L.push st.store.scopes.size [Keyword.super.text]) := .newScope _ _ _
    obtain ⟨hstore, hs', hall⟩ := newMethods_mirrored
      (h.store.newScope bindings (some st.current) [Keyword.super.text] hvalue)
      (hmodels.given .super (.cls c))
      (hlabelled.newScope h.store.pos bindings [Keyword.super.text]) hmethods
    have hs'' : (newMethods (st.store.newScope bindings (some st.current)).2 st.store.scopes.size
        methods).2.Spreads (L.push st.store.scopes.size [Keyword.super.text])
        (st.newClass name (some c) methods).2.store
        (L.push st.store.scopes.size [Keyword.super.text]) := .of_scopes_eq rfl
    have hspread := (hs.trans hs').trans hs''
    exact ⟨_, h.of_store (hstore.of_eq rfl rfl) hspread,
      ⟨hc.spread (fun _ => id) hspread, fun m hm => (hall m hm).spread (fun _ => id) hs''⟩, hspread⟩

/-- A class takes the place of what its name has been declared with. -/
theorem State.AtSpot.defineClass {superclass : Option Class} {methods : List FunctionDecl}
    {name : Token} {scope : ScopeRef} (h : st.AtSpot V L p)
    (howner : st.store.owner? st.current name.lexeme = some scope)
    (hsuper : ∀ c ∈ superclass, c.Mirrored V st.store L)
    (hmethods : match superclass with
      | none => FunctionDecl.AreVisited V (p.names.given .this)
          ([Keyword.this.text] :: p.texts) methods
      | some _ => FunctionDecl.AreVisited V ((p.names.given .super).given .this)
          ([Keyword.this.text] :: [Keyword.super.text] :: p.texts) methods)
    {k : Cont goal .flow} (hk : k.Mirrored U V st.store L p) :
    (Step.next (.flow .normal k) ((st.newClass name superclass methods).2.write scope name
      (.cls (st.newClass name superclass methods).1))).Mirrored U V := by
  obtain ⟨L', hnew, hc, hs⟩ := h.newClass name hsuper hmethods
  obtain ⟨hwrite, hs'⟩ := hnew.write (v := .cls _)
    (hs.grows.keeps _ _ (Store.local?_of_owner? howner)) hc
  exact ⟨L', p, hwrite, trivial, hk.later (hs.trans hs')⟩

/-- A function is declared in the scopes where it was visited. -/
theorem State.AtSpot.defineFunction {function : FunctionDecl} (h : st.AtSpot V L p)
    (hname : p.texts.Has [function.name.lexeme])
    (hfunction : function.Visited V (p.names.introduce function.name) p.texts) :
    (st.defineFunction function).AtSpot V L (p.introduce function.name) ∧
      st.store.Spreads L (st.defineFunction function).store L := by
  have hs : st.store.Spreads L (st.store.newClosure function st.current false).2 L :=
    .of_scopes_eq rfl
  have hclosure : State.AtSpot V L
      { st with store := (st.store.newClosure function st.current false).2 } p :=
    h.of_store (h.store.of_eq rfl rfl) hs
  have hs' : st.store.Spreads L (st.defineFunction function).store L :=
    hs.trans (.of_grows Store.Grows.define)
  have hmodels : (st.defineFunction function).store.Models st.current
      (p.names.introduce function.name) :=
    (h.scope ▸ hclosure.stands.models : Store.Models _ st.current p.names).introduce
  have hlabelled : (st.defineFunction function).store.Labelled L st.current p.texts :=
    (h.scope ▸ h.stands.labelled : st.store.Labelled L st.current p.texts).spread hs'
  exact ⟨hclosure.introduce hname ⟨_, _, hmodels, hlabelled, hfunction⟩, hs'⟩

/-- A block starts in an empty scope that is labelled with what it declares. -/
theorem State.AtSpot.enterBlock (h : st.AtSpot V L p) (body : List Stmt) :
    ∃ L', (st.enter .empty st.current).AtSpot V L'
        ⟨st.store.scopes.size, .empty :: p.names, Stmt.declaredAll body :: p.texts⟩ ∧
      st.store.Spreads L (st.enter .empty st.current).store L' := by
  have hmodels : st.store.Models st.current p.names := h.scope ▸ h.stands.models
  have hlabelled : st.store.Labelled L st.current p.texts := h.scope ▸ h.stands.labelled
  exact h.enter hmodels hlabelled (fun _ hname => by cases hname) fun _ _ hv => by cases hv

/-! ## Tasks -/

variable (hU : ∀ v, V v → U v)

include hU

/-- What a task is taken apart to was visited. -/
theorem Task.Unfolds.mirrored {task task' : Task goal} (hunfolds : task.Unfolds st task')
    (h : st.AtSpot V L p) (htask : task.Mirrored U V st.store L p) :
    Machine.Mirrored U V task' st := by
  cases hunfolds with
  | literal v k => cases v <;> exact ⟨L, p, h, trivial, htask.2⟩
  | «variable» k hv | receiver k hv =>
    obtain ⟨scope, hheld⟩ := State.local?_of_read hv
    exact ⟨L, p, h, h.store.value scope _ _ hheld, htask.2⟩
  | grouping inner k | unary op operator operand k | assign target value k | get object name k =>
    exact ⟨L, p, h, htask.1.2, htask.2⟩
  | binary op operator left right k | logical op operator left right k
  | set object name value k | call callee closing arguments k =>
    obtain ⟨⟨-, hfirst, hrest⟩, hk⟩ := htask
    exact ⟨L, p, h, hfirst, hrest, hk⟩
  | expression value k | print value k =>
    obtain ⟨⟨-, -, hvalue⟩, hk⟩ := htask
    exact ⟨L, p, h, hvalue.mono hU, hk⟩
  | varDecl name initializer k =>
    obtain ⟨⟨-, hname, hinitializer⟩, hk⟩ := htask
    have hdeclared : st.AtSpot V L { p with names := p.names.mark name.lexeme false } :=
      ⟨h.store, h.scope, h.stands.models.declare, h.stands.labelled⟩
    exact ⟨L, _, hdeclared, (hinitializer initializer rfl).mono hU, hname, hk⟩
  | branch condition yes no k =>
    obtain ⟨⟨-, -, hcondition, hyes, hno⟩, hk⟩ := htask
    exact ⟨L, p, h, hcondition.mono hU, hyes, hno, hk⟩
  | loop condition body k =>
    obtain ⟨hloop, hk⟩ := htask
    exact ⟨L, p, h, hloop.2.2.1.mono hU, hloop, hk⟩
  | ret keyword value k =>
    obtain ⟨⟨-, -, hvalue⟩, hk⟩ := htask
    exact ⟨L, p, h, (hvalue value rfl).mono hU, hk⟩
  | operated k hw =>
    exact ⟨L, p, h, UnaryOp.of_apply hw (fun _ => trivial) fun _ => trivial, htask.2⟩
  | left op operator right v k =>
    obtain ⟨hv, hright, hk⟩ := htask
    exact ⟨L, p, h, hright, hv, hk⟩
  | combined k hw =>
    exact ⟨L, p, h, BinaryOp.of_apply hw (fun _ => trivial) (fun _ => trivial) fun _ => trivial,
      htask.2.2⟩
  | decided right k hdecided => exact ⟨L, p, h, htask.1, htask.2.2⟩
  | field k hfield =>
    exact ⟨L, p, h, h.store.field _ _ _ (Store.field?_of_property? hfield), htask.2⟩
  | undecided right k hdecided | object object name value k => exact ⟨L, p, h, htask.2⟩
  | callee v closing first rest k =>
    obtain ⟨hv, ⟨hfirst, hrest⟩, hk⟩ := htask
    exact ⟨L, p, h, hfirst, hv, List.forall_mem_nil _, hrest, hk⟩
  | argument v called closing done next rest k =>
    obtain ⟨hv, hcalled, hdone, ⟨hnext, hrest⟩, hk⟩ := htask
    exact ⟨L, p, h, hnext, hcalled, List.forall_mem_cons.mpr ⟨hv, hdone⟩, hrest, hk⟩
  | retNothing keyword k | constructed v object k | discarded v k =>
    exact ⟨L, p, h, trivial, htask.2⟩
  | returned v k => exact ⟨L, p, h, htask⟩
  | yes yes no k htruthy =>
    obtain ⟨-, ⟨hyes, hplain⟩, -, hk⟩ := htask
    exact ⟨L, p, h, hyes, by rwa [Stmt.after_of_isPlain hplain]⟩
  | no yes no k htruthy =>
    obtain ⟨-, -, ⟨hno, hplain⟩, hk⟩ := htask
    exact ⟨L, p, h, hno, by rwa [Stmt.after_of_isPlain hplain]⟩
  | neither yes k htruthy => exact ⟨L, p, h, trivial, htask.2.2.2⟩
  | goesRound condition body k htruthy =>
    obtain ⟨-, hloop, hk⟩ := htask
    obtain ⟨-, -, -, hbody, hplain⟩ := id hloop
    refine ⟨L, p, h, hbody, ?_⟩
    rw [Stmt.after_of_isPlain hplain]
    exact ⟨hloop, hk⟩
  | isOver condition body k htruthy => exact ⟨L, p, h, trivial, htask.2.2⟩
  | finished f k | skipped v s rest k => exact ⟨L, p, h, htask.1, htask.2.2 p.names⟩
  | first s rest k =>
    obtain ⟨-, ⟨hs, hrest⟩, hk⟩ := htask
    exact ⟨L, p, h, hs, hrest, hk⟩
  | tests condition body k =>
    obtain ⟨-, hloop, hk⟩ := htask
    exact ⟨L, p, h, hloop.2.2.1.mono hU, hloop, hk⟩
  | leavesLoop v condition body k => exact ⟨L, p, h, htask.1, htask.2.2⟩
  | results f closure k =>
    obtain ⟨hf, hk⟩ := htask
    have hresult : (Machine.bodyResult closure f st).Mirrored V st.store L :=
      Machine.of_bodyResult trivial h.store.value fun v hv => by rwa [hv] at hf
    exact ⟨L, p, h, hresult, hk⟩

namespace Machine

theorem Rule.mirrored {limit : Nat} {task : Task goal} {step : Step goal}
    (hrule : Rule limit st task step) (h : st.AtSpot V L p)
    (htask : task.Mirrored U V st.store L p) : step.Mirrored U V := by
  have hopen : ({ st with calls := st.calls + 1 } : State).AtSpot V L p :=
    ⟨h.store, h.scope, h.stands⟩
  cases hrule with
  | halts outcome => exact ⟨L, h.store⟩
  | fails hfails => exact ⟨L, task.store_unwind st ▸ h.store⟩
  | failsBase name methods k hnone =>
    have hdefine := h.introduce (v := .nil) htask.1.2.1 trivial
    exact ⟨L, k.store_unwind (st.define name .nil) ▸ hdefine.store⟩
  | unfolds hunfolds => exact hunfolds.mirrored hU h htask
  | varDecl name k =>
    obtain ⟨⟨-, hname, -⟩, hk⟩ := htask
    exact ⟨L, _, h.introduce (v := .nil) hname trivial, trivial,
      hk.later (State.AtSpot.spreads_define L st name .nil)⟩
  | define v name k =>
    obtain ⟨hv, hname, hk⟩ := htask
    have hs := State.AtSpot.spreads_define L st name v
    exact ⟨L, _, h.define hname (hv.later hs), trivial, hk.later hs⟩
  | funDecl d k =>
    obtain ⟨⟨-, hname, hfunction⟩, hk⟩ := htask
    obtain ⟨hdefine, hs⟩ := h.defineFunction hname hfunction
    exact ⟨L, _, hdefine, trivial, hk.later hs⟩
  | subclass name reference methods k =>
    obtain ⟨⟨-, hname, hreference, hmethods⟩, hk⟩ := htask
    exact ⟨L, _, h.introduce (v := .nil) hname trivial, hreference.mono hU, hmethods,
      hk.later (State.AtSpot.spreads_define L st name .nil)⟩
  | base name methods k howner =>
    obtain ⟨⟨-, hname, hmethods⟩, hk⟩ := htask
    have hdefine := h.introduce (v := .nil) hname trivial
    have hsuper : ∀ c ∈ (none : Option Class), c.Mirrored V (st.define name .nil).store L := nofun
    exact hdefine.defineClass howner hsuper hmethods
      (hk.later (State.AtSpot.spreads_define L st name .nil))
  | derived c name reference methods k howner =>
    obtain ⟨hc, hmethods, hk⟩ := htask
    have hsuper : ∀ d ∈ some c, d.Mirrored V st.store L :=
      fun d hd => Option.mem_some.mp hd ▸ hc
    exact h.defineClass howner hsuper hmethods hk
  | assign v target k howner =>
    obtain ⟨hwrite, hs⟩ := h.write (v := v) (State.local?_of_owner? howner) htask.1
    exact ⟨L, p, hwrite, htask.1.later hs, htask.2.later hs⟩
  | setField v object name k =>
    have hs : st.store.Spreads L (st.store.setField object name.lexeme v) L := .of_scopes_eq rfl
    exact ⟨L, p, h.of_store (h.store.setField htask.1) hs, htask.1.later hs, htask.2.later hs⟩
  | inherited target method k hfound hm =>
    obtain ⟨scope, hheld⟩ := State.local?_of_inheritance hfound
    have hclass := h.store.value scope _ _ hheld
    obtain ⟨L', hbind, hbound, hs⟩ := h.bind (Class.Mirrored.method? hclass hm) _
    exact ⟨L', p, hbind, hbound, htask.2.later hs⟩
  | method object name k hm =>
    obtain ⟨c, hc, hmethod⟩ := Store.method?_of_property? hm
    obtain ⟨L', hbind, hbound, hs⟩ := h.bind ((h.store.cls object c hc).method? hmethod) object
    exact ⟨L', p, hbind, hbound, htask.2.later hs⟩
  | print v k => exact ⟨L, p, ⟨h.store, h.scope, h.stands⟩, trivial, htask.2⟩
  | block body k =>
    obtain ⟨⟨-, -, hbody⟩, hk⟩ := htask
    obtain ⟨L', henter, hs⟩ := h.enterBlock body
    exact ⟨L', _, henter, trivial, hbody, fun _ => ⟨p, h.scope, h.stands.later hs, hk.later hs⟩⟩
  | leaveScope f outer k =>
    obtain ⟨hf, q, hscope, hstands, hk⟩ := htask
    exact ⟨L, q, ⟨h.store, hscope, hstands⟩, hf, hk⟩
  | function closure arguments k hcalls harity hlt =>
    obtain ⟨hclosure, harguments, hk⟩ := htask.of_calls hcalls
    exact enterBody_mirrored (k := .endCall k) hopen hclosure harguments harity.symm hk
  | newInstance c k hcalls hlt hm =>
    obtain ⟨hc, -, hk⟩ := htask.of_calls hcalls
    obtain ⟨hnew, hs⟩ := hopen.newInstance hc
    exact ⟨L, p, hnew, trivial, hk.later hs⟩
  | initializer c m arguments k hcalls harity hlt hm =>
    obtain ⟨hc, harguments, hk⟩ := htask.of_calls hcalls
    obtain ⟨hnew, hs⟩ := hopen.newInstance hc
    obtain ⟨L', hbind, hbound, hs'⟩ := hnew.bind ((hc.method? hm).spread (fun _ => id) hs)
      (st.store.newInstance c).1
    have hall := hs.trans hs'
    exact enterBody_mirrored (k := .construct _ (.endCall k)) hbind hbound
      (fun v hv => (harguments v hv).later hall) harity.symm (hk.later hall)
  | endCall v k => exact ⟨L, p, ⟨h.store, h.scope, h.stands⟩, htask⟩

/-- A step of a machine that mirrors the walk leaves it so. -/
theorem step_mirrored (limit : Nat) {task : Task goal} (h : Mirrored U V task st) :
    (step limit task st).Mirrored U V := by
  obtain ⟨L, p, hspot, htask⟩ := h
  exact (step_rule limit task st).mirrored hU hspot htask

end Machine

end

end Lox
