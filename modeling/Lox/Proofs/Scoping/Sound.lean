import Lox.Machine
import Lox.Proofs.Scoping.Stores

/-!
# Sound machines

The invariant of a running program. Every function in the store, and every piece
of program that a continuation still has to carry out, fits the scopes in which
it will run.

## Implementation notes

A continuation is sound at a `Place`. Most of it resumes at the place of its
outcome; where a block or a call ends, it resumes further out, at a place that
must still be as it was. An expression at the outside of a run that yields a
value was never bound, so only in runs that yield a flow is it `strict` about
`this` and `super`.
-/

namespace Lox

/-! ## Results of operators and of looking up -/

section

variable {P : Value → Prop} {v w x : Value}

/-- An operator results in a boolean or a number. -/
theorem UnaryOp.of_apply {op : UnaryOp} (h : op.apply v = .ok x) (hbool : ∀ b, P (.bool b))
    (hnumber : ∀ n, P (.number n)) : P x := by
  cases op with
  | not => exact Except.ok.inj h ▸ hbool _
  | negate => cases v <;> cases h; exact hnumber _

theorem BinaryOp.of_onNumbers {result : Float → Float → Value} (h : onNumbers result v w = .ok x)
    (hresult : ∀ a b, P (result a b)) : P x := by
  unfold onNumbers at h
  split at h
  · exact Except.ok.inj h ▸ hresult _ _
  · cases h

/-- An operator results in a boolean, a number or a text. -/
theorem BinaryOp.of_apply {op : BinaryOp} (h : op.apply v w = .ok x) (hbool : ∀ b, P (.bool b))
    (hnumber : ∀ n, P (.number n)) (htext : ∀ s, P (.string s)) : P x := by
  cases op with
  | add =>
      rw [apply] at h
      unfold sum at h
      split at h
      · exact Except.ok.inj h ▸ hnumber _
      · exact Except.ok.inj h ▸ htext _
      · cases h
  | equal | notEqual => exact Except.ok.inj h ▸ hbool _
  | subtract | multiply | divide => exact of_onNumbers h fun _ _ => hnumber _
  | _ => exact of_onNumbers h fun _ _ => hbool _

/-- A body results in nothing, in what it returns, or in the receiver that its scope holds. -/
theorem Machine.of_bodyResult {closure : Closure} {f : Flow} {st : State} (hnil : P .nil)
    (hheld : ∀ scope name v, st.store.local? scope name = some v → P v)
    (hreturned : ∀ v, f = .returned v → P v) : P (bodyResult closure f st) := by
  unfold bodyResult
  split
  · cases h : st.store.local? closure.scope Keyword.this.text with
    | none => exact hnil
    | some v => exact hheld _ _ v h
  · cases f with
    | normal => exact hnil
    | returned v => exact hreturned v rfl

end

/-- A value that is read comes from some scope. -/
theorem State.local?_of_read {st : State} {target : Reference} {v : Value}
    (h : st.read target = some v) :
    ∃ scope, st.store.local? scope target.name.lexeme = some v := by
  obtain ⟨scope, -, hv⟩ := Option.bind_eq_some_iff.mp h
  exact ⟨scope, hv⟩

/-- An inherited method comes from a class that some scope holds. -/
theorem State.local?_of_inheritance {st : State} {target : Reference} {c : Class} {receiver : InstanceRef}
    (h : st.inheritance target = .ok (c, receiver)) :
    ∃ scope, st.store.local? scope Keyword.super.text = some (.cls c) := by
  unfold inheritance at h
  split at h
  · cases h
  · split at h
    next found =>
      obtain ⟨scope, -, hv⟩ := Option.bind_eq_some_iff.mp found
      split at h
      · cases h
      · split at h
        · cases h
          exact ⟨scope, hv⟩
        · cases h
    next => cases h

/-! ## Values -/

section

variable (known : Known) (s : Store)

/-- Whether a function fits the scopes around it; an initializer is around a
receiver. -/
def Closure.Sound (c : Closure) : Prop :=
  ∃ Γ context, s.Models c.scope Γ ∧ Γ.Settled none ∧ c.decl.Scoped known Γ context ∧
    (c.isInitializer → (s.local? c.scope Keyword.this.text).isSome)

/-- Whether a method fits the scopes around it once it is bound to a receiver. -/
def Closure.SoundMethod (c : Closure) : Prop :=
  ∃ Γ context, s.Models c.scope Γ ∧ Γ.Settled none ∧
    c.decl.Scoped known (Γ.given .this) context

/-- Whether the methods of a class fit the scopes around them. -/
def Class.Sound : Class → Prop
  | ⟨_, _, none, methods⟩ => ∀ m ∈ methods, m.SoundMethod known s
  | ⟨_, _, some superclass, methods⟩ =>
      superclass.Sound ∧ ∀ m ∈ methods, m.SoundMethod known s

/-- Whether the functions that a value consists of fit the scopes around them. -/
def Value.Sound : Value → Prop
  | .function closure => closure.Sound known s
  | .cls c => c.Sound known s
  | _ => True

/-- Whether a value that is on its way out is sound. -/
def Flow.Sound : Flow → Prop
  | .normal => True
  | .returned v => v.Sound known s

/-- Whether everything in a store is sound, and names of the language have values
of the right kind. -/
structure Store.Sound : Prop where
  value : ∀ scope name v, s.local? scope name = some v → v.Sound known s
  receiver : ∀ scope v, s.local? scope Keyword.this.text = some v → ∃ o, v = .object o
  superclass : ∀ scope v, s.local? scope Keyword.super.text = some v → ∃ c, v = .cls c
  field : ∀ object name v, s.field? object name = some v → v.Sound known s
  cls : ∀ object c, s.class? object = some c → c.Sound known s

end

section

variable {known known' : Known} {s s' : Store} {bound : ScopeRef}

theorem Known.Grows.refl (known : Known) : known.Grows known :=
  fun _ _ h => h

theorem Closure.Sound.grow {c : Closure} (h : c.Sound known s) (hk : known.Grows known')
    (hs : Store.Grows bound s s') : c.Sound known' s' := by
  obtain ⟨Γ, context, hmodels, hsettled, hscoped, hthis⟩ := h
  exact ⟨Γ, context, hmodels.grow hs, hsettled, hscoped.mono hk,
    fun hinit => hs.keeps _ _ (hthis hinit)⟩

theorem Closure.SoundMethod.grow {c : Closure} (h : c.SoundMethod known s)
    (hk : known.Grows known') (hs : Store.Grows bound s s') : c.SoundMethod known' s' := by
  obtain ⟨Γ, context, hmodels, hsettled, hscoped⟩ := h
  exact ⟨Γ, context, hmodels.grow hs, hsettled, hscoped.mono hk⟩

theorem Class.Sound.grow (hk : known.Grows known') (hs : Store.Grows bound s s') :
    ∀ {c : Class}, c.Sound known s → c.Sound known' s'
  | ⟨_, _, none, _⟩, h => fun m hm => (h m hm).grow hk hs
  | ⟨_, _, some _, _⟩, h => ⟨Class.Sound.grow hk hs h.1, fun m hm => (h.2 m hm).grow hk hs⟩

theorem Value.Sound.grow {v : Value} (h : v.Sound known s) (hk : known.Grows known')
    (hs : Store.Grows bound s s') : v.Sound known' s' := by
  cases v with
  | function closure => exact Closure.Sound.grow h hk hs
  | cls c => exact Class.Sound.grow hk hs h
  | _ => trivial

/-- A store that is sound is still sound when more is known. -/
theorem Store.Sound.mono (h : s.Sound known) (hk : known.Grows known') : s.Sound known' where
  value scope name v hv := (h.value scope name v hv).grow hk (.refl 0)
  receiver := h.receiver
  superclass := h.superclass
  field object name v hv := (h.field object name v hv).grow hk (.refl 0)
  cls object c hc := (h.cls object c hc).grow hk (.refl 0)

/-- What is looked up in a sound class is a sound method. -/
theorem Class.Sound.method? {name : String} {m : Closure} :
    ∀ {c : Class}, c.Sound known s → c.method? name = some m → m.SoundMethod known s
  | ⟨_, _, none, methods⟩, h, hm => by
      rw [Class.method?] at hm
      exact h m (List.mem_reverse.mp (List.mem_of_find?_eq_some hm))
  | ⟨_, _, some superclass, methods⟩, h, hm => by
      rw [Class.method?] at hm
      split at hm
      next found =>
        obtain rfl := Option.some.inj hm
        exact h.2 _ (List.mem_reverse.mp (List.mem_of_find?_eq_some found))
      next => exact Class.Sound.method? h.1 hm

end

/-! ## Tasks -/

section

variable (known : Known) (s : Store) {goal : Yield}

/-- Whether a continuation fits the place at which it is resumed. -/
def Cont.Sound : {y : Yield} → Cont goal y → Place → Prop
  | _, .halt, p => p.scope = Store.globals ∧ p.context = .none ∧ p.pending = none
  | _, .unary _ _ k, p => k.Sound p
  | _, .binaryLeft _ _ right k, p => right.Scoped known (goal = .flow) p.names ∧ k.Sound p
  | _, .binaryRight _ _ left k, p => left.Sound known s ∧ k.Sound p
  | _, .logical _ right k, p => right.Scoped known (goal = .flow) p.names ∧ k.Sound p
  | _, .assign target k, p => target.Found known p.names ∧ target.name.IsName ∧ k.Sound p
  | _, .get _ k, p => k.Sound p
  | _, .setObject _ value k, p => value.Scoped known (goal = .flow) p.names ∧ k.Sound p
  | _, .setValue _ _ k, p => k.Sound p
  | _, .callee _ arguments k, p =>
      Expr.AreScoped known (goal = .flow) p.names arguments ∧ k.Sound p
  | _, .argument called _ done rest k, p =>
      called.Sound known s ∧ (∀ v ∈ done, v.Sound known s) ∧
        Expr.AreScoped known (goal = .flow) p.names rest ∧ k.Sound p
  | _, .construct _ k, p => k.Sound p
  | _, .endCall k, p => k.Sound p
  | _, .discard k, p => p.pending = none ∧ k.Sound p
  | _, .print k, p => p.pending = none ∧ k.Sound p
  | _, .define name k, p => p.pending = some name ∧ name.IsName ∧ k.Sound (p.define name)
  | _, .ret k, p => p.pending = none ∧ p.context ≠ .none ∧ k.Sound p
  | _, .branch yes no k, p =>
      p.pending = none ∧ (yes.Scoped known p.names p.context ∧ yes.IsPlain) ∧
        Stmt.ScopedOptional known p.names p.context no ∧ k.Sound p
  | _, .loopTest condition body k, p =>
      p.pending = none ∧ (Stmt.loop condition body).Scoped known p.names p.context ∧ k.Sound p
  | _, .superclass name _ methods k, p =>
      p.pending = none ∧ name.IsName ∧ (s.local? p.scope name.lexeme).isSome ∧
        FunctionDecl.AreScoped known ((p.names.given .super).given .this) methods ∧ k.Sound p
  | _, .sequence rest k, p =>
      p.pending = none ∧ Stmt.AreScoped known p.names p.context rest ∧
        ∀ Γ, k.Sound { p with names := Γ }
  | _, .leaveScope outer k, p =>
      p.pending = none ∧ outer < p.scope ∧
        ∃ q : Place, q.scope = outer ∧ q.context = p.context ∧ q.Stands s ∧ k.Sound q
  | _, .loopBody condition body k, p =>
      p.pending = none ∧ (Stmt.loop condition body).Scoped known p.names p.context ∧ k.Sound p
  | _, .endBody closure k, p =>
      (closure.isInitializer → (s.local? closure.scope Keyword.this.text).isSome) ∧
        ∃ context, k.Sound { p with context }

/-- Whether a task fits a place. -/
def Task.Sound : Task goal → Place → Prop
  | .eval e k, p => e.Scoped known (goal = .flow) p.names ∧ k.Sound known s p
  | .exec t k, p =>
      p.pending = none ∧ t.Scoped known p.names p.context ∧
        k.Sound known s { p with names := t.after p.names }
  | .value v k, p => v.Sound known s ∧ k.Sound known s p
  | .flow f k, p =>
      f.Sound known s ∧ (p.context = .none → f = .normal) ∧ k.Sound known s p

end

section

variable {known : Known} {s s' : Store} {bound : ScopeRef} {goal : Yield}

/-- A continuation stays sound while the store grows further in. -/
theorem Cont.Sound.grow {y : Yield} {k : Cont goal y} {p : Place} (h : k.Sound known s p)
    (hs : Store.Grows bound s s') (hp : p.scope ≤ bound) : k.Sound known s' p := by
  induction k generalizing p with
  | halt => exact h
  | unary _ _ _ ih | get _ _ ih | setValue _ _ _ ih | construct _ _ ih | endCall _ ih => exact ih h hp
  | binaryLeft _ _ _ _ ih | logical _ _ _ ih | setObject _ _ _ ih | callee _ _ _ ih
  | discard _ ih | print _ ih => exact ⟨h.1, ih h.2 hp⟩
  | binaryRight _ _ _ _ ih => exact ⟨h.1.grow (.refl known) hs, ih h.2 hp⟩
  | assign _ _ ih | define _ _ ih | ret _ ih | loopTest _ _ _ ih | loopBody _ _ _ ih =>
      exact ⟨h.1, h.2.1, ih h.2.2 hp⟩
  | argument _ _ _ _ _ ih =>
      obtain ⟨hcallee, hdone, hrest, h⟩ := h
      exact ⟨hcallee.grow (.refl known) hs, fun v hv => (hdone v hv).grow (.refl known) hs, hrest,
        ih h hp⟩
  | branch _ _ _ ih =>
      obtain ⟨hpending, hyes, hno, h⟩ := h
      exact ⟨hpending, hyes, hno, ih h hp⟩
  | superclass _ _ _ _ ih =>
      obtain ⟨hpending, hname, hheld, hmethods, h⟩ := h
      exact ⟨hpending, hname, hs.keeps _ _ hheld, hmethods, ih h hp⟩
  | sequence _ _ ih =>
      obtain ⟨hpending, hrest, h⟩ := h
      exact ⟨hpending, hrest, fun Γ => ih (h Γ) hp⟩
  | leaveScope outer _ ih =>
      obtain ⟨hpending, hlt, q, rfl, hcontext, hq, h⟩ := h
      have hbound : q.scope < bound := Nat.lt_of_lt_of_le hlt hp
      exact ⟨hpending, hlt, q, rfl, hcontext, hq.grow hs hbound, ih h (Nat.le_of_lt hbound)⟩
  | endBody _ _ ih =>
      obtain ⟨hthis, context, h⟩ := h
      exact ⟨fun hinit => hs.keeps _ _ (hthis hinit), context, ih h hp⟩

end

/-! ## Keeping a store sound -/

namespace Store

variable {known : Known} {s s' : Store} {scope target : ScopeRef} {name other : String}
  {v w : Value}

theorem of_local?_define (h : (s.define scope name v).local? target other = some w) :
    (scope = target ∧ name = other ∧ w = v) ∨ s.local? target other = some w := by
  by_cases heq : scope = target ∧ name = other
  · obtain ⟨rfl, rfl⟩ := heq
    have hlt : scope < (s.define scope name v).scopes.size := lt_of_local? (by rw [h]; rfl)
    rw [size_define] at hlt
    rw [local?_define_self hlt] at h
    exact .inl ⟨rfl, rfl, (Option.some.inj h).symm⟩
  · rw [local?_define_of_ne heq] at h
    exact .inr h

theorem local?_of_scopes_eq (h : s'.scopes = s.scopes) : s'.local? scope name = s.local? scope name := by
  unfold local?
  rw [h]

theorem field?_of_instances_eq (h : s'.instances = s.instances) (object : InstanceRef) :
    s'.field? object name = s.field? object name := by
  unfold field?
  rw [h]

theorem class?_of_instances_eq (h : s'.instances = s.instances) (object : InstanceRef) :
    s'.class? object = s.class? object := by
  unfold class?
  rw [h]

theorem of_field?_newInstance {c : Class} {object : InstanceRef}
    (h : (s.newInstance c).2.field? object name = some v) : s.field? object name = some v := by
  simp only [field?, newInstance, Array.getElem?_push] at h
  split at h
  · cases h
  · exact h

theorem of_class?_newInstance {c d : Class} {object : InstanceRef}
    (h : (s.newInstance c).2.class? object = some d) : d = c ∨ s.class? object = some d := by
  simp only [class?, newInstance, Array.getElem?_push] at h
  split at h
  · exact .inl (Option.some.inj h).symm
  · exact .inr h

theorem of_field?_setField {object other : InstanceRef} {field : String}
    (h : (s.setField object name v).field? other field = some w) :
    w = v ∨ s.field? other field = some w := by
  simp only [field?, setField, Array.getElem?_modify] at h
  split at h
  next heq =>
    subst heq
    obtain ⟨i, hi, h⟩ := Option.bind_eq_some_iff.mp h
    obtain ⟨j, hj, rfl⟩ := Option.map_eq_some_iff.mp hi
    rw [NameMap.get?_insert] at h
    split at h
    · exact .inl (Option.some.inj h).symm
    · exact .inr (Option.bind_eq_some_iff.mpr ⟨j, hj, h⟩)
  next => exact .inr h

theorem class?_setField {object other : InstanceRef} :
    (s.setField object name v).class? other = s.class? other := by
  simp only [class?, setField, Array.getElem?_modify]
  split
  next heq =>
    subst heq
    rw [Option.map_map]
    rfl
  next => rfl

theorem field?_of_property? {object : InstanceRef} (h : s.property? object name = some (.field v)) :
    s.field? object name = some v := by
  unfold property? at h
  split at h
  next hfield =>
    cases h
    exact hfield
  next =>
    obtain ⟨m, -, hm⟩ := Option.map_eq_some_iff.mp h
    cases hm

theorem method?_of_property? {object : InstanceRef} {m : Closure}
    (h : s.property? object name = some (.method m)) :
    ∃ c, s.class? object = some c ∧ c.method? name = some m := by
  unfold property? at h
  split at h
  · cases h
  · obtain ⟨m', hm, heq⟩ := Option.map_eq_some_iff.mp h
    cases heq
    exact Option.bind_eq_some_iff.mp hm

namespace Sound

variable {bound : ScopeRef}

/-- Identities do not matter. -/
theorem of_eq (h : s.Sound known) (hscopes : s'.scopes = s.scopes)
    (hinstances : s'.instances = s.instances) : s'.Sound known := by
  have hs : Grows 0 s s' := .of_scopes_eq hscopes
  refine ⟨fun scope name v hv => ?_, fun scope v hv => ?_, fun scope v hv => ?_,
    fun object name v hv => ?_, fun object c hc => ?_⟩
  · rw [local?_of_scopes_eq hscopes] at hv
    exact (h.value scope name v hv).grow (.refl known) hs
  · rw [local?_of_scopes_eq hscopes] at hv
    exact h.receiver scope v hv
  · rw [local?_of_scopes_eq hscopes] at hv
    exact h.superclass scope v hv
  · rw [field?_of_instances_eq hinstances] at hv
    exact (h.field object name v hv).grow (.refl known) hs
  · rw [class?_of_instances_eq hinstances] at hc
    exact (h.cls object c hc).grow (.refl known) hs

theorem define {name : Token} (h : s.Sound known) (hname : name.IsName)
    (hv : v.Sound known (s.define scope name.lexeme v)) :
    (s.define scope name.lexeme v).Sound known := by
  have hs : Grows scope s (s.define scope name.lexeme v) := .define
  refine ⟨fun target other w hw => ?_, fun target w hw => ?_, fun target w hw => ?_,
    fun object other w hw => (h.field object other w hw).grow (.refl known) hs,
    fun object c hc => (h.cls object c hc).grow (.refl known) hs⟩
  · obtain ⟨-, -, rfl⟩ | hw := of_local?_define hw
    · exact hv
    · exact (h.value target other w hw).grow (.refl known) hs
  · obtain ⟨-, heq, -⟩ | hw := of_local?_define hw
    · exact absurd heq (hname .this)
    · exact h.receiver target w hw
  · obtain ⟨-, heq, -⟩ | hw := of_local?_define hw
    · exact absurd heq (hname .super)
    · exact h.superclass target w hw

theorem newScope (h : s.Sound known) (bindings : NameMap Value) (enclosing : Option ScopeRef)
    (hvalue : ∀ name v, bindings.get? name = some v →
      v.Sound known (s.newScope bindings enclosing).2)
    (hthis : ∀ v, bindings.get? Keyword.this.text = some v → ∃ o, v = .object o)
    (hsuper : ∀ v, bindings.get? Keyword.super.text = some v → ∃ c, v = .cls c) :
    (s.newScope bindings enclosing).2.Sound known := by
  have hs : Grows s.scopes.size s (s.newScope bindings enclosing).2 := .newScope
  refine ⟨fun target other w hw => ?_, fun target w hw => ?_, fun target w hw => ?_,
    fun object other w hw => (h.field object other w hw).grow (.refl known) hs,
    fun object c hc => (h.cls object c hc).grow (.refl known) hs⟩ <;>
    rw [local?_newScope] at hw <;> split at hw
  · exact hvalue other w hw
  · exact (h.value target other w hw).grow (.refl known) hs
  · exact hthis w hw
  · exact h.receiver target w hw
  · exact hsuper w hw
  · exact h.superclass target w hw

theorem newInstance {c : Class} (h : s.Sound known) (hc : c.Sound known s) :
    (s.newInstance c).2.Sound known := by
  have hs : Grows 0 s (s.newInstance c).2 := .of_scopes_eq rfl
  refine ⟨fun scope name v hv => (h.value scope name v hv).grow (.refl known) hs, h.receiver,
    h.superclass, fun object name v hv =>
      (h.field object name v (of_field?_newInstance hv)).grow (.refl known) hs,
    fun object d hd => ?_⟩
  obtain rfl | hd := of_class?_newInstance hd
  · exact hc.grow (.refl known) hs
  · exact (h.cls object d hd).grow (.refl known) hs

theorem setField {object : InstanceRef} (h : s.Sound known) (hv : v.Sound known s) :
    (s.setField object name v).Sound known := by
  have hs : Grows 0 s (s.setField object name v) := .of_scopes_eq rfl
  refine ⟨fun scope name v hv => (h.value scope name v hv).grow (.refl known) hs, h.receiver,
    h.superclass, fun other field w hw => ?_, fun other d hd => ?_⟩
  · obtain rfl | hw := of_field?_setField hw
    · exact hv.grow (.refl known) hs
    · exact (h.field other field w hw).grow (.refl known) hs
  · rw [class?_setField] at hd
    exact (h.cls other d hd).grow (.refl known) hs

/-- Binding a sound method makes a sound function. -/
theorem bindMethod {m : Closure} (h : s.Sound known) (hm : m.SoundMethod known s)
    (object : InstanceRef) :
    (s.bindMethod m object).1.Sound known (s.bindMethod m object).2 ∧
      (s.bindMethod m object).2.Sound known ∧ Grows s.scopes.size s (s.bindMethod m object).2 := by
  have hs : Grows s.scopes.size s (s.bindMethod m object).2 :=
    Grows.newScope.trans (.of_scopes_eq rfl)
  obtain ⟨Γ, context, hmodels, hsettled, hscoped⟩ := hm
  refine ⟨⟨Γ.given .this, context, ?_, hsettled.given .this, hscoped, fun _ => ?_⟩, ?_, hs⟩
  · have hnone : Grows 0 (s.newScope (NameMap.empty.insert Keyword.this.text (.object object))
        (some m.scope)).2 (s.bindMethod m object).2 := .of_scopes_eq rfl
    exact (hmodels.given .this (.object object)).grow hnone
  · change ((s.newScope _ _).2.local? s.scopes.size Keyword.this.text).isSome
    rw [local?_newScope, if_pos rfl, NameMap.get?_insert_self]
    rfl
  · refine Sound.of_eq (h.newScope _ _ (fun name v hv => ?_) (fun v hv => ?_) fun v hv => ?_) rfl rfl
    · obtain ⟨-, rfl⟩ := NameMap.get?_single_iff.mp hv
      trivial
    · exact ⟨object, (NameMap.get?_single_iff.mp hv).2.symm⟩
    · exact absurd (NameMap.get?_single_iff.mp hv).1 (by decide)

end Sound

end Store

end Lox
