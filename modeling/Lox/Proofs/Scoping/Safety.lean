import Lox.Proofs.Scoping.Sessions
import Mathlib

/-!
# Runs are safe

A program that passes all stages never comes to where the machine would find that
they have failed: a reference that was bound finds its name just where the table
says, `this` and `super` find what they stand for, and only a global may be
undefined when it is read.

## Implementation notes

Safety speaks of each moment of a run by itself. It follows from soundness, which
speaks of what is still to come.
-/

namespace Lox

/-! ## Finding names -/

/-- The variable whose initializer awaits an outcome. -/
def Cont.initializing? {goal y : Yield} : Cont goal y → Option Token
  | .define name _ => some name
  | .unary _ _ k | .binaryLeft _ _ _ k | .binaryRight _ _ _ k | .logical _ _ k | .assign _ k
  | .get _ k | .setObject _ _ k | .setValue _ _ k | .callee _ _ k | .argument _ _ _ _ k
  | .construct _ k | .endCall k => k.initializing?
  | .endBody _ k => k.initializing?
  | _ => none

section

variable {known : Known} {table : BindingTable} {goal : Yield} {st : State} {p : Place}

theorem Cont.Sound.pending_eq {y : Yield} {k : Cont goal y} {s : Store} (h : k.Sound known s p) :
    p.pending = k.initializing? ∧ ∀ t ∈ p.pending, t.IsName := by
  induction k generalizing p with
  | halt => exact ⟨h.2.2, by simp [h.2.2]⟩
  | unary _ _ _ ih | get _ _ ih | setValue _ _ _ ih | construct _ _ ih | endCall _ ih => exact ih h
  | binaryLeft _ _ _ _ ih | logical _ _ _ ih | setObject _ _ _ ih | callee _ _ _ ih
  | binaryRight _ _ _ _ ih => exact ih h.2
  | assign _ _ ih => exact ih h.2.2
  | argument _ _ _ _ _ ih => exact ih h.2.2.2
  | define name _ _ =>
      refine ⟨h.1, fun t ht => ?_⟩
      rw [h.1, Option.mem_def, Option.some.injEq] at ht
      exact ht ▸ h.2.1
  | endBody _ _ ih =>
      obtain ⟨-, context, hk⟩ := h
      exact ih (p := { p with context }) hk
  | _ => exact ⟨h.1, by simp [h.1]⟩

/-- A name of the language is always ready. -/
theorem State.At.find_keyword {y : Yield} {k : Cont goal y} {keyword : Keyword} {d : Nat}
    (h : st.At known table p) (hk : k.Sound known st.store p)
    (hd : p.names.depth? keyword.text = some d) :
    ∃ target v, st.store.ancestor? st.current d = some target ∧
      st.store.local? target keyword.text = some v := by
  obtain ⟨target, htarget, hlocal⟩ := h.stands.find hd
  rw [h.scope] at htarget
  have hready : (st.store.local? target keyword.text).isSome :=
    hlocal.mpr fun ⟨_, t, ht, hname⟩ => hk.pending_eq.2 t ht keyword hname
  obtain ⟨v, hv⟩ := Option.isSome_iff_exists.mp hready
  exact ⟨target, v, htarget, hv⟩

/-- A name that may be read is ready. -/
theorem State.At.find_readable {name : String} {d : Nat} (h : st.At known table p)
    (hready : ¬p.names.IsUnready name) (hd : p.names.depth? name = some d) :
    (st.store.getAt? st.current d name).isSome := by
  obtain ⟨target, htarget, hlocal⟩ := h.stands.find hd
  rw [h.scope] at htarget
  rw [Store.getAt?_of_ancestor? htarget, hlocal]
  rintro ⟨-, t, ht, rfl⟩
  cases hnames : p.names with
  | nil => rw [hnames] at hd; cases hd
  | cons names Γ =>
      have hhead : names ∈ p.names.head? := by rw [hnames]; rfl
      exact hready ⟨names, hhead, (h.stands.settled.head names hhead _).mpr ⟨t, ht, rfl⟩⟩

end

/-! ## Safety -/

/-- What holds at every moment of a run. -/
structure Machine.Safe (task : Task .flow) (st : State) : Prop where
  /-- A variable that is bound finds its value as far out as the table says. -/
  «variable» : ∀ target k d, task = .eval (.variable target) k →
    st.table.distance? target.id = some d →
    (st.store.getAt? st.current d target.name.lexeme).isSome
  /-- A receiver is bound, and finds an instance. -/
  receiver : ∀ target k, task = .eval (.receiver target) k →
    ∃ d object, st.table.distance? target.id = some d ∧
      st.store.getAt? st.current d target.name.lexeme = some (.object object)
  /-- An inherited method finds a class, and one scope further in an instance. -/
  inherited : ∀ target method k, task = .eval (.inherited target method) k →
    ∃ d c object, st.table.distance? target.id = some (d + 1) ∧
      st.store.getAt? st.current (d + 1) Keyword.super.text = some (.cls c) ∧
      st.store.getAt? st.current d Keyword.this.text = some (.object object)
  /-- What an operator before its operand does is what its token says. -/
  unary : ∀ op operator operand k, task = .eval (.unary op operator operand) k →
    UnaryOp.Operator operator.kind op
  /-- What an operator between its operands does is what its token says. -/
  binary : ∀ op operator left right k, task = .eval (.binary op operator left right) k →
    ∃ t : Tier, t.Operator operator.kind (.binary op)
  /-- A class without a superclass can be assigned to its name. -/
  baseClass : ∀ name methods k, task = .exec (.classDecl name none methods) k →
    (st.define name .nil).store.owner? st.current name.lexeme = some st.current
  /-- A class with a superclass can be assigned to its name. -/
  subclass : ∀ v name reference methods k, task = .value v (.superclass name reference methods k) →
    st.store.owner? st.current name.lexeme = some st.current
  /-- An initializer results in an instance. -/
  initializer : ∀ f closure k, task = .flow f (.endBody closure k) → closure.isInitializer →
    ∃ object, Machine.bodyResult closure f st = .object object
  /-- No `return` leaves the program. -/
  topLevel : ∀ f rest, task = .flow f .halt ∨ task = .flow f (.sequence rest .halt) → f = .normal
  /-- Only an unbound variable and an assignment can miss a name, which is never one
  that the language gives. -/
  undefined : ∀ limit name token st',
    Machine.step limit task st = .failed ⟨.undefinedVariable name, token⟩ st' →
    name = token.lexeme ∧ token.IsName ∧
      ((∃ target k, task = .eval (.variable target) k ∧ token = target.name ∧
          st.table.distance? target.id = none ∧ st.store.local? Store.globals name = none) ∨
        ∃ v target k, task = .value v (.assign target k) ∧ token = target.name)

/-! ### Reading -/

namespace State

variable {st : State} {target : Reference} {d : Nat}

theorem read_of_distance? (h : st.table.distance? target.id = some d) :
    st.read target = st.store.getAt? st.current d target.name.lexeme := by
  rw [read, owner?, h]
  rfl

/-- A global that cannot be read has no value. -/
theorem local?_of_read_eq_none (h : st.table.distance? target.id = none)
    (hread : st.read target = none) :
    st.store.local? Store.globals target.name.lexeme = none := by
  rw [read, owner?, h] at hread
  refine Store.local?_of_owner?_eq_none ?_
  cases howner : st.store.owner? Store.globals target.name.lexeme with
  | none => rfl
  | some scope =>
      have hlocal := Store.local?_of_owner? howner
      simp only [howner, Option.bind_some] at hread
      rw [hread] at hlocal
      cases hlocal

theorem inheritance_of_distance? {c : Class} {object : InstanceRef}
    (h : st.table.distance? target.id = some (d + 1))
    (hsuper : st.store.getAt? st.current (d + 1) Keyword.super.text = some (.cls c))
    (hthis : st.store.getAt? st.current d Keyword.this.text = some (.object object)) :
    st.inheritance target = .ok (c, object) := by
  rw [inheritance, h]
  simp only [hsuper, hthis]

end State

/-! ### Failures for other reasons -/

theorem UnaryOp.apply_ne_undefined {op : UnaryOp} {v : Value} {name : String} :
    op.apply v ≠ .error (.undefinedVariable name) := by
  cases op <;> cases v <;> simp [apply]

theorem onNumbers_ne_undefined {result : Float → Float → Value} {v w : Value} {name : String} :
    onNumbers result v w ≠ .error (.undefinedVariable name) := by
  unfold onNumbers
  split <;> simp

theorem BinaryOp.apply_ne_undefined {op : BinaryOp} {v w : Value} {name : String} :
    op.apply v w ≠ .error (.undefinedVariable name) := by
  cases op with
  | add =>
      rw [apply]
      unfold sum
      split <;> simp
  | equal | notEqual => simp [apply]
  | _ => exact onNumbers_ne_undefined

/-! ### Moments of a sound machine -/

namespace Machine

variable {known : Known} {task : Task .flow} {st : State} {p : Place}

/-- What a reference is known to be is what the table says. -/
theorem distance?_of_found {Γ : Scopes} {target : Reference}
    (hknown : ∀ id d, known id = some d → st.table.distance? id = d)
    (h : target.Found known Γ) : st.table.distance? target.id = Γ.depth? target.name.lexeme :=
  hknown _ _ h

theorem receiver_safe {target : Reference} {k : Cont .flow .value}
    (h : st.At known st.table p) (hknown : ∀ id d, known id = some d → st.table.distance? id = d)
    (he : (Expr.receiver target).Scoped known True p.names) (hk : k.Sound known st.store p) :
    ∃ d object, st.table.distance? target.id = some d ∧
      st.store.getAt? st.current d target.name.lexeme = some (.object object) := by
  obtain ⟨hfound, hname, hstrict⟩ := he
  obtain ⟨d, hd⟩ := hstrict trivial
  obtain ⟨scope, v, hscope, hv⟩ := h.find_keyword hk hd
  obtain ⟨object, rfl⟩ := h.store.receiver scope v hv
  refine ⟨d, object, ?_, ?_⟩
  · rw [distance?_of_found hknown hfound, hname, hd]
  · rw [hname, Store.getAt?_of_ancestor? hscope, hv]

theorem inherited_safe {target : Reference} {method : Token} {k : Cont .flow .value}
    (h : st.At known st.table p) (hknown : ∀ id d, known id = some d → st.table.distance? id = d)
    (he : (Expr.inherited target method).Scoped known True p.names)
    (hk : k.Sound known st.store p) :
    ∃ d c object, st.table.distance? target.id = some (d + 1) ∧
      st.store.getAt? st.current (d + 1) Keyword.super.text = some (.cls c) ∧
      st.store.getAt? st.current d Keyword.this.text = some (.object object) := by
  obtain ⟨hfound, hname, hstrict⟩ := he
  obtain ⟨d, hsuper, hthis⟩ := hstrict trivial
  obtain ⟨outer, w, houter, hw⟩ := h.find_keyword hk hsuper
  obtain ⟨inner, v, hinner, hv⟩ := h.find_keyword hk hthis
  obtain ⟨c, rfl⟩ := h.store.superclass outer w hw
  obtain ⟨object, rfl⟩ := h.store.receiver inner v hv
  refine ⟨d, c, object, ?_, ?_, ?_⟩
  · rw [distance?_of_found hknown hfound, hname, hsuper]
  · rw [Store.getAt?_of_ancestor? houter, hw]
  · rw [Store.getAt?_of_ancestor? hinner, hv]

theorem initializer_safe {f : Flow} {closure : Closure} {k : Cont .flow .value}
    (h : st.At known st.table p) (hk : (Cont.endBody closure k).Sound known st.store p)
    (hinit : closure.isInitializer) : ∃ object, bodyResult closure f st = .object object := by
  obtain ⟨v, hv⟩ := Option.isSome_iff_exists.mp (hk.1 hinit)
  obtain ⟨object, rfl⟩ := h.store.receiver closure.scope v hv
  exact ⟨object, by simp [bodyResult, hinit, hv]⟩

theorem variable_safe {target : Reference} {k : Cont .flow .value} (h : st.At known st.table p)
    (hknown : ∀ id d, known id = some d → st.table.distance? id = d)
    (htask : (Task.eval (.variable target) k).Sound known st.store p) {d : Nat}
    (hd : st.table.distance? target.id = some d) :
    (st.store.getAt? st.current d target.name.lexeme).isSome := by
  obtain ⟨⟨hfound, -, hready⟩, -⟩ := htask
  rw [distance?_of_found hknown hfound] at hd
  exact h.find_readable hready hd

theorem baseClass_safe (h : st.At known st.table p) (name : Token) :
    (st.define name .nil).store.owner? st.current name.lexeme = some st.current := by
  refine Store.owner?_of_local? ?_
  have hlt : st.current < st.store.scopes.size := h.scope ▸ h.lt_size
  rw [State.define, Store.local?_define_self hlt]
  rfl

theorem subclass_safe {name : Token} {reference : Reference} {methods : List FunctionDecl}
    {k : Cont .flow .flow} (h : st.At known st.table p)
    (hk : (Cont.superclass name reference methods k).Sound known st.store p) :
    st.store.owner? st.current name.lexeme = some st.current :=
  Store.owner?_of_local? (h.scope ▸ hk.2.2.1)

/-- A variable that cannot be read is not bound, and no global has its name. Receivers,
superclasses and classes that are declared are found. -/
theorem undefined_safe {limit : Nat} {name : String} {token : Token} (h : st.At known st.table p)
    (hknown : ∀ id d, known id = some d → st.table.distance? id = d)
    (htask : task.Sound known st.store p)
    (hfails : task.Fails limit st (.undefinedVariable name) token) :
    name = token.lexeme ∧ token.IsName ∧
      ((∃ target k, task = .eval (.variable target) k ∧ token = target.name ∧
          st.table.distance? target.id = none ∧ st.store.local? Store.globals name = none) ∨
        ∃ v target k, task = .value v (.assign target k) ∧ token = target.name) := by
  cases hfails with
  | «variable» target k hread =>
    have hdistance : st.table.distance? target.id = none := by
      cases hd : st.table.distance? target.id with
      | none => rfl
      | some d =>
        have hsome := variable_safe h hknown htask hd
        rw [← State.read_of_distance? hd, hread] at hsome
        cases hsome
    have hlocal := State.local?_of_read_eq_none hdistance hread
    exact ⟨rfl, htask.1.2.1, .inl ⟨target, k, rfl, rfl, hdistance, hlocal⟩⟩
  | receiver target k hread =>
    obtain ⟨d, object, hd, hfound⟩ := receiver_safe h hknown (by simpa using htask.1) htask.2
    rw [State.read_of_distance? hd, hfound] at hread
    cases hread
  | inherited target method k hnone =>
    obtain ⟨d, c, object, hd, hsuper, hthis⟩ :=
      inherited_safe h hknown (by simpa using htask.1) htask.2
    rw [State.inheritance_of_distance? hd hsuper hthis] at hnone
    cases hnone
  | unary k happly => exact (UnaryOp.apply_ne_undefined happly).elim
  | binary k happly => exact (BinaryOp.apply_ne_undefined happly).elim
  | assign v target k hnone => exact ⟨rfl, htask.2.2.1, .inr ⟨v, target, k, rfl, rfl⟩⟩
  | derived c name reference methods k hnone =>
    rw [subclass_safe h htask.2] at hnone
    cases hnone

/-- A sound machine is safe. -/
theorem Sound.safe (h : Sound known st.table task st)
    (hknown : ∀ id d, known id = some d → st.table.distance? id = d) : Safe task st := by
  obtain ⟨p, hplace, htask⟩ := h
  refine ⟨?_, ?_, ?_, ?_, ?_, ?_, ?_, ?_, ?_, ?_⟩
  · rintro target k d rfl hd
    exact variable_safe hplace hknown htask hd
  · rintro target k rfl
    exact receiver_safe hplace hknown (by simpa using htask.1) htask.2
  · rintro target method k rfl
    exact inherited_safe hplace hknown (by simpa using htask.1) htask.2
  · rintro op operator operand k rfl
    exact htask.1.1
  · rintro op operator left right k rfl
    exact htask.1.1
  · rintro name methods k rfl
    exact baseClass_safe hplace name
  · rintro v name reference methods k rfl
    exact subclass_safe hplace htask.2
  · rintro f closure k rfl hinit
    exact initializer_safe hplace htask.2.2 hinit
  · rintro f rest (rfl | rfl)
    · exact htask.2.1 htask.2.2.2.1
    · exact htask.2.1 (htask.2.2.2.2 []).2.1
  · intro limit name token st' hstep
    have hrule := step_rule limit task st
    rw [hstep] at hrule
    cases hrule with
    | fails hfails => exact undefined_safe hplace hknown htask hfails
    | failsBase _ methods k hnone =>
      rw [baseClass_safe hplace token] at hnone
      cases hnone

end Machine

namespace Session

/-- Every moment of every run in every session is safe. -/
theorem moments_are_safe {s : Session} {limit : Nat} {source : String} {task : Task .flow}
    {st : State} (h : Reachable s) (hm : s.Moment limit source task st) : Machine.Safe task st := by
  obtain ⟨known, hknown, hsound⟩ := h.sound_moment hm
  exact hsound.safe hknown

/-- A block prints its own variable, which is bound. -/
theorem moments_are_safe_block : ∃ target k st,
    Reachable fresh ∧ fresh.Moment 1 "\x7b var a; print a; \x7d" (.eval (.variable target) k) st ∧
      st.table.distance? target.id = some 0 ∧ Machine.Safe (.eval (.variable target) k) st := by
  obtain ⟨target, k, st, hm, hd⟩ : ∃ target k st,
      fresh.Moment 1 "\x7b var a; print a; \x7d" (.eval (.variable target) k) st ∧
        st.table.distance? target.id = some 0 :=
    ⟨_, _, _, ⟨_, _, _, ⟨⟨_, by cbv, by cbv⟩, rfl⟩, .of_stepFor (n := 6) rfl⟩, by decide⟩
  exact ⟨target, k, st, .fresh, hm, hd, moments_are_safe .fresh hm⟩

end Session

end Lox
