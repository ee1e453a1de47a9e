import Lox.Proofs.History.Events

/-!
# Identities of functions and classes

Each function and class that comes into being takes the next identities, and nothing
else does. So there is one value of an identity only, and whoever holds it, at whatever
time, holds the same one: functions and classes never change.

## Implementation notes

A class takes identities for its methods as well. They are closures of their own, which
are values only once they are bound.
-/

namespace Lox

/-! ## Changes of a phase -/

namespace Phase

/-- Whether a phase gives a value to a name of a scope in its next step. -/
def Sets : Phase → ScopeRef → String → Prop
  | idle _, _, _ => False
  | running task st _, scope, name => task.Sets st scope name

/-- Whether a phase declares a name in its next step, with a scope as the current one. -/
def Declares : Phase → ScopeRef → String → Prop
  | idle _, _, _ => False
  | running task st _, scope, name =>
      scope = st.current ∧ ∃ t ∈ task.declares?, t.lexeme = name

/-- Whether a name may be in a scope that is made from one phase to the next: a receiver
that a method is bound to, a superclass, or a parameter. -/
def Opens (a : Phase) : Phase → ScopeRef → String → Prop
  | idle _, _, _ => False
  | running task st nextId, scope, name =>
      task.Opens (a.event? (running task st nextId)) scope name

variable {a b : Phase}

theorem Sound.current_lt (h : a.Sound) : a.state.current < a.state.store.scopes.size := by
  cases a with
  | idle s =>
    have hs : s.Sound := h
    have hscope := hs.state.scope
    exact hscope ▸ hs.state.size
  | running task st nextId =>
    obtain ⟨-, p, hplace, -⟩ := h
    exact hplace.scope ▸ hplace.lt_size

/-- What changes from one phase to the next. -/
theorem Next.changes (h : a.Next b) (ha : a.Sound) :
    a.state.store.Changes a.Sets (a.Opens b) b.state.store := by
  have hchanges {goal : Yield} {task : Task goal} {st : State} {limit : Nat} {step : Step goal}
      (hstep : Machine.step limit task st = step) (hlt : st.current < st.store.scopes.size) :
      step.Changes (task.Sets st) (task.event? st) st.store :=
    hstep ▸ Machine.step_changes limit task hlt
  cases h with
  | step hstep => exact hchanges hstep ha.current_lt
  | done hstep => exact hchanges hstep ha.current_lt
  | failed hstep => exact hchanges hstep ha.current_lt
  | _ => exact .refl _

end Phase

/-! ## Identities -/

/-- The identities that are given out when something comes into being. -/
def Event.identities : Event → List Nat
  | .declared f => [f.identity]
  | .founded _ c => c.methods.map Closure.identity ++ [c.identity]
  | .bound _ _ f => [f.identity]

/-- A class and its methods take the next identities. -/
theorem State.ClassMade.all_identities {st : State} {superclass : Option Class}
    {methods : List FunctionDecl} {c : Class} {s' : Store}
    (h : st.ClassMade superclass methods c s') :
    c.methods.map Closure.identity ++ [c.identity] =
        List.range' st.store.nextIdentity (methods.length + 1) ∧
      s'.nextIdentity = st.store.nextIdentity + (methods.length + 1) := by
  refine ⟨?_, ?_⟩
  · rw [h.identities, h.identity, List.range'_concat, Nat.one_mul]
  · rw [h.nextIdentity, h.identity, Nat.add_assoc]

/-- What comes into being takes the next identities. -/
theorem Event.Arises.identities {goal : Yield} {task : Task goal} {st : State} {event : Event}
    {s' : Store} (h : event.Arises task st s') :
    ∃ n, event.identities = List.range' st.store.nextIdentity n ∧
      s'.nextIdentity = st.store.nextIdentity + n := by
  cases h with
  | declared | inherited | got | constructed => exact ⟨1, rfl, rfl⟩
  | @founded name methods =>
    exact ⟨_, ((st.define name .nil).newClass_made name none methods).all_identities⟩
  | @derived c name reference methods =>
    exact ⟨_, (st.newClass_made name (some c) methods).all_identities⟩

/-- Whether events give out identities below a bound, and none of them twice. -/
structure Event.AreDistinct (events : List Event) (bound : Nat) : Prop where
  lt : ∀ event ∈ events, ∀ i ∈ event.identities, i < bound
  unique : ∀ event ∈ events, ∀ other ∈ events, ∀ i ∈ event.identities, i ∈ other.identities →
    event = other

/-- What comes into being with the next identities has none that was given out before. -/
theorem Event.AreDistinct.append {events : List Event} {made : Option Event} {bound bound' : Nat}
    (h : AreDistinct events bound) (hle : bound ≤ bound')
    (hmade : ∀ event ∈ made, ∃ n, event.identities = List.range' bound n ∧ bound' = bound + n) :
    AreDistinct (made.toList ++ events) bound' := by
  have hrange {event : Event} (hevent : event ∈ made) {i : Nat} (hi : i ∈ event.identities) :
      bound ≤ i ∧ i < bound' := by
    obtain ⟨n, hrange, rfl⟩ := hmade event hevent
    rwa [hrange, List.mem_range'_1] at hi
  have hnew {event other : Event} (hevent : event ∈ made) (hother : other ∈ events) {i : Nat}
      (hi : i ∈ event.identities) : i ∉ other.identities := fun hi' =>
    absurd (h.lt other hother i hi') (Nat.not_lt_of_le (hrange hevent hi).1)
  constructor
  · intro event hevent i hi
    rcases List.mem_append.mp hevent with hevent | hevent
    · exact (hrange (Option.mem_toList.mp hevent) hi).2
    · exact Nat.lt_of_lt_of_le (h.lt event hevent i hi) hle
  · intro event hevent other hother i hi hi'
    rcases List.mem_append.mp hevent with hevent | hevent <;>
      rcases List.mem_append.mp hother with hother | hother
    · rw [Option.mem_toList] at hevent hother
      exact Option.mem_unique hevent hother
    · exact absurd hi' (hnew (Option.mem_toList.mp hevent) hother hi)
    · exact absurd hi (hnew (Option.mem_toList.mp hother) hevent hi')
    · exact h.unique event hevent other hother i hi hi'

/-- Whether a value is of no function and class, or of one that has come into being. -/
def Holding.IsRecorded (events : List Event) : Holding → Prop
  | .value v => v.IsPlain ∨ ∃ event ∈ events, event.value = v
  | .code _ _ => True

theorem Holding.carries_isRecorded {events : List Event} {s : Store} :
    Holding.Carries (IsRecorded events) s :=
  ⟨fun _ hv => .inl hv, fun _ _ _ _ _ => trivial, fun _ _ _ _ _ _ _ _ => trivial,
    fun _ _ _ _ _ _ _ => trivial⟩

theorem Holding.IsRecorded.mono {events events' : List Event} {x : Holding}
    (h : x.IsRecorded events) (hevents : events ⊆ events') : x.IsRecorded events' := by
  cases x with
  | code scope node => trivial
  | value v =>
    exact h.imp_right fun ⟨event, hevent, hv⟩ => ⟨event, hevents hevent, hv⟩

namespace Phase.Lived

variable {a : Phase} {events : List Event}

/-- Identities are given out in order, and none of them twice. -/
theorem distinct (h : Lived events a) : Event.AreDistinct events a.state.store.nextIdentity := by
  induction h with
  | fresh => exact ⟨by simp, by simp⟩
  | next h hnext ih =>
    refine ih.append (hnext.changes h.reachable.sound).identity fun event hevent => ?_
    obtain ⟨goal, task, st, nextId, rfl, harises⟩ := hnext.arises hevent
    exact harises.identities

theorem identity_lt (h : Lived events a) :
    ∀ event ∈ events, ∀ i ∈ event.identities, i < a.state.store.nextIdentity :=
  h.distinct.lt

/-- No two events give out the same identity. -/
theorem eq_of_identity (h : Lived events a) :
    ∀ event ∈ events, ∀ other ∈ events, ∀ i ∈ event.identities, i ∈ other.identities →
      event = other :=
  h.distinct.unique

/-- Whatever function or class is held has come into being. -/
theorem isRecorded (h : Lived events a) : a.All (Holding.IsRecorded events) := by
  induction h with
  | fresh => exact ⟨Store.all_initial _, by simp [Phase.holdings]⟩
  | @next events a b h hnext ih =>
    have hold : a.All (Holding.IsRecorded ((a.event? b).toList ++ events)) :=
      ih.mono fun _ hx => hx.mono (List.subset_append_right _ _)
    refine hnext.all hold Holding.carries_isRecorded (fun event hevent => ?_) fun _ _ => trivial
    exact .inr ⟨event, List.mem_append_left _ (Option.mem_toList.mpr hevent), rfl⟩

/-- A superclass has come into being before. -/
theorem superclass (h : Lived events a) : ∀ statement c, .founded statement c ∈ events →
    ∀ d ∈ c.superclass, (∃ other, .founded other d ∈ events) ∧ d.identity < c.identity := by
  induction h with
  | fresh => simp
  | @next events a b h hnext ih =>
    intro statement c hc d hd
    rcases List.mem_append.mp hc with hnew | hold
    · obtain ⟨goal, task, st, nextId, rfl, harises⟩ := hnext.arises (Option.mem_toList.mp hnew)
      generalize b.state.store = s' at harises
      cases harises with
      | @founded name methods =>
        have hmade := (st.define name .nil).newClass_made name none methods
        rw [hmade.parent] at hd
        cases hd
      | @derived e name reference methods k scope htask =>
        have hmade := st.newClass_made name (some e) methods
        rw [hmade.parent] at hd
        obtain rfl := Option.mem_some.mp hd
        have hholding : Holding.value (.cls e) ∈ (Phase.running task st nextId).holdings := by
          rw [htask]
          exact List.mem_cons_self
        obtain hplain | ⟨event, hevent, hvalue⟩ := h.isRecorded.holdings _ hholding
        · cases hplain
        · cases event with
          | founded other f =>
            cases hvalue
            have hlt := h.identity_lt _ hevent e.identity
              (List.mem_append_right _ (List.mem_singleton_self _))
            exact ⟨⟨other, List.mem_append_right _ hevent⟩,
              Nat.lt_of_lt_of_le hlt (hmade.identity ▸ Nat.le_add_right _ _)⟩
          | declared f => cases hvalue
          | bound m object f => cases hvalue
    · obtain ⟨⟨other, hother⟩, hlt⟩ := ih statement c hold d hd
      exact ⟨⟨other, List.mem_append_right _ hother⟩, hlt⟩

/-- What came into being before a phase did so before any later one. -/
theorem extend (h : Lived events a) {b : Phase} (hleads : a.Leads b) :
    ∃ later, Lived (later ++ events) b := by
  induction hleads with
  | refl => exact ⟨[], h⟩
  | @tail b c _ hnext ih =>
    obtain ⟨later, h⟩ := ih
    refine ⟨(b.event? c).toList ++ later, ?_⟩
    rw [List.append_assoc]
    exact .next h hnext

end Phase.Lived

/-! ## Values that are held -/

/-- The identity of a function or class. -/
def Value.identity? : Value → Option Nat
  | function f => some f.identity
  | cls c => some c.identity
  | _ => none

/-- What has come into being has one of the identities that were given out. -/
theorem Event.identity_mem (event : Event) :
    ∀ i ∈ event.value.identity?, i ∈ event.identities := by
  intro i hi
  cases event with
  | declared f | bound _ _ f => exact List.mem_singleton.mpr (Option.some.inj hi).symm
  | founded _ c => exact List.mem_append_right _ (List.mem_singleton.mpr (Option.some.inj hi).symm)

namespace Phase

/-- Whether a phase holds a value: in its store, in its task, or as the superclass of a
class that it holds. -/
inductive Holds (a : Phase) : Value → Prop
  | stored {scope : ScopeRef} {name : String} {v : Value}
      (h : a.state.store.local? scope name = some v) : a.Holds v
  | field {object : InstanceRef} {name : String} {v : Value}
      (h : a.state.store.field? object name = some v) : a.Holds v
  | instance {object : InstanceRef} {c : Class} (h : a.state.store.class? object = some c) :
      a.Holds (.cls c)
  | holding {v : Value} (h : .value v ∈ a.holdings) : a.Holds v
  | superclass {c d : Class} (h : a.Holds (.cls c)) (hd : c.superclass = some d) :
      a.Holds (.cls d)

variable {a b : Phase} {events : List Event} {v w : Value}

theorem Holds.recorded (h : a.Holds v) (hlived : Lived events a) :
    v.IsPlain ∨ ∃ event ∈ events, event.value = v := by
  have hall := hlived.isRecorded
  induction h with
  | stored h => exact hall.store.value _ _ _ h
  | field h => exact hall.store.field _ _ _ h
  | «instance» h => exact hall.store.cls _ _ h
  | holding h => exact hall.holdings _ h
  | @superclass c d _ hd ih =>
    obtain hplain | ⟨event, hevent, hvalue⟩ := ih
    · cases hplain
    · cases event with
      | founded statement e =>
        cases hvalue
        obtain ⟨⟨other, hother⟩, -⟩ := hlived.superclass _ _ hevent d hd
        exact .inr ⟨_, hother, rfl⟩
      | declared f => cases hvalue
      | bound m object f => cases hvalue

/-- There is only one function or class of an identity at all times. -/
theorem Holds.eq_of_identity? (hv : a.Holds v) (ha : a.Reachable) (hleads : a.Leads b)
    (hw : b.Holds w) {i : Nat} (hi : v.identity? = some i) (hi' : w.identity? = some i) : v = w := by
  obtain ⟨events, ha⟩ := ha.lived
  obtain ⟨later, hb⟩ := ha.extend hleads
  have hmade {a : Phase} {events : List Event} {v : Value} (hv : a.Holds v)
      (ha : Lived events a) (hi : v.identity? = some i) :
      ∃ event ∈ events, event.value = v ∧ i ∈ event.identities := by
    obtain hplain | ⟨event, hevent, rfl⟩ := hv.recorded ha
    · cases v <;> first | exact hplain.elim | cases hi
    · exact ⟨event, hevent, rfl, event.identity_mem i hi⟩
  obtain ⟨event, hevent, rfl, hmem⟩ := hmade hv ha hi
  obtain ⟨other, hother, rfl, hmem'⟩ := hmade hw hb hi'
  rw [hb.eq_of_identity event (List.mem_append_right _ hevent) other hother i hmem hmem']

end Phase

end Lox
