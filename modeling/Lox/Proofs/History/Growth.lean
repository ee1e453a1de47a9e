import Lox.Proofs.History.Paths
import Mathlib

/-!
# The store only grows and stays well-founded

From one phase of a session to the next, scopes keep their links and names, and
instances their classes and fields. A scope gains a name only where it is declared, and
what a new scope holds is given by the language or by parameters. Whatever scope is in
use, and whatever class, the walks outwards and upwards come to an end.

## Implementation notes

Scopes are in use that the machine is in or will go back to, and those of functions that
are held; a scope that is in use keeps those around it in use.
-/

namespace Lox

/-! ## Scopes in use -/

/-- The scopes that a continuation goes back to. -/
def Cont.saved {goal y : Yield} : Cont goal y → List ScopeRef
  | .halt => []
  | .unary _ _ k | .binaryLeft _ _ _ k | .binaryRight _ _ _ k | .logical _ _ k | .assign _ k
  | .get _ k | .setObject _ _ k | .setValue _ _ k | .callee _ _ k | .argument _ _ _ _ k
  | .construct _ k | .endCall k => k.saved
  | .discard k | .print k | .define _ k | .ret k | .branch _ _ k | .loopTest _ _ k
  | .superclass _ _ _ k => k.saved
  | .sequence _ k | .loopBody _ _ k => k.saved
  | .leaveScope outer k => outer :: k.saved
  | .endBody _ k => k.saved

/-- The scopes that a task goes back to. -/
def Task.saved {goal : Yield} : Task goal → List ScopeRef
  | .eval _ k | .value _ k => k.saved
  | .exec _ k | .flow _ k => k.saved

/-- A sound continuation goes back to scopes that are as they were seen. -/
theorem Cont.Sound.models_saved {known : Known} {s : Store} {goal y : Yield} {k : Cont goal y}
    {p : Place} (h : k.Sound known s p) : ∀ scope ∈ k.saved, ∃ Γ, s.Models scope Γ := by
  induction k generalizing p with
  | halt => simp [saved]
  | unary _ _ _ ih | get _ _ ih | setValue _ _ _ ih | construct _ _ ih | endCall _ ih => exact ih h
  | binaryLeft _ _ _ _ ih | logical _ _ _ ih | setObject _ _ _ ih | callee _ _ _ ih
  | discard _ ih | print _ ih | binaryRight _ _ _ _ ih => exact ih h.2
  | assign _ _ ih | define _ _ ih | ret _ ih | loopTest _ _ _ ih | loopBody _ _ _ ih => exact ih h.2.2
  | argument _ _ _ _ _ ih | branch _ _ _ ih => exact ih h.2.2.2
  | superclass _ _ _ _ ih => exact ih h.2.2.2.2
  | sequence _ _ ih => exact ih (h.2.2 p.names)
  | leaveScope outer _ ih =>
    obtain ⟨-, -, q, rfl, -, hstands, hk⟩ := h
    exact List.forall_mem_cons.mpr ⟨⟨q.names, hstands.models⟩, ih hk⟩
  | endBody _ _ ih =>
    obtain ⟨-, context, hk⟩ := h
    exact ih hk

namespace Phase

/-- The scopes that a phase goes back to. -/
def saved : Phase → List ScopeRef
  | idle _ => []
  | running task _ _ => task.saved

/-- Whether a scope is in use. -/
inductive Uses (a : Phase) : ScopeRef → Prop
  | current : a.Uses a.state.current
  | saved {scope : ScopeRef} (h : scope ∈ a.saved) : a.Uses scope
  | function {f : Closure} (h : a.Holds (.function f)) : a.Uses f.scope
  | method {c : Class} {m : Closure} (h : a.Holds (.cls c)) (hm : m ∈ c.methods) : a.Uses m.scope
  | out {scope outer : ScopeRef} (h : a.Uses scope)
      (houter : a.state.store.enclosing? scope = some outer) : a.Uses outer

variable {a b : Phase}

theorem Sound.models {scope : ScopeRef} (h : a.Sound)
    (hscope : scope = a.state.current ∨ scope ∈ a.saved) : ∃ Γ, a.state.store.Models scope Γ := by
  cases a with
  | idle s =>
    have hs : s.Sound := h
    rcases hscope with rfl | hscope
    · exact ⟨[], hs.state.scope, h.current_lt⟩
    · cases hscope
  | running task st nextId =>
    obtain ⟨-, p, hplace, htask⟩ := h
    rcases hscope with rfl | hscope
    · exact ⟨p.names, hplace.scope ▸ hplace.stands.models⟩
    · cases task with
      | eval e k => exact htask.2.models_saved scope hscope
      | exec t k => exact htask.2.2.models_saved scope hscope
      | value v k => exact htask.2.models_saved scope hscope
      | flow f k => exact htask.2.2.models_saved scope hscope

theorem Holds.isRooted {v : Value} (h : a.Holds v) (ha : a.Reachable) :
    (Holding.value v).IsRooted a.state.store := by
  have hall := ha.isRooted.2
  induction h with
  | stored h => exact hall.store.value _ _ _ h
  | field h => exact hall.store.field _ _ _ h
  | «instance» h => exact hall.store.cls _ _ h
  | holding h => exact hall.holdings _ h
  | @superclass c d _ hd ih =>
    intro e he
    exact ih e (by rw [Class.chain_of_some hd]; exact List.mem_cons_of_mem c he)

/-- From each scope in use there is a way to the globals. -/
theorem Uses.rooted {scope : ScopeRef} (h : a.Uses scope) (ha : a.Reachable) :
    a.state.store.Rooted scope := by
  induction h with
  | current =>
    obtain ⟨Γ, hmodels⟩ := ha.sound.models (.inl rfl)
    exact hmodels.exists_path ha.isRooted.1
  | saved h =>
    obtain ⟨Γ, hmodels⟩ := ha.sound.models (.inr h)
    exact hmodels.exists_path ha.isRooted.1
  | function h => exact h.isRooted ha
  | @method c m h hm => exact h.isRooted ha c c.mem_chain_self m hm
  | @out scope outer _ houter ih =>
    obtain ⟨path, hpath⟩ := ih
    cases hpath with
    | globals hnone _ => rw [hnone] at houter; cases houter
    | out hsome hpath =>
      rw [hsome] at houter
      exact ⟨_, Option.some.inj houter ▸ hpath⟩

/-- The classes above a class that is held were made before it, each before the one
below. -/
theorem Holds.pairwise_chain {c : Class} (h : a.Holds (.cls c)) (ha : a.Reachable) :
    c.chain.Pairwise fun d e => e.identity < d.identity := by
  obtain ⟨events, hlived⟩ := ha.lived
  have hfounded {c : Class} (h : a.Holds (.cls c)) : ∃ statement, .founded statement c ∈ events := by
    obtain hplain | ⟨event, hevent, hvalue⟩ := h.recorded hlived
    · cases hplain
    · cases event with
      | founded statement e => cases hvalue; exact ⟨statement, hevent⟩
      | declared f => cases hvalue
      | bound m object f => cases hvalue
  have hbelow (c : Class) : a.Holds (.cls c) → (∀ d ∈ c.chain, d.identity ≤ c.identity) ∧
      c.chain.Pairwise fun d e => e.identity < d.identity := by
    induction c using Class.chain_induction with
    | none c hnone => intro; simp [Class.chain_of_none hnone]
    | some c d hd ih =>
      intro h
      obtain ⟨hle, hpairwise⟩ := ih (h.superclass hd)
      obtain ⟨statement, hstatement⟩ := hfounded h
      have hlt := (hlived.superclass statement c hstatement d hd).2
      rw [Class.chain_of_some hd]
      refine ⟨List.forall_mem_cons.mpr ⟨Nat.le_refl _, fun e he => ?_⟩,
        List.pairwise_cons.mpr ⟨fun e he => ?_, hpairwise⟩⟩
      · exact Nat.le_of_lt (Nat.lt_of_le_of_lt (hle e he) hlt)
      · exact Nat.lt_of_le_of_lt (hle e he) hlt
  exact (hbelow c h).2

/-! ## Growth -/

/-- Whether the next step of a phase gives the outcome of an assignment to a variable. -/
def Assigns : Phase → Prop
  | running (.value _ (.assign _ _)) _ _ => True
  | _ => False

/-- What a phase keeps of the one before, and what it gains. -/
structure GrowsTo (a b : Phase) : Prop where
  /-- A scope keeps its link to the one around it. -/
  enclosing : ∀ scope < a.state.store.scopes.size,
    b.state.store.enclosing? scope = a.state.store.enclosing? scope
  /-- A scope loses no name. -/
  keeps : ∀ scope name, (a.state.store.local? scope name).isSome →
    (b.state.store.local? scope name).isSome
  /-- A scope gains a name only if it is declared, with the scope as the current one. -/
  gains : ∀ scope < a.state.store.scopes.size, ∀ name, (b.state.store.local? scope name).isSome →
    (a.state.store.local? scope name).isSome ∨ a.Declares scope name
  /-- A new scope holds a receiver, a superclass or parameters. -/
  opens : ∀ scope, a.state.store.scopes.size ≤ scope → ∀ name,
    (b.state.store.local? scope name).isSome → a.Opens b scope name
  /-- An assignment brings no name into any scope. -/
  assigns : a.Assigns → ∀ scope name, (b.state.store.local? scope name).isSome →
    (a.state.store.local? scope name).isSome
  /-- An instance keeps its class. -/
  cls : ∀ object c, a.state.store.class? object = some c → b.state.store.class? object = some c
  /-- An instance loses no field. -/
  field : ∀ object name, (a.state.store.field? object name).isSome →
    (b.state.store.field? object name).isSome

/-- Whether the walks outwards and upwards come to an end, whatever they look for. -/
structure IsWellFounded (a : Phase) : Prop where
  /-- A walk from a scope in use is one along a way to the globals. -/
  scopes : ∀ scope, a.Uses scope → ∃ path, a.state.store.Path scope path ∧
    (∀ distance, a.state.store.ancestor? scope distance = path[distance]?) ∧
    ∀ name, a.state.store.owner? scope name =
      path.find? fun x => (a.state.store.local? x name).isSome
  /-- No class is above itself, and methods are looked up in the classes from below. -/
  classes : ∀ c, a.Holds (.cls c) → (c.chain.Pairwise fun d e => e.identity < d.identity) ∧
    ∀ name, c.method? name = c.chain.findSome? fun d => Class.ownMethod? d.methods name

/-- The outcome of an assignment goes where there is a value already. -/
theorem assign_grows {goal : Yield} (limit : Nat) (v : Value) (target : Reference)
    (k : Cont goal .value) (st : State) (bound : ScopeRef) :
    st.store.Grows bound (Machine.step limit (.value v (.assign target k)) st).state.store := by
  simp only [Machine.step, Machine.resume]
  cases howner : st.owner? target with
  | none =>
    rw [Machine.fail, Step.state, Cont.store_unwind]
    exact .refl bound
  | some scope => exact .write (State.local?_of_owner? howner)

theorem Next.assigns (h : a.Next b) (hassigns : a.Assigns) (scope : ScopeRef) (name : String)
    (hlocal : (b.state.store.local? scope name).isSome) :
    (a.state.store.local? scope name).isSome := by
  have hstep (limit : Nat) {goal : Yield} {task : Task goal} {st : State} {nextId : NodeId}
      (hassigns : (running task st nextId).Assigns) :
      st.store.Grows (scope + 1) (Machine.step limit task st).state.store := by
    cases task with
    | value v k =>
      cases k with
      | assign target k => exact assign_grows limit v target k st _
      | _ => exact hassigns.elim
    | _ => exact hassigns.elim
  cases h with
  | @step goal task task' st st' nextId limit heq =>
    have hgrows := hstep limit hassigns
    rw [heq] at hgrows
    exact hgrows.gains scope (Nat.lt_succ_self _) name hlocal
  | @done goal task st st' nextId limit outcome heq =>
    have hgrows := hstep limit hassigns
    rw [heq] at hgrows
    exact hgrows.gains scope (Nat.lt_succ_self _) name hlocal
  | @failed goal task st st' nextId limit error heq =>
    have hgrows := hstep limit hassigns
    rw [heq] at hgrows
    exact hgrows.gains scope (Nat.lt_succ_self _) name hlocal
  | _ => exact hassigns.elim

theorem Next.growsTo (h : a.Next b) (ha : a.Sound) : a.GrowsTo b := by
  have hchanges := h.changes ha
  have hsets {scope : ScopeRef} {name : String} (hset : a.Sets scope name) :
      (a.state.store.local? scope name).isSome ∨ a.Declares scope name := by
    cases a with
    | idle s => exact hset.elim
    | running task st nextId => exact hset.symm.imp_left And.left
  refine ⟨hchanges.enclosing, fun scope name hlocal => ?_, fun scope hlt name hlocal => ?_,
    fun scope hle name hlocal => ?_, h.assigns, hchanges.cls, hchanges.field⟩
  · rcases hchanges.value scope (Store.lt_of_local? hlocal) name with heq | ⟨-, hsome⟩
    · rwa [heq]
    · exact hsome
  · rcases hchanges.value scope hlt name with heq | ⟨hset, -⟩
    · exact .inl (heq ▸ hlocal)
    · exact hsets hset
  · rcases hchanges.opened scope hle name hlocal with hopens | hset
    · exact hopens
    · refine absurd hle (Nat.not_le_of_lt ?_)
      rcases hsets hset with hold | hdeclares
      · exact Store.lt_of_local? hold
      · cases a with
        | idle s => exact hdeclares.elim
        | running task st nextId => exact hdeclares.1 ▸ ha.current_lt

theorem Reachable.isWellFounded (h : a.Reachable) : a.IsWellFounded where
  scopes _ huses :=
    have ⟨path, hpath⟩ := huses.rooted h
    ⟨path, hpath, hpath.ancestor?_eq, fun _ => hpath.owner?_eq⟩
  classes c hc := ⟨hc.pairwise_chain h, c.method?_eq⟩

/-- From any phase to the next the store only grows, the walks through it come to an
end, and whoever holds a function or class, then or later, holds the same one. -/
theorem phases_only_grow {a b c : Phase} (ha : a.Reachable) (hnext : a.Next b)
    (hleads : b.Leads c) :
    a.IsWellFounded ∧ a.GrowsTo b ∧ ∀ v w i, a.Holds v → c.Holds w →
      v.identity? = some i → w.identity? = some i → v = w :=
  ⟨ha.isWellFounded, hnext.growsTo ha.sound, fun _ _ _ hv hw hi hi' =>
    hv.eq_of_identity? ha (.head hnext hleads) hw hi hi'⟩

/-- A class is declared under a second name, which the globals gain. -/
theorem phases_only_grow_class : ∃ a b c : Phase, a.Reachable ∧ a.Next b ∧ b.Leads c ∧
    a.Declares Store.globals "b" ∧ a.IsWellFounded ∧ a.GrowsTo b ∧
    ∀ v w i, a.Holds v → c.Holds w → v.identity? = some i → w.identity? = some i → v = w := by
  obtain ⟨program, table, nextId, task, st, task', st', outcome, last, haccepts, hreaches, hstep,
      hrun, hdeclares⟩ :
      ∃ program table nextId, ∃ (task : Task .flow) (st : State) (task' : Task .flow) (st' : State),
        ∃ outcome last, Session.fresh.Accepts "class A \x7b f() \x7b\x7d \x7d var b = A;" program table nextId ∧
        Machine.Reaches 1 (Machine.program program, Session.fresh.state.learn table) (task, st) ∧
        Machine.step 1 task st = .next task' st' ∧
        Machine.run 1 9 task' st' = some (outcome, last) ∧
        (running task st nextId).Declares Store.globals "b" :=
    ⟨_, _, _, _, _, _, _, _, _, ⟨⟨_, by cbv, by cbv⟩, rfl⟩, .of_stepFor (n := 5) rfl, rfl, rfl,
      rfl, _, rfl, rfl⟩
  have ha : Reachable (.running task st nextId) :=
    (Relation.ReflTransGen.single (.program haccepts)).trans (leads_of_reaches hreaches)
  have hleads : Leads (.running task' st' nextId) (.idle ⟨last, nextId⟩) := leads_of_run hrun
  exact ⟨_, _, _, ha, .step hstep, hleads, hdeclares,
    phases_only_grow ha (.step hstep) hleads⟩

end Phase

end Lox
