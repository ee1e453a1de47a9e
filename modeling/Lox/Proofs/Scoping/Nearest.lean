import Lox.Machine
import Lox.Proofs.Scoping.Stores

/-!
# The nearest scope of a name

A name is reached by a walk along the scopes on the way out, or exactly so many scopes
further out. In a store that was made scope by scope, each inside one that existed, the
two agree where the distance is that of the nearest scope that has the name. At any
other distance only the scope that lies there counts.

## Implementation notes

A scope lies inside an older one. Its own number therefore bounds the way out of it, which
is why the walk is never cut short by its reach.
-/

namespace Lox

/-! ## Accesses that are blamed on a token -/

/-- What was found under the name of a token, or an error at the token. -/
def Token.require {α : Type} (name : Token) : Option α → Except RuntimeError α
  | some found => .ok found
  | none => .error (.undefined name)

/-- What is done to the scopes of a store. -/
inductive ScopeAction where
  | root
  | child (outer : ScopeRef)
  | define (scope : ScopeRef) (name : Token) (value : Value)
  | assign (scope : ScopeRef) (name : Token) (value : Value)
  | assignAt (scope : ScopeRef) (distance : Nat) (name : Token) (value : Value)

namespace ScopeAction

/-- The scope that an action starts from. -/
def scope? : ScopeAction → Option ScopeRef
  | root => none
  | child scope | define scope _ _ | assign scope _ _ | assignAt scope _ _ _ => some scope

/-- The store after a replacement; one that fails leaves the store as it is. -/
def replaced (s : Store) (name : Token) : Option Store → Except RuntimeError Unit × Store
  | some s' => (.ok (), s')
  | none => (.error (.undefined name), s)

/-- Carry out an action. -/
def perform (s : Store) : ScopeAction → Except RuntimeError Unit × Store
  | root => (.ok (), (s.newScope .empty none).2)
  | child outer => (.ok (), (s.newScope .empty (some outer)).2)
  | define scope name value => (.ok (), s.define scope name.lexeme value)
  | assign scope name value => replaced s name (s.assign? scope name.lexeme value)
  | assignAt scope distance name value =>
      replaced s name (s.assignAt? scope distance name.lexeme value)

end ScopeAction

/-- The value of a reference is read at the distance that the table gives, or by a walk from
the globals. -/
theorem State.read_eq (st : State) (target : Reference) :
    st.read target = match st.table.distance? target.id with
      | some d => st.store.getAt? st.current d target.name.lexeme
      | none => st.store.get? Store.globals target.name.lexeme := by
  rw [read, owner?]
  cases st.table.distance? target.id <;> rfl

/-- Evaluating a variable gives what was read, or the error at its token. -/
theorem Machine.eval_variable_eq {goal : Yield} (target : Reference) (k : Cont goal .value)
    (st : State) :
    eval (.variable target) k st =
      match target.name.require (st.read target) with
      | .ok v => .next (.value v k) st
      | .error e => .failed e (k.unwind st) := by
  rw [eval]
  cases st.read target <;> rfl

/-- Assigning to a variable is such an action. -/
theorem Machine.resume_assign_eq {goal : Yield} (limit : Nat) (v : Value) (target : Reference)
    (k : Cont goal .value) (st : State) :
    resume limit v (.assign target k) st =
      match (match st.table.distance? target.id with
        | some d => ScopeAction.assignAt st.current d target.name v
        | none => .assign Store.globals target.name v).perform st.store with
      | (.ok (), s) => .next (.value v k) { st with store := s }
      | (.error e, _) => .failed e (k.unwind st) := by
  rw [resume, State.owner?]
  cases st.table.distance? target.id with
  | none =>
    simp only [ScopeAction.perform, Store.assign?]
    cases st.store.owner? Store.globals target.name.lexeme <;> rfl
  | some d =>
    simp only [ScopeAction.perform, Store.assignAt?]
    cases st.store.ownerAt? st.current d target.name.lexeme <;> rfl

namespace Store

variable {s s' : Store} {scope outer target other : ScopeRef} {name : String} {d : Nat} {v : Value}

/-! ## Stores made scope by scope -/

/-- The stores that come about from one without scopes by actions on scopes that exist. -/
inductive Built : Store → Prop
  | bare {s : Store} (h : s.scopes = #[]) : s.Built
  | after {s : Store} (h : s.Built) (a : ScopeAction) (ha : ∀ scope ∈ a.scope?, scope < s.scopes.size) :
      (a.perform s).2.Built

/-- Whether every scope lies inside an older one, if inside any. -/
def IsNested (s : Store) : Prop :=
  ∀ scope outer, s.enclosing? scope = some outer → outer < scope

theorem IsNested.define (h : s.IsNested) : (s.define scope name v).IsNested := by
  intro inner outer houter
  rw [enclosing?_define] at houter
  exact h inner outer houter

theorem IsNested.newScope (h : s.IsNested) {enclosing : Option ScopeRef}
    (henclosing : ∀ outer ∈ enclosing, outer < s.scopes.size) :
    (s.newScope .empty enclosing).2.IsNested := by
  intro inner outer houter
  rw [enclosing?_newScope] at houter
  split at houter
  next hnew => exact hnew ▸ henclosing outer houter
  next => exact h inner outer houter

theorem IsNested.replaced (h : s.IsNested) {t : Token} {owner : Option ScopeRef} {name : String} :
    (ScopeAction.replaced s t (match owner with
      | none => none
      | some target => some (s.define target name v))).2.IsNested := by
  cases owner with
  | none => exact h
  | some target => exact h.define

theorem Built.isNested (h : s.Built) : s.IsNested := by
  induction h with
  | @bare s hnone =>
    intro scope outer houter
    have hlt := lt_of_enclosing? houter
    rw [hnone] at hlt
    exact absurd hlt (Nat.not_lt_zero _)
  | after _ a ha ih =>
    cases a with
    | root => exact ih.newScope fun outer houter => nomatch houter
    | child outer => exact ih.newScope fun outer' houter => ha outer' houter
    | define => exact ih.define
    | assign => exact ih.replaced
    | assignAt => exact ih.replaced

theorem IsNested.ancestor?_le (h : s.IsNested) (ht : s.ancestor? scope d = some target) :
    target + d ≤ scope := by
  induction d generalizing scope with
  | zero => exact Nat.le_of_eq (Option.some.inj ht).symm
  | succ d ih =>
    rw [ancestor?] at ht
    cases houter : s.enclosing? scope with
    | none => rw [houter] at ht; cases ht
    | some outer =>
      rw [houter] at ht
      exact Nat.succ_le_of_lt (Nat.lt_of_le_of_lt (ih ht) (h scope outer houter))

/-! ## The walk -/

/-- Whether the nearest scope on the way out that has a name is so many scopes further out. -/
structure Nearest (s : Store) (scope : ScopeRef) (name : String) (d : Nat) (target : ScopeRef) :
    Prop where
  ancestor : s.ancestor? scope d = some target
  holds : (s.local? target name).isSome
  free : ∀ i < d, ∀ other, s.ancestor? scope i = some other → s.local? other name = none

/-- Whether no scope on the way out has a name. -/
def Unbound (s : Store) (scope : ScopeRef) (name : String) : Prop :=
  ∀ i other, s.ancestor? scope i = some other → s.local? other name = none

theorem ancestor?_out (h : s.enclosing? scope = some outer) (i : Nat) :
    s.ancestor? scope (i + 1) = s.ancestor? outer i := by
  rw [ancestor?, h]

theorem Nearest.out (h : s.enclosing? scope = some outer) (hfree : s.local? scope name = none)
    (hn : s.Nearest outer name d target) : s.Nearest scope name (d + 1) target where
  ancestor := (ancestor?_out h d).trans hn.ancestor
  holds := hn.holds
  free i hi other hother := by
    cases i with
    | zero => exact Option.some.inj hother ▸ hfree
    | succ i =>
      exact hn.free i (Nat.lt_of_succ_lt_succ hi) other ((ancestor?_out h i).symm.trans hother)

theorem Unbound.out (h : s.enclosing? scope = some outer) (hfree : s.local? scope name = none)
    (hu : s.Unbound outer name) : s.Unbound scope name := by
  intro i other hother
  cases i with
  | zero => exact Option.some.inj hother ▸ hfree
  | succ i => exact hu i other ((ancestor?_out h i).symm.trans hother)

/-- The way out comes to an end: a name is bound on it or it is not. -/
theorem IsNested.nearest_or_unbound (h : s.IsNested) (scope : ScopeRef) (name : String) :
    (∃ d target, s.Nearest scope name d target) ∨ s.Unbound scope name := by
  induction scope using Nat.strongRecOn with
  | ind scope ih =>
    cases hlocal : s.local? scope name with
    | some v =>
      exact .inl ⟨0, scope, rfl, hlocal ▸ rfl, fun i hi => absurd hi (Nat.not_lt_zero i)⟩
    | none =>
      cases houter : s.enclosing? scope with
      | none =>
        refine .inr fun i other hother => ?_
        cases i with
        | zero => exact Option.some.inj hother ▸ hlocal
        | succ i => rw [ancestor?, houter] at hother; cases hother
      | some outer =>
        obtain ⟨d, target, hn⟩ | hu := ih outer (h scope outer houter)
        · exact .inl ⟨d + 1, target, hn.out houter hlocal⟩
        · exact .inr (hu.out houter hlocal)

theorem Nearest.ownerWithin?_eq (h : s.Nearest scope name d target) {reach : Nat} (hd : d < reach) :
    s.ownerWithin? name reach scope = some target := by
  induction d generalizing scope reach with
  | zero =>
    obtain ⟨reach, rfl⟩ := Nat.exists_eq_add_of_le' hd
    obtain rfl := Option.some.inj h.ancestor
    rw [ownerWithin?, if_pos h.holds]
  | succ d ih =>
    obtain ⟨reach, rfl⟩ := Nat.exists_eq_add_of_le' (Nat.lt_of_le_of_lt (Nat.zero_le _) hd)
    have hfree : s.local? scope name = none := h.free 0 (Nat.succ_pos d) scope rfl
    cases houter : s.enclosing? scope with
    | none =>
      have hancestor := h.ancestor
      rw [ancestor?, houter] at hancestor
      cases hancestor
    | some outer =>
      have hn : s.Nearest outer name d target :=
        ⟨(ancestor?_out houter d).symm.trans h.ancestor, h.holds, fun i hi other hother =>
          h.free (i + 1) (Nat.succ_lt_succ hi) other ((ancestor?_out houter i).trans hother)⟩
      rw [ownerWithin?, hfree, houter]
      exact ih hn (Nat.lt_of_succ_lt_succ hd)

theorem Unbound.ownerWithin?_eq (h : s.Unbound scope name) (reach : Nat) :
    s.ownerWithin? name reach scope = none := by
  induction reach generalizing scope with
  | zero => rfl
  | succ reach ih =>
    rw [ownerWithin?, h 0 scope rfl]
    cases houter : s.enclosing? scope with
    | none => rfl
    | some outer =>
      exact ih fun i other hother => h (i + 1) other ((ancestor?_out houter i).trans hother)

/-- The walk ends at the nearest scope, however far out that is. -/
theorem Nearest.owner?_eq (h : s.Nearest scope name d target) (hs : s.IsNested) :
    s.owner? scope name = some target := by
  refine h.ownerWithin?_eq (Nat.lt_of_le_of_lt (Nat.le_trans (Nat.le_add_left d target)
    (hs.ancestor?_le h.ancestor)) ?_)
  cases d with
  | zero => exact Option.some.inj h.ancestor ▸ lt_of_local? h.holds
  | succ d =>
    cases houter : s.enclosing? scope with
    | none =>
      have hancestor := h.ancestor
      rw [ancestor?, houter] at hancestor
      cases hancestor
    | some outer => exact lt_of_enclosing? houter

theorem Unbound.owner?_eq (h : s.Unbound scope name) : s.owner? scope name = none :=
  h.ownerWithin?_eq _

theorem Nearest.get?_eq (h : s.Nearest scope name d target) (hs : s.IsNested) :
    s.get? scope name = s.local? target name := by
  rw [get?, h.owner?_eq hs, Option.bind_some]

theorem Unbound.get?_eq (h : s.Unbound scope name) : s.get? scope name = none := by
  rw [get?, h.owner?_eq, Option.bind_none]

/-! ## Replacing a value -/

/-- Whether a store is another but for the value that one scope has for a name. -/
structure Replaces (s : Store) (target : ScopeRef) (name : String) (v : Value) (s' : Store) :
    Prop where
  values : ∀ scope other,
    s'.local? scope other = if target = scope ∧ name = other then some v else s.local? scope other
  enclosing : ∀ scope, s'.enclosing? scope = s.enclosing? scope
  size : s'.scopes.size = s.scopes.size
  instances : s'.instances = s.instances
  nextIdentity : s'.nextIdentity = s.nextIdentity

theorem define_replaces (h : (s.local? target name).isSome) :
    s.Replaces target name v (s.define target name v) where
  values _ _ := local?_define (lt_of_local? h)
  enclosing _ := enclosing?_define
  size := size_define
  instances := rfl
  nextIdentity := rfl

namespace Replaces

variable (h : s.Replaces target name v s') (htarget : (s.local? target name).isSome)

include h in
theorem isNested (hs : s.IsNested) : s'.IsNested :=
  fun scope outer houter => hs scope outer ((h.enclosing scope).symm.trans houter)

include h in
theorem ancestor? (scope : ScopeRef) (i : Nat) : s'.ancestor? scope i = s.ancestor? scope i := by
  induction i generalizing scope with
  | zero => rfl
  | succ i ih =>
    rw [Store.ancestor?, Store.ancestor?, h.enclosing]
    cases s.enclosing? scope with
    | none => rfl
    | some outer => exact ih outer

include h htarget in
theorem isSome_local? (scope : ScopeRef) (other : String) :
    (s'.local? scope other).isSome = (s.local? scope other).isSome := by
  rw [h.values]
  split
  next heq => rw [← heq.1, ← heq.2, htarget]; rfl
  next => rfl

include h htarget in
theorem nearest {other : String} (hn : s.Nearest scope other d outer) :
    s'.Nearest scope other d outer where
  ancestor := (h.ancestor? scope d).trans hn.ancestor
  holds := (h.isSome_local? htarget outer other).trans hn.holds
  free i hi inner hinner := by
    have hfree := hn.free i hi inner ((h.ancestor? scope i).symm.trans hinner)
    rw [← Option.not_isSome_iff_eq_none] at hfree ⊢
    rwa [h.isSome_local? htarget]

include h htarget in
theorem unbound {other : String} (hu : s.Unbound scope other) : s'.Unbound scope other := by
  intro i inner hinner
  have hfree := hu i inner ((h.ancestor? scope i).symm.trans hinner)
  rw [← Option.not_isSome_iff_eq_none] at hfree ⊢
  rwa [h.isSome_local? htarget]

include h htarget in
/-- Where the walk ends at the scope, there is the new value. -/
theorem get?_of_nearest (hs : s.IsNested) (hn : s.Nearest scope name d target) :
    s'.get? scope name = some v := by
  rw [(h.nearest htarget hn).get?_eq (h.isNested hs), h.values, if_pos ⟨rfl, rfl⟩]

include h htarget in
/-- Where the walk ends elsewhere, nothing has changed. -/
theorem get?_of_not_nearest (hs : s.IsNested) {other : String}
    (hn : ¬(other = name ∧ ∃ d, s.Nearest scope name d target)) :
    s'.get? scope other = s.get? scope other := by
  obtain ⟨d, outer, hnear⟩ | hu := hs.nearest_or_unbound scope other
  · rw [hnear.get?_eq hs, (h.nearest htarget hnear).get?_eq (h.isNested hs), h.values, if_neg]
    rintro ⟨rfl, rfl⟩
    exact hn ⟨rfl, d, hnear⟩
  · rw [hu.get?_eq, (h.unbound htarget hu).get?_eq]

end Replaces

/-! ## Both ways of access -/

/-- Whether an access finds nothing: reading is an error at the token, and so is an
assignment, which leaves the store as it is. -/
structure Denies (s : Store) (name : Token) (found : Option Value) (a : ScopeAction) : Prop where
  read : name.require found = .error (.undefined name)
  write : a.perform s = (.error (.undefined name), s)

/-- Whether an access is to a scope that has the name: reading gives its value, and an
assignment replaces that value and nothing else. -/
structure Grants (s : Store) (target : ScopeRef) (name : Token) (v : Value) (found : Option Value)
    (a : ScopeAction) (s' : Store) : Prop where
  read : ∃ old, s.local? target name.lexeme = some old ∧ name.require found = .ok old
  write : a.perform s = (.ok (), s')
  replaces : s.Replaces target name.lexeme v s'

variable {t : Token}

theorem denies_at (h : s.ownerAt? scope d t.lexeme = none) (v : Value) :
    s.Denies t (s.getAt? scope d t.lexeme) (.assignAt scope d t v) :=
  ⟨by rw [getAt?, h]; rfl, by rw [ScopeAction.perform, assignAt?, h]; rfl⟩

theorem denies_walk (h : s.owner? scope t.lexeme = none) (v : Value) :
    s.Denies t (s.get? scope t.lexeme) (.assign scope t v) :=
  ⟨by rw [get?, h]; rfl, by rw [ScopeAction.perform, assign?, h]; rfl⟩

theorem grants_at (h : s.ancestor? scope d = some target) (hlocal : (s.local? target t.lexeme).isSome)
    (v : Value) :
    s.Grants target t v (s.getAt? scope d t.lexeme) (.assignAt scope d t v)
      (s.define target t.lexeme v) where
  read := by
    obtain ⟨old, hold⟩ := Option.isSome_iff_exists.mp hlocal
    exact ⟨old, hold, by rw [getAt?_of_ancestor? h, hold]; rfl⟩
  write := by rw [ScopeAction.perform, assignAt?, ownerAt?_of_ancestor? h, if_pos hlocal]; rfl
  replaces := define_replaces hlocal

theorem grants_walk (h : s.owner? scope t.lexeme = some target) (v : Value) :
    s.Grants target t v (s.get? scope t.lexeme) (.assign scope t v)
      (s.define target t.lexeme v) where
  read := by
    obtain ⟨old, hold⟩ := Option.isSome_iff_exists.mp (local?_of_owner? h)
    exact ⟨old, hold, by rw [get?, h, Option.bind_some, hold]; rfl⟩
  write := by rw [ScopeAction.perform, assign?, h]; rfl
  replaces := define_replaces (local?_of_owner? h)

/-- Access at a distance and the walk outwards. Either the name has a nearest scope, and
then the walk and the access at its distance read the same value and make the same store,
which differs in this one value and is seen to differ from exactly the scopes whose walk
ends there; or no scope on the way has the name, and both fail at every distance. At any
distance, only the scope that lies there is asked. -/
theorem Built.distance_access_agrees_with_walk (h : s.Built) (scope : ScopeRef) (t : Token)
    (v : Value) :
    ((∃ d target, s.Nearest scope t.lexeme d target) ∨ s.Unbound scope t.lexeme) ∧
    (∀ d target, s.Nearest scope t.lexeme d target →
      s.getAt? scope d t.lexeme = s.get? scope t.lexeme ∧
      ∃ s', s.Grants target t v (s.get? scope t.lexeme) (.assign scope t v) s' ∧
        s.Grants target t v (s.getAt? scope d t.lexeme) (.assignAt scope d t v) s' ∧
        (∀ other, (∃ i, s.Nearest other t.lexeme i target) → s'.get? other t.lexeme = some v) ∧
        ∀ other name, ¬(name = t.lexeme ∧ ∃ i, s.Nearest other t.lexeme i target) →
          s'.get? other name = s.get? other name) ∧
    (s.Unbound scope t.lexeme →
      s.Denies t (s.get? scope t.lexeme) (.assign scope t v) ∧
        ∀ d, s.Denies t (s.getAt? scope d t.lexeme) (.assignAt scope d t v)) ∧
    (∀ d target, s.ancestor? scope d = some target → (s.local? target t.lexeme).isSome →
      ∃ s', s.Grants target t v (s.getAt? scope d t.lexeme) (.assignAt scope d t v) s') ∧
    (∀ d, (∀ target, s.ancestor? scope d = some target → s.local? target t.lexeme = none) →
      s.Denies t (s.getAt? scope d t.lexeme) (.assignAt scope d t v)) ∧
    (RuntimeError.undefined t).cause.message = s!"Undefined variable '{t.lexeme}'." ∧
    (Diagnostic.runtime (.undefined t)).line = t.line := by
  have hs := h.isNested
  have hdeny (d : Nat) (hfree : ∀ target, s.ancestor? scope d = some target →
      s.local? target t.lexeme = none) :
      s.Denies t (s.getAt? scope d t.lexeme) (.assignAt scope d t v) := by
    refine denies_at ?_ v
    cases hancestor : s.ancestor? scope d with
    | none => rw [ownerAt?, hancestor]
    | some target => rw [ownerAt?_of_ancestor? hancestor, hfree target hancestor]; rfl
  refine ⟨hs.nearest_or_unbound scope t.lexeme, ?_, ?_, ?_, hdeny, rfl, rfl⟩
  · intro d target hn
    have hwalk := grants_walk (hn.owner?_eq hs) v
    refine ⟨?_, s.define target t.lexeme v, hwalk, grants_at hn.ancestor hn.holds v, ?_, ?_⟩
    · rw [getAt?_of_ancestor? hn.ancestor, hn.get?_eq hs]
    · rintro other ⟨i, hi⟩
      exact hwalk.replaces.get?_of_nearest hn.holds hs hi
    · intro other name hother
      exact hwalk.replaces.get?_of_not_nearest hn.holds hs hother
  · intro hu
    exact ⟨denies_walk hu.owner?_eq v, fun d => hdeny d (hu d)⟩
  · intro d target hancestor hlocal
    exact ⟨_, grants_at hancestor hlocal v⟩

/-- Of two scopes inside one, what is assigned through the first is seen from the second,
but not from a scope in there that has the name itself. -/
theorem Built.distance_access_agrees_with_walk_sibling : ∃ s : Store, ∃ t : Token,
    s.Built ∧ s.Nearest 1 t.lexeme 1 0 ∧ s.Nearest 2 t.lexeme 1 0 ∧ s.Nearest 3 t.lexeme 0 3 ∧
      s.getAt? 1 1 t.lexeme = s.get? 1 t.lexeme ∧
      ∃ s', (ScopeAction.assign 1 t (.string "new")).perform s = (.ok (), s') ∧
        (ScopeAction.assignAt 1 1 t (.string "new")).perform s = (.ok (), s') ∧
        s'.get? 2 t.lexeme = some (.string "new") ∧ s'.get? 3 t.lexeme = s.get? 3 t.lexeme := by
  let t : Token := ⟨.identifier, "x", 1⟩
  let actions : List ScopeAction := [.root, .define 0 t .nil, .child 0, .child 0, .child 2,
    .define 3 t (.bool true)]
  let s := actions.foldl (fun s a => (a.perform s).2) ⟨#[], #[], 0⟩
  have hb : s.Built :=
    (((((Built.bare rfl |>.after .root (by decide)).after (.define 0 t .nil) (by decide)).after
      (.child 0) (by decide)).after (.child 0) (by decide)).after (.child 2) (by decide)).after
      (.define 3 t (.bool true)) (by decide)
  have h1 : s.Nearest 1 t.lexeme 1 0 := ⟨rfl, rfl, by decide⟩
  have h2 : s.Nearest 2 t.lexeme 1 0 := ⟨rfl, rfl, by decide⟩
  have h3 : s.Nearest 3 t.lexeme 0 3 := ⟨rfl, rfl, by decide⟩
  obtain ⟨-, hnear, -⟩ := hb.distance_access_agrees_with_walk 1 t (.string "new")
  obtain ⟨heq, s', hwalk, hat, hseen, hunseen⟩ := hnear 1 0 h1
  refine ⟨s, t, hb, h1, h2, h3, heq, s', hwalk.write, hat.write, hseen 2 ⟨1, h2⟩, hunseen 3 _ ?_⟩
  rintro ⟨-, i, hi⟩
  exact nomatch (hi.owner?_eq hb.isNested).symm.trans (h3.owner?_eq hb.isNested)

end Store

end Lox
