import Lox.Proofs.Scoping.Scoped
import Lox.Store

/-!
# Scopes in the store

What the operations of a store do to its scopes, and when the scopes around a
place in a running program are those that were seen when its names were bound.

## Implementation notes

A name is bound as soon as it is declared but gets its value later, so a scope
in the store need only hold the names that are ready. The scope in which a piece
of program runs holds no others; of outer scopes this is not said, since a
function may have been made before its scope was complete.
-/

namespace Lox

namespace Store

variable {s s' s'' : Store} {scope target : ScopeRef} {name other : String} {v : Value} {d : Nat}

/-! ## Operations -/

@[simp] theorem size_define : (s.define scope name v).scopes.size = s.scopes.size :=
  Array.size_modify

@[simp] theorem enclosing?_define : (s.define scope name v).enclosing? target = s.enclosing? target := by
  unfold enclosing? define
  rw [Array.getElem?_modify]
  split
  next h =>
    subst h
    cases s.scopes[scope]? <;> rfl
  next => rfl

theorem local?_define_of_ne (h : ¬(scope = target ∧ name = other)) :
    (s.define scope name v).local? target other = s.local? target other := by
  unfold local? define
  rw [Array.getElem?_modify]
  split
  next heq =>
    subst heq
    cases s.scopes[scope]? with
    | none => rfl
    | some sc => exact sc.bindings.get?_insert_of_ne (fun hname => h ⟨rfl, hname⟩) v
  next => rfl

theorem local?_define_self (h : scope < s.scopes.size) :
    (s.define scope name v).local? scope name = some v := by
  unfold local? define
  simp [Array.getElem?_modify, Array.getElem?_eq_getElem h]

theorem local?_define (h : scope < s.scopes.size) :
    (s.define scope name v).local? target other =
      if scope = target ∧ name = other then some v else s.local? target other := by
  split
  next heq =>
    obtain ⟨rfl, rfl⟩ := heq
    exact local?_define_self h
  next hne => exact local?_define_of_ne hne

/-- In a scope that does not exist nothing is defined. -/
theorem define_of_size_le (h : s.scopes.size ≤ scope) : s.define scope name v = s := by
  have hscopes : (s.define scope name v).scopes = s.scopes := by
    refine Array.ext size_define fun i hi hi' => ?_
    rw [← Option.some_inj, ← Array.getElem?_eq_getElem hi, ← Array.getElem?_eq_getElem hi', define,
      Array.getElem?_modify, if_neg (Nat.ne_of_gt (Nat.lt_of_lt_of_le hi' h))]
  exact congrArg (fun scopes => ({ s with scopes } : Store)) hscopes

theorem lt_of_local? (h : (s.local? scope name).isSome) : scope < s.scopes.size := by
  by_cases hlt : scope < s.scopes.size
  · exact hlt
  · rw [local?, Array.getElem?_eq_none (Nat.le_of_not_lt hlt)] at h
    cases h

theorem lt_of_enclosing? {outer : ScopeRef} (h : s.enclosing? scope = some outer) :
    scope < s.scopes.size := by
  by_cases hlt : scope < s.scopes.size
  · exact hlt
  · rw [enclosing?, Array.getElem?_eq_none (Nat.le_of_not_lt hlt)] at h
    cases h

variable {bindings : NameMap Value} {enclosing : Option ScopeRef}

@[simp] theorem newScope_fst : (s.newScope bindings enclosing).1 = s.scopes.size := rfl

@[simp] theorem size_newScope :
    (s.newScope bindings enclosing).2.scopes.size = s.scopes.size + 1 :=
  Array.size_push _

theorem enclosing?_newScope : (s.newScope bindings enclosing).2.enclosing? target =
    if target = s.scopes.size then enclosing else s.enclosing? target := by
  unfold enclosing? newScope
  rw [Array.getElem?_push]
  split <;> rfl

theorem local?_newScope : (s.newScope bindings enclosing).2.local? target name =
    if target = s.scopes.size then bindings.get? name else s.local? target name := by
  unfold local? newScope
  rw [Array.getElem?_push]
  split <;> rfl

/-! ## Finding names -/

theorem ownerAt?_of_ancestor? (h : s.ancestor? scope d = some target) :
    s.ownerAt? scope d name = if (s.local? target name).isSome then some target else none := by
  rw [ownerAt?, h]

theorem getAt?_of_ancestor? (h : s.ancestor? scope d = some target) :
    s.getAt? scope d name = s.local? target name := by
  rw [getAt?, ownerAt?_of_ancestor? h]
  cases hlocal : s.local? target name with
  | none => rfl
  | some v => simpa using hlocal

/-- The nearest scope that has a name is the first, if that has it. -/
theorem owner?_of_local? (h : (s.local? scope name).isSome) : s.owner? scope name = some scope := by
  have hsize := lt_of_local? h
  rw [owner?, ← Nat.succ_pred_eq_of_pos (Nat.zero_lt_of_lt hsize), ownerWithin?, if_pos h]

/-- A name that no scope has is not in the first. -/
theorem local?_of_owner?_eq_none (h : s.owner? scope name = none) :
    s.local? scope name = none := by
  cases hlocal : s.local? scope name with
  | none => rfl
  | some v =>
      rw [owner?_of_local? (by rw [hlocal]; rfl)] at h
      cases h

/-- The nearest scope that has a name has it. -/
theorem local?_of_owner? (h : s.owner? scope name = some target) : (s.local? target name).isSome := by
  unfold owner? at h
  generalize s.scopes.size = reach at h
  induction reach generalizing scope with
  | zero => cases h
  | succ reach ih =>
      rw [ownerWithin?] at h
      split at h
      next hlocal =>
        obtain rfl := Option.some.inj h
        exact hlocal
      next =>
        split at h
        · cases h
        · exact ih h

/-! ## Growth -/

/-- Whether a later store has all scopes and names of an earlier one, and has no
more names in the scopes before a bound. -/
structure Grows (bound : ScopeRef) (s s' : Store) : Prop where
  size : s.scopes.size ≤ s'.scopes.size
  enclosing : ∀ scope < s.scopes.size, s'.enclosing? scope = s.enclosing? scope
  keeps : ∀ scope name, (s.local? scope name).isSome → (s'.local? scope name).isSome
  gains : ∀ scope < bound, ∀ name, (s'.local? scope name).isSome → (s.local? scope name).isSome

namespace Grows

variable {bound lower : ScopeRef}

theorem of_scopes_eq (h : s'.scopes = s.scopes) : Grows bound s s' := by
  have hlocal (scope : ScopeRef) (name : String) : s'.local? scope name = s.local? scope name := by
    unfold local?
    rw [h]
  have henclosing (scope : ScopeRef) : s'.enclosing? scope = s.enclosing? scope := by
    unfold enclosing?
    rw [h]
  exact ⟨Nat.le_of_eq (by rw [h]), fun scope _ => henclosing scope, fun scope name => by rw [hlocal]; exact id,
    fun scope _ name => by rw [hlocal]; exact id⟩

theorem refl (bound : ScopeRef) : Grows bound s s :=
  of_scopes_eq rfl

theorem trans (h : Grows bound s s') (h' : Grows bound s' s'') : Grows bound s s'' where
  size := Nat.le_trans h.size h'.size
  enclosing scope hlt :=
    (h'.enclosing scope (Nat.lt_of_lt_of_le hlt h.size)).trans (h.enclosing scope hlt)
  keeps scope name hs := h'.keeps scope name (h.keeps scope name hs)
  gains scope hlt name hs := h.gains scope hlt name (h'.gains scope hlt name hs)

theorem weaken (h : Grows bound s s') (hle : lower ≤ bound) : Grows lower s s' :=
  ⟨h.size, h.enclosing, h.keeps, fun scope hlt => h.gains scope (Nat.lt_of_lt_of_le hlt hle)⟩

/-- A new name is new only to its scope. -/
theorem define : Grows scope s (s.define scope name v) where
  size := Nat.le_of_eq size_define.symm
  enclosing _ _ := enclosing?_define
  keeps target other hs := by
    by_cases heq : scope = target ∧ name = other
    · obtain ⟨rfl, rfl⟩ := heq
      rw [local?_define_self (lt_of_local? hs)]
      rfl
    · rwa [local?_define_of_ne heq]
  gains target hlt other hs := by
    rwa [local?_define_of_ne fun heq => Nat.ne_of_gt hlt heq.1] at hs

/-- Replacing a value brings no new name. -/
theorem write (h : (s.local? scope name).isSome) : Grows bound s (s.define scope name v) where
  size := Nat.le_of_eq size_define.symm
  enclosing _ _ := enclosing?_define
  keeps := (define (s := s)).keeps
  gains target _ other hs := by
    rw [local?_define (lt_of_local? h)] at hs
    split at hs
    next heq =>
      obtain ⟨rfl, rfl⟩ := heq
      exact h
    next => exact hs

theorem newScope : Grows s.scopes.size s (s.newScope bindings enclosing).2 where
  size := by rw [size_newScope]; exact Nat.le_succ _
  enclosing scope hlt := by rw [enclosing?_newScope, if_neg (Nat.ne_of_lt hlt)]
  keeps scope name hs := by
    rw [local?_newScope, if_neg (Nat.ne_of_lt (lt_of_local? hs))]
    exact hs
  gains scope hlt name hs := by rwa [local?_newScope, if_neg (Nat.ne_of_lt hlt)] at hs

end Grows

/-! ## Scopes as they were seen -/

/-- Whether a scope and those around it hold the names that are ready in the
scopes of a walk. -/
def Models (s : Store) : ScopeRef → Scopes → Prop
  | scope, [] => scope = globals ∧ scope < s.scopes.size
  | scope, names :: Γ =>
      (∀ name, names.get? name = some true → (s.local? scope name).isSome) ∧
        ∃ outer, s.enclosing? scope = some outer ∧ s.Models outer Γ

namespace Models

variable {Γ : Scopes} {bound : ScopeRef}

theorem lt (h : s.Models scope Γ) : scope < s.scopes.size := by
  cases Γ with
  | nil => exact h.2
  | cons names Γ =>
      obtain ⟨outer, houter, -⟩ := h.2
      exact lt_of_enclosing? houter

theorem grow (h : s.Models scope Γ) (hs : Grows bound s s') : s'.Models scope Γ := by
  induction Γ generalizing scope with
  | nil => exact ⟨h.1, Nat.lt_of_lt_of_le h.2 hs.size⟩
  | cons names Γ ih =>
      have hlt := h.lt
      obtain ⟨hnames, outer, houter, hΓ⟩ := h
      exact ⟨fun name hname => hs.keeps scope name (hnames name hname), outer,
        (hs.enclosing scope hlt).trans houter, ih hΓ⟩

/-- A declared name is so many scopes further out, if only it is ready. -/
theorem find {d : Nat} (h : s.Models scope Γ) (hd : Γ.depth? name = some d) :
    ∃ target names, s.ancestor? scope d = some target ∧ Γ[d]? = some names ∧
      names.contains name ∧ (names.get? name = some true → (s.local? target name).isSome) := by
  induction Γ generalizing scope d with
  | nil => cases hd
  | cons names Γ ih =>
      obtain ⟨hnames, outer, houter, hΓ⟩ := h
      rw [Scopes.depth?_cons] at hd
      split at hd
      next hc =>
        obtain rfl := Option.some.inj hd
        exact ⟨scope, names, rfl, rfl, hc, hnames name⟩
      next =>
        obtain ⟨e, he, rfl⟩ := Option.map_eq_some_iff.mp hd
        obtain ⟨target, found, htarget, hfound, hrest⟩ := ih hΓ he
        refine ⟨target, found, ?_, hfound, hrest⟩
        rw [ancestor?, houter]
        exact htarget

/-- A new scope models a walk that opens one with the same names. -/
theorem newScope (h : s.Models scope Γ) (names : NameMap Bool) (bindings : NameMap Value)
    (hnames : ∀ name, names.get? name = some true → (bindings.get? name).isSome) :
    (s.newScope bindings (some scope)).2.Models s.scopes.size (names :: Γ) := by
  refine ⟨fun name hname => ?_, scope, ?_, h.grow Grows.newScope⟩
  · rw [local?_newScope, if_pos rfl]
    exact hnames name hname
  · rw [enclosing?_newScope, if_pos rfl]

/-- A new scope that holds what the language gives models a walk that is given it. -/
theorem given (h : s.Models scope Γ) (k : Keyword) (v : Value) :
    (s.newScope (NameMap.empty.insert k.text v) (some scope)).2.Models s.scopes.size
      (Γ.given k) := by
  refine h.newScope _ _ fun name hname => ?_
  obtain ⟨rfl, -⟩ := NameMap.get?_single_iff.mp hname
  rw [NameMap.get?_insert_self]
  rfl

end Models

end Store

/-! ## Places -/

namespace Scopes

/-- Whether all names are ready but the one that is being initialized in the
innermost scope. -/
structure Settled (Γ : Scopes) (pending : Option Token) : Prop where
  head : ∀ names ∈ Γ.head?, ∀ name,
    names.get? name = some false ↔ ∃ t ∈ pending, t.lexeme = name
  tail : ∀ names ∈ Γ.tail, ∀ name, names.get? name ≠ some false

theorem forall_mem_head?_cons {P : NameMap Bool → Prop} {names : NameMap Bool} (Γ : Scopes)
    (h : P names) : ∀ m ∈ (names :: Γ).head?, P m := by
  intro m hm
  obtain rfl : names = m := Option.some.inj hm
  exact h

namespace Settled

variable {Γ : Scopes} {names : NameMap Bool} {pending : Option Token}

theorem nil : Settled [] pending :=
  ⟨by simp, by simp⟩

theorem cons (h : Γ.Settled none) (hnames : ∀ name, names.get? name ≠ some false) :
    Settled (names :: Γ) none := by
  refine ⟨forall_mem_head?_cons Γ fun name => ?_, fun outer houter name => ?_⟩
  · simp [hnames name]
  · cases Γ with
    | nil => cases houter
    | cons inner Γ =>
        rcases List.mem_cons.mp houter with rfl | houter
        · simpa using h.head outer rfl name
        · exact h.tail outer houter name

theorem given (h : Γ.Settled none) (name : Keyword) : (Γ.given name).Settled none := by
  apply h.cons
  intro other
  rw [NameMap.get?_insert]
  split <;> simp

end Settled

end Scopes

/-- Where a piece of program runs: in which scope, what names were seen there, in
what kind of function, and in the initializer of which variable. -/
structure Place where
  scope : ScopeRef
  names : Scopes
  context : FunctionContext
  pending : Option Token

/-- Whether a place is in a store as it was seen. -/
structure Place.Stands (p : Place) (s : Store) : Prop where
  models : s.Models p.scope p.names
  settled : p.names.Settled p.pending
  exact : ∀ names ∈ p.names.head?, ∀ name, (s.local? p.scope name).isSome →
    names.get? name = some true

namespace Place

/-- The place of the initializer of a variable. -/
def declare (p : Place) (name : Token) : Place :=
  { p with names := p.names.mark name.lexeme false, pending := some name }

/-- The place behind the initializer of a variable. -/
def define (p : Place) (name : Token) : Place :=
  { p with names := p.names.mark name.lexeme true, pending := none }

/-- The place behind the declaration of a name. -/
def introduce (p : Place) (name : Token) : Place :=
  { p with names := p.names.introduce name }

theorem define_declare {p : Place} (h : p.pending = none) (name : Token) :
    (p.declare name).define name = p.introduce name := by
  rw [declare, define, introduce, h]
  rfl

end Place

namespace Place.Stands

variable {p : Place} {s s' : Store} {bound : ScopeRef}

theorem grow (h : p.Stands s) (hs : Store.Grows bound s s') (hlt : p.scope < bound) :
    p.Stands s' :=
  ⟨h.models.grow hs, h.settled,
    fun names hnames name hname => h.exact names hnames name (hs.gains _ hlt name hname)⟩

/-- A reference finds its name so many scopes out, unless it stands in the
initializer of that very name. -/
theorem find {name : String} {d : Nat} (h : p.Stands s) (hd : p.names.depth? name = some d) :
    ∃ target, s.ancestor? p.scope d = some target ∧
      ((s.local? target name).isSome ↔ ¬(d = 0 ∧ ∃ t ∈ p.pending, t.lexeme = name)) := by
  obtain ⟨target, names, htarget, hnames, hcontains, hready⟩ := h.models.find hd
  refine ⟨target, htarget, ?_⟩
  have hvalue (hne : names.get? name ≠ some false) : names.get? name = some true := by
    rw [NameMap.contains, Option.isSome_iff_exists] at hcontains
    obtain ⟨ready, hready⟩ := hcontains
    cases ready
    · exact absurd hready hne
    · exact hready
  cases d with
  | zero =>
      obtain rfl : p.scope = target := Option.some.inj htarget
      have hhead : names ∈ p.names.head? := by rw [List.head?_eq_getElem?]; exact hnames
      rw [← h.settled.head names hhead name]
      refine ⟨fun hlocal hfalse => ?_, fun hne => hready (hvalue fun hf => hne ⟨rfl, hf⟩)⟩
      rw [h.exact names hhead name hlocal] at hfalse
      cases hfalse.2
  | succ d =>
      have hmem : names ∈ p.names.tail := by
        apply List.mem_of_getElem? (i := d)
        rw [List.getElem?_tail]
        exact hnames
      simp [hready (hvalue (h.settled.tail names hmem name))]

theorem declare {name : Token} (h : p.Stands s) (hp : p.pending = none)
    (hnew : p.names.IsNew name) : (p.declare name).Stands s := by
  obtain ⟨scope, Γ, context, pending⟩ := p
  obtain rfl : pending = none := hp
  cases Γ with
  | nil => exact ⟨h.models, .nil, by simp [Place.declare, Scopes.mark]⟩
  | cons names Γ =>
      have hnone : names.get? name.lexeme = none := by
        simpa [NameMap.contains] using hnew names rfl
      refine ⟨⟨fun other hother => ?_, h.models.2⟩,
        ⟨Scopes.forall_mem_head?_cons Γ fun other => ?_, h.settled.tail⟩,
        Scopes.forall_mem_head?_cons Γ fun other hlocal => ?_⟩
      · rw [NameMap.get?_insert] at hother
        split at hother
        · cases hother
        · exact h.models.1 other hother
      · have hold := h.settled.head names rfl other
        rw [NameMap.get?_insert]
        split
        next heq => simp [Place.declare, heq]
        next hne => simp_all [Place.declare]
      · have hready := h.exact names rfl other hlocal
        rw [NameMap.get?_insert, if_neg ?_]
        · exact hready
        · rintro rfl
          rw [hnone] at hready
          cases hready

theorem define {name : Token} {v : Value} (h : p.Stands s) (hp : p.pending = some name) :
    (p.define name).Stands (s.define p.scope name.lexeme v) := by
  obtain ⟨scope, Γ, context, pending⟩ := p
  obtain rfl : pending = some name := hp
  have hgrows : Store.Grows scope s (s.define scope name.lexeme v) := .define
  cases Γ with
  | nil => exact ⟨h.models.grow hgrows, .nil, by simp [Place.define, Scopes.mark]⟩
  | cons names Γ =>
      have hlt := h.models.lt
      refine ⟨⟨fun other hother => ?_, (h.models.grow hgrows).2⟩,
        ⟨Scopes.forall_mem_head?_cons Γ fun other => ?_, h.settled.tail⟩,
        Scopes.forall_mem_head?_cons Γ fun other hlocal => ?_⟩
      · rw [NameMap.get?_insert] at hother
        change ((s.define scope name.lexeme v).local? scope other).isSome
        split at hother
        next heq => rw [← heq, Store.local?_define_self hlt]; rfl
        next hne =>
          rw [Store.local?_define_of_ne fun heq => hne heq.2]
          exact h.models.1 other hother
      · have hold := h.settled.head names rfl other
        rw [NameMap.get?_insert]
        split
        next => simp [Place.define]
        next hne => simp_all [Place.define]
      · rw [NameMap.get?_insert]
        split
        next => rfl
        next hne =>
          apply h.exact names rfl other
          rwa [Store.local?_define_of_ne fun heq => hne heq.2] at hlocal

/-- A name is declared and at once given a value. -/
theorem introduce {name : Token} {v : Value} (h : p.Stands s) (hp : p.pending = none)
    (hnew : p.names.IsNew name) :
    (p.introduce name).Stands (s.define p.scope name.lexeme v) := by
  rw [← Place.define_declare hp]
  exact (h.declare hp hnew).define rfl

/-- A new scope is opened with names that all have values. -/
theorem enter {scope : ScopeRef} {Γ : Scopes} {names : NameMap Bool} {bindings : NameMap Value}
    {context : FunctionContext} (h : s.Models scope Γ) (hΓ : Γ.Settled none)
    (hfalse : ∀ name, names.get? name ≠ some false)
    (htrue : ∀ name, names.get? name = some true ↔ (bindings.get? name).isSome) :
    Place.Stands ⟨s.scopes.size, names :: Γ, context, none⟩
      (s.newScope bindings (some scope)).2 := by
  refine ⟨h.newScope names bindings fun name => (htrue name).mp, hΓ.cons hfalse,
    Scopes.forall_mem_head?_cons Γ fun name hlocal => ?_⟩
  rw [Store.local?_newScope, if_pos rfl] at hlocal
  exact (htrue name).mpr hlocal

end Place.Stands

/-! ### Parameters -/

/-- What a call holds: its arguments, by the names of the parameters. -/
def NameMap.ofArguments (parameters : List Token) (arguments : List Value) : NameMap Value :=
  (parameters.zip arguments).foldl (fun bindings p => bindings.insert p.1.lexeme p.2) .empty

theorem NameMap.of_get?_foldl_insert {pairs : List (Token × Value)} {bindings : NameMap Value}
    {name : String} {v : Value}
    (h : (pairs.foldl (fun bindings p => bindings.insert p.1.lexeme p.2) bindings).get? name
      = some v) :
    (∃ p ∈ pairs, p.1.lexeme = name ∧ p.2 = v) ∨ bindings.get? name = some v := by
  induction pairs generalizing bindings with
  | nil => exact .inr h
  | cons p pairs ih =>
      obtain ⟨q, hq, hname, hv⟩ | h := ih h
      · exact .inl ⟨q, List.mem_cons_of_mem _ hq, hname, hv⟩
      · rw [get?_insert] at h
        split at h
        next heq => exact .inl ⟨p, List.mem_cons_self, heq, Option.some.inj h⟩
        next => exact .inr h

theorem NameMap.of_get?_ofArguments {parameters : List Token} {arguments : List Value}
    {name : String} {v : Value} (h : (ofArguments parameters arguments).get? name = some v) :
    (∃ p ∈ parameters, p.lexeme = name) ∧ v ∈ arguments := by
  obtain ⟨q, hq, rfl, rfl⟩ | h := of_get?_foldl_insert h
  · obtain ⟨hparameter, hargument⟩ := List.of_mem_zip hq
    exact ⟨⟨q.1, hparameter, rfl⟩, hargument⟩
  · cases h

theorem Scopes.foldl_introduce_cons (Γ : Scopes) {parameters : List Token}
    {arguments : List Value} (hlen : arguments.length = parameters.length)
    {names : NameMap Bool} {bindings : NameMap Value}
    (hfalse : ∀ name, names.get? name ≠ some false)
    (htrue : ∀ name, names.get? name = some true ↔ (bindings.get? name).isSome) :
    ∃ names', parameters.foldl Scopes.introduce (names :: Γ) = names' :: Γ ∧
      (∀ name, names'.get? name ≠ some false) ∧
      ∀ name, names'.get? name = some true ↔
        (((parameters.zip arguments).foldl
          (fun bindings p => bindings.insert p.1.lexeme p.2) bindings).get? name).isSome := by
  induction parameters generalizing arguments names bindings with
  | nil => exact ⟨names, rfl, hfalse, htrue⟩
  | cons p parameters ih =>
      cases arguments with
      | nil => cases hlen
      | cons v arguments =>
          have hfalse' (name : String) :
              ((names.insert p.lexeme false).insert p.lexeme true).get? name ≠ some false := by
            rw [NameMap.get?_insert, NameMap.get?_insert]
            split
            · simp
            · exact hfalse name
          have htrue' (name : String) :
              ((names.insert p.lexeme false).insert p.lexeme true).get? name = some true ↔
                ((bindings.insert p.lexeme v).get? name).isSome := by
            rw [NameMap.get?_insert, NameMap.get?_insert, NameMap.get?_insert]
            split
            · simp
            · exact htrue name
          exact ih (Nat.succ.inj hlen) hfalse' htrue'

/-- The scope of a call holds the parameters, all of which are ready. -/
theorem Scopes.foldl_introduce_empty (Γ : Scopes) {parameters : List Token}
    {arguments : List Value} (hlen : arguments.length = parameters.length) :
    ∃ names, parameters.foldl Scopes.introduce (.empty :: Γ) = names :: Γ ∧
      (∀ name, names.get? name ≠ some false) ∧
      ∀ name, names.get? name = some true ↔
        ((NameMap.ofArguments parameters arguments).get? name).isSome :=
  Scopes.foldl_introduce_cons Γ hlen (by simp) (by simp)

end Lox
