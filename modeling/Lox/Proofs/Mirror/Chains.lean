import Lox.Proofs.Mirror.Visited
import Lox.Proofs.Scoping.Sound
import Mathlib.Logic.Function.Basic

/-!
# Chains of scopes and the texts they come from

Each scope of a store is labelled with the names that its text declares, and
holds no others. A chain of scopes up to the globals is labelled with texts as
the walk had them, and a function is `Mirrored` if its scope is at the end of such
a chain for the scopes in which its declaration was visited.

## Implementation notes

A scope gets its label when it is made and keeps it, however many names it comes
to hold later and whoever else captures it. The globals have no label, since
anything may be declared there.
-/

namespace Lox

/-- The names that the text of each scope declares. -/
abbrev Labels := ScopeRef → List String

/-- A label for one more scope. -/
def Labels.push (L : Labels) (scope : ScopeRef) (text : List String) : Labels :=
  Function.update L scope text

namespace Store

/-- A chain of scopes up to the globals is labelled with texts. -/
def Labelled (s : Store) (L : Labels) : ScopeRef → Texts → Prop
  | scope, [] => scope = globals
  | scope, text :: T => scope ≠ globals ∧ L scope = text ∧
      ∃ outer, s.enclosing? scope = some outer ∧ s.Labelled L outer T

/-- A later store has all scopes of an earlier one, with their names and labels. -/
structure Spreads (s : Store) (L : Labels) (s' : Store) (L' : Labels) : Prop where
  grows : Grows 0 s s'
  labels : ∀ scope < s.scopes.size, L' scope = L scope

namespace Spreads

variable {s s' s'' : Store} {L L' L'' : Labels} {bound : ScopeRef}

theorem of_grows (h : Grows bound s s') : s.Spreads L s' L :=
  ⟨h.weaken (Nat.zero_le _), fun _ _ => rfl⟩

theorem of_scopes_eq (h : s'.scopes = s.scopes) : s.Spreads L s' L :=
  ⟨.of_scopes_eq h, fun _ _ => rfl⟩

theorem trans (h : s.Spreads L s' L') (h' : s'.Spreads L' s'' L'') : s.Spreads L s'' L'' where
  grows := h.grows.trans h'.grows
  labels scope hlt :=
    (h'.labels scope (Nat.lt_of_lt_of_le hlt h.grows.size)).trans (h.labels scope hlt)

theorem newScope (bindings : NameMap Value) (enclosing : Option ScopeRef) (text : List String) :
    s.Spreads L (s.newScope bindings enclosing).2 (L.push s.scopes.size text) where
  grows := Grows.newScope.weaken (Nat.zero_le _)
  labels _ hlt := Function.update_of_ne (Nat.ne_of_lt hlt) _ _

end Spreads

namespace Labelled

variable {s s' : Store} {L L' : Labels} {scope : ScopeRef} {T : Texts}

theorem spread (h : s.Labelled L scope T) (hs : s.Spreads L s' L') : s'.Labelled L' scope T := by
  induction T generalizing scope with
  | nil => exact h
  | cons text T ih =>
    obtain ⟨hne, hlabel, outer, houter, hT⟩ := h
    have hlt : scope < s.scopes.size := lt_of_enclosing? houter
    exact ⟨hne, (hs.labels scope hlt).trans hlabel, outer,
      (hs.grows.enclosing scope hlt).trans houter, ih hT⟩

/-- A new scope is labelled with its text. -/
theorem newScope (h : s.Labelled L scope T) (hpos : globals < s.scopes.size)
    (bindings : NameMap Value) (text : List String) :
    (s.newScope bindings (some scope)).2.Labelled (L.push s.scopes.size text) s.scopes.size
      (text :: T) := by
  refine ⟨Nat.ne_of_gt hpos, Function.update_self _ _ _, scope, ?_, h.spread (.newScope _ _ _)⟩
  rw [enclosing?_newScope, if_pos rfl]

/-- What a scope is labelled with, if it is not the globals. -/
theorem has (h : s.Labelled L scope T) {names : List String} (hnames : T.Has names)
    (hne : scope ≠ globals) : names ⊆ L scope := by
  cases T with
  | nil => exact absurd h hne
  | cons text T =>
    obtain ⟨-, rfl, -⟩ := h
    exact fun name hname => hnames (L scope) rfl name hname

end Labelled

/-! ## Readiness -/

namespace Models

variable {s : Store} {scope : ScopeRef} {Γ : Scopes} {name : String}

/-- Nothing is asked of a name that is declared only. -/
theorem declare (h : s.Models scope Γ) : s.Models scope (Γ.mark name false) := by
  cases Γ with
  | nil => exact h
  | cons names Γ =>
    refine ⟨fun other hother => ?_, h.2⟩
    rw [NameMap.get?_insert] at hother
    split at hother
    · cases hother
    · exact h.1 other hother

/-- A name is ready when its scope holds it. -/
theorem define {v : Value} (h : s.Models scope Γ) :
    (s.define scope name v).Models scope (Γ.mark name true) := by
  have hs : Grows scope s (s.define scope name v) := .define
  cases Γ with
  | nil => exact h.grow hs
  | cons names Γ =>
    refine ⟨fun other hother => ?_, (h.grow hs).2⟩
    rw [NameMap.get?_insert] at hother
    rw [local?_define h.lt]
    split at hother
    · rename_i heq
      rw [if_pos ⟨rfl, heq⟩]
      rfl
    · rename_i hne
      rw [if_neg fun heq => hne heq.2]
      exact h.1 other hother

theorem introduce {name : Token} {v : Value} (h : s.Models scope Γ) :
    (s.define scope name.lexeme v).Models scope (Γ.introduce name) :=
  h.declare.define

end Models

end Store

/-! ## Values -/

section

variable (V : Visit → Prop) (s : Store) (L : Labels)

/-- The scope of a function is where its declaration was visited. -/
def Closure.Mirrored (c : Closure) : Prop :=
  ∃ Γ T, s.Models c.scope Γ ∧ s.Labelled L c.scope T ∧ c.decl.Visited V Γ T

/-- The scope of a method is around the one where its declaration was visited. -/
def Closure.MirroredMethod (c : Closure) : Prop :=
  ∃ Γ T, s.Models c.scope Γ ∧ s.Labelled L c.scope T ∧
    c.decl.Visited V (Γ.given .this) ([Keyword.this.text] :: T)

/-- The methods of a class, its own and those it inherits, are mirrored. -/
def Class.Mirrored : Class → Prop
  | ⟨_, _, none, methods⟩ => ∀ m ∈ methods, m.MirroredMethod V s L
  | ⟨_, _, some superclass, methods⟩ =>
      superclass.Mirrored ∧ ∀ m ∈ methods, m.MirroredMethod V s L

/-- The functions that a value consists of are mirrored. -/
def Value.Mirrored : Value → Prop
  | .function closure => closure.Mirrored V s L
  | .cls c => c.Mirrored V s L
  | _ => True

/-- A value that is on its way out is mirrored. -/
def Flow.Mirrored : Flow → Prop
  | .normal => True
  | .returned v => v.Mirrored V s L

/-- Everything in a store is mirrored, and scopes hold only what their labels say. -/
structure Store.Mirrored : Prop where
  value : ∀ scope name v, s.local? scope name = some v → v.Mirrored V s L
  field : ∀ object name v, s.field? object name = some v → v.Mirrored V s L
  cls : ∀ object c, s.class? object = some c → c.Mirrored V s L
  labelled : ∀ scope name, scope ≠ Store.globals → (s.local? scope name).isSome → name ∈ L scope
  top : s.enclosing? Store.globals = none
  pos : Store.globals < s.scopes.size

end

section

variable {V V' : Visit → Prop} {s s' : Store} {L L' : Labels}

theorem Closure.Mirrored.spread {c : Closure} (h : c.Mirrored V s L) (hV : ∀ v, V v → V' v)
    (hs : s.Spreads L s' L') : c.Mirrored V' s' L' := by
  obtain ⟨Γ, T, hmodels, hlabelled, hvisited⟩ := h
  exact ⟨Γ, T, hmodels.grow hs.grows, hlabelled.spread hs, hvisited.mono hV⟩

theorem Closure.MirroredMethod.spread {c : Closure} (h : c.MirroredMethod V s L)
    (hV : ∀ v, V v → V' v) (hs : s.Spreads L s' L') : c.MirroredMethod V' s' L' := by
  obtain ⟨Γ, T, hmodels, hlabelled, hvisited⟩ := h
  exact ⟨Γ, T, hmodels.grow hs.grows, hlabelled.spread hs, hvisited.mono hV⟩

theorem Class.Mirrored.spread (hV : ∀ v, V v → V' v) (hs : s.Spreads L s' L') :
    ∀ {c : Class}, c.Mirrored V s L → c.Mirrored V' s' L'
  | ⟨_, _, none, _⟩, h => fun m hm => (h m hm).spread hV hs
  | ⟨_, _, some _, _⟩, h => ⟨Class.Mirrored.spread hV hs h.1, fun m hm => (h.2 m hm).spread hV hs⟩

theorem Value.Mirrored.spread {v : Value} (h : v.Mirrored V s L) (hV : ∀ v, V v → V' v)
    (hs : s.Spreads L s' L') : v.Mirrored V' s' L' := by
  cases v with
  | function closure => exact Closure.Mirrored.spread h hV hs
  | cls c => exact Class.Mirrored.spread hV hs h
  | _ => trivial

theorem Value.Mirrored.later {v : Value} (h : v.Mirrored V s L) (hs : s.Spreads L s' L') :
    v.Mirrored V s' L' :=
  h.spread (fun _ => id) hs

theorem Store.Mirrored.mono (h : s.Mirrored V L) (hV : ∀ v, V v → V' v) : s.Mirrored V' L where
  value scope name v hv := (h.value scope name v hv).spread hV (.of_grows (.refl 0))
  field object name v hv := (h.field object name v hv).spread hV (.of_grows (.refl 0))
  cls object c hc := (h.cls object c hc).spread hV (.of_grows (.refl 0))
  labelled := h.labelled
  top := h.top
  pos := h.pos

/-- What is looked up in a mirrored class is a mirrored method. -/
theorem Class.Mirrored.method? {name : String} {m : Closure} :
    ∀ {c : Class}, c.Mirrored V s L → c.method? name = some m → m.MirroredMethod V s L
  | ⟨_, _, none, methods⟩, h, hm => by
      rw [Class.method?] at hm
      exact h m (List.mem_reverse.mp (List.mem_of_find?_eq_some hm))
  | ⟨_, _, some superclass, methods⟩, h, hm => by
      rw [Class.method?] at hm
      split at hm
      · rename_i found
        obtain rfl := Option.some.inj hm
        exact h.2 _ (List.mem_reverse.mp (List.mem_of_find?_eq_some found))
      · exact Class.Mirrored.method? h.1 hm

end

/-! ## Keeping a store mirrored -/

namespace Store.Mirrored

variable {V : Visit → Prop} {s s' : Store} {L : Labels} {name : String} {v : Value}

/-- Identities do not matter. -/
theorem of_eq (h : s.Mirrored V L) (hscopes : s'.scopes = s.scopes)
    (hinstances : s'.instances = s.instances) : s'.Mirrored V L := by
  have hs : s.Spreads L s' L := .of_scopes_eq hscopes
  constructor
  · intro scope name v hv
    rw [local?_of_scopes_eq hscopes] at hv
    exact (h.value scope name v hv).later hs
  · intro object name v hv
    rw [field?_of_instances_eq hinstances] at hv
    exact (h.field object name v hv).later hs
  · intro object c hc
    rw [class?_of_instances_eq hinstances] at hc
    exact (h.cls object c hc).spread (fun _ => id) hs
  · intro scope name hne hlocal
    rw [local?_of_scopes_eq hscopes] at hlocal
    exact h.labelled scope name hne hlocal
  · have htop := h.top
    unfold enclosing? at htop ⊢
    rwa [hscopes]
  · rw [hscopes]
    exact h.pos

/-- A scope comes to hold a name that its text declares. -/
theorem define {scope : ScopeRef} (h : s.Mirrored V L)
    (hlabel : scope ≠ globals → name ∈ L scope)
    (hv : v.Mirrored V (s.define scope name v) L) : (s.define scope name v).Mirrored V L := by
  have hs : s.Spreads L (s.define scope name v) L := .of_grows Grows.define
  constructor
  · intro target other w hw
    obtain ⟨-, -, rfl⟩ | hw := of_local?_define hw
    · exact hv
    · exact (h.value target other w hw).later hs
  · intro object other w hw
    exact (h.field object other w hw).later hs
  · intro object c hc
    exact (h.cls object c hc).spread (fun _ => id) hs
  · intro target other hne hlocal
    obtain ⟨w, hw⟩ := Option.isSome_iff_exists.mp hlocal
    obtain ⟨rfl, rfl, -⟩ | hw := of_local?_define hw
    · exact hlabel hne
    · exact h.labelled target other hne (by rw [hw]; rfl)
  · rw [enclosing?_define]
    exact h.top
  · rw [size_define]
    exact h.pos

theorem newScope (h : s.Mirrored V L) (bindings : NameMap Value) (enclosing : Option ScopeRef)
    (text : List String)
    (hvalue : ∀ name v, bindings.get? name = some v → v.Mirrored V s L ∧ name ∈ text) :
    (s.newScope bindings enclosing).2.Mirrored V (L.push s.scopes.size text) := by
  have hs : s.Spreads L (s.newScope bindings enclosing).2 (L.push s.scopes.size text) :=
    .newScope bindings enclosing text
  constructor
  · intro target other w hw
    rw [local?_newScope] at hw
    split at hw
    · exact (hvalue other w hw).1.later hs
    · exact (h.value target other w hw).later hs
  · intro object other w hw
    exact (h.field object other w hw).later hs
  · intro object c hc
    exact (h.cls object c hc).spread (fun _ => id) hs
  · intro target other hne hlocal
    obtain ⟨w, hw⟩ := Option.isSome_iff_exists.mp hlocal
    rw [local?_newScope] at hw
    split at hw
    · rename_i heq
      rw [heq, Labels.push, Function.update_self]
      exact (hvalue other w hw).2
    · rename_i hne'
      rw [Labels.push, Function.update_of_ne hne']
      exact h.labelled target other hne (by rw [hw]; rfl)
  · rw [enclosing?_newScope, if_neg (Nat.ne_of_lt h.pos)]
    exact h.top
  · rw [size_newScope]
    exact Nat.lt_succ_of_lt h.pos

theorem newInstance {c : Class} (h : s.Mirrored V L) (hc : c.Mirrored V s L) :
    (s.newInstance c).2.Mirrored V L := by
  have hs : s.Spreads L (s.newInstance c).2 L := .of_scopes_eq rfl
  constructor
  · intro scope name v hv
    exact (h.value scope name v hv).later hs
  · intro object name v hv
    exact (h.field object name v (of_field?_newInstance hv)).later hs
  · intro object d hd
    obtain rfl | hd := of_class?_newInstance hd
    · exact hc.spread (fun _ => id) hs
    · exact (h.cls object d hd).spread (fun _ => id) hs
  · exact h.labelled
  · exact h.top
  · exact h.pos

theorem setField {object : InstanceRef} (h : s.Mirrored V L) (hv : v.Mirrored V s L) :
    (s.setField object name v).Mirrored V L := by
  have hs : s.Spreads L (s.setField object name v) L :=
    .of_scopes_eq rfl
  constructor
  · intro scope name v hv
    exact (h.value scope name v hv).later hs
  · intro other field w hw
    obtain rfl | hw := of_field?_setField hw
    · exact hv.later hs
    · exact (h.field other field w hw).later hs
  · intro other d hd
    rw [class?_setField] at hd
    exact (h.cls other d hd).spread (fun _ => id) hs
  · exact h.labelled
  · exact h.top
  · exact h.pos

/-- Binding a mirrored method makes a mirrored function, around a scope that holds
the receiver alone. -/
theorem bindMethod {m : Closure} (h : s.Mirrored V L) (hm : m.MirroredMethod V s L)
    (object : InstanceRef) :
    ∃ L', s.Spreads L (s.bindMethod m object).2 L' ∧ (s.bindMethod m object).2.Mirrored V L' ∧
      (s.bindMethod m object).1.Mirrored V (s.bindMethod m object).2 L' := by
  obtain ⟨Γ, T, hmodels, hlabelled, hvisited⟩ := hm
  let s₁ := (s.newScope (NameMap.empty.insert Keyword.this.text (.object object))
    (some m.scope)).2
  have hstep : s₁.Spreads (L.push s.scopes.size [Keyword.this.text]) (s.bindMethod m object).2
      (L.push s.scopes.size [Keyword.this.text]) := .of_scopes_eq rfl
  refine ⟨L.push s.scopes.size [Keyword.this.text], (Spreads.newScope _ _ _).trans hstep, ?_, ?_⟩
  · refine of_eq (s := s₁) ?_ rfl rfl
    apply h.newScope
    intro name v hv
    obtain ⟨rfl, rfl⟩ := NameMap.get?_single_iff.mp hv
    exact ⟨trivial, List.mem_singleton_self _⟩
  · refine ⟨Γ.given .this, [Keyword.this.text] :: T, ?_, ?_, hvisited⟩
    · exact (hmodels.given .this (.object object)).grow hstep.grows
    · exact (hlabelled.newScope h.pos _ _).spread hstep

end Store.Mirrored

end Lox
