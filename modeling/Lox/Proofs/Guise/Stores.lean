import Lox.Proofs.Guise.Trees
import Lox.Proofs.Scoping.Sound
import Mathlib.Logic.Function.Basic

/-!
# Stores that are alike

Two stores are alike if they hold the same up to the guise of the programs that filled
them: the same instances and identities, and scopes that link in the same way, each with
the same values under the names that it tells. Functions are alike if their declarations
are, told in scopes that are marked as those are in which they were made.

## Implementation notes

Every scope of the first store is marked when it is made. A mark says whether the scope
of the other store exchanges the two names, and it is never changed.
-/

namespace Lox

/-! ## Marks -/

/-- Which scopes exchange the two names. -/
abbrev Marks := ScopeRef → Bool

namespace Store

/-- The scopes on the way out to the globals are marked like those around a piece of a
program. -/
def Marked (s : Store) (M : Marks) : ScopeRef → List Bool → Prop
  | scope, [] => scope = globals
  | scope, b :: K => M scope = b ∧ ∃ outer, s.enclosing? scope = some outer ∧ s.Marked M outer K

/-- A later store has all scopes of an earlier one, with their names and marks. -/
structure Prolongs (s : Store) (M : Marks) (s' : Store) (M' : Marks) : Prop where
  grows : Grows 0 s s'
  marks : ∀ scope < s.scopes.size, M' scope = M scope

variable {s s' s'' : Store} {M M' M'' : Marks} {scope : ScopeRef} {K : List Bool}

namespace Prolongs

theorem of_grows (h : Grows 0 s s') : s.Prolongs M s' M :=
  ⟨h, fun _ _ => rfl⟩

theorem of_scopes_eq (h : s'.scopes = s.scopes) : s.Prolongs M s' M :=
  .of_grows (.of_scopes_eq h)

theorem define {name : String} {v : Value} : s.Prolongs M (s.define scope name v) M :=
  .of_grows (Grows.define.weaken (Nat.zero_le _))

theorem newScope (bindings : NameMap Value) (enclosing : Option ScopeRef) (b : Bool) :
    s.Prolongs M (s.newScope bindings enclosing).2 (Function.update M s.scopes.size b) where
  grows := Grows.newScope.weaken (Nat.zero_le _)
  marks _ hlt := Function.update_of_ne (Nat.ne_of_lt hlt) _ _

theorem trans (h : s.Prolongs M s' M') (h' : s'.Prolongs M' s'' M'') : s.Prolongs M s'' M'' where
  grows := h.grows.trans h'.grows
  marks scope hlt :=
    (h'.marks scope (Nat.lt_of_lt_of_le hlt h.grows.size)).trans (h.marks scope hlt)

end Prolongs

namespace Marked

theorem prolong (h : s.Marked M scope K) (hs : s.Prolongs M s' M') : s'.Marked M' scope K := by
  induction K generalizing scope with
  | nil => exact h
  | cons b K ih =>
    obtain ⟨hmark, outer, houter, hK⟩ := h
    have hlt : scope < s.scopes.size := lt_of_enclosing? houter
    exact ⟨(hs.marks scope hlt).trans hmark, outer,
      (hs.grows.enclosing scope hlt).trans houter, ih hK⟩

/-- A new scope is marked as it is meant to be. -/
theorem newScope (h : s.Marked M scope K) (bindings : NameMap Value) (b : Bool) :
    (s.newScope bindings (some scope)).2.Marked (Function.update M s.scopes.size b)
      s.scopes.size (b :: K) := by
  refine ⟨Function.update_self _ _ _, scope, ?_, h.prolong (.newScope _ _ _)⟩
  rw [enclosing?_newScope, if_pos rfl]

theorem lt (h : s.Marked M scope K) (hpos : globals < s.scopes.size) : scope < s.scopes.size := by
  cases K with
  | nil =>
    obtain rfl : scope = globals := h
    exact hpos
  | cons b K =>
    obtain ⟨-, outer, houter, -⟩ := h
    exact lt_of_enclosing? houter

theorem mark (h : s.Marked M scope K) (hplain : M globals = false) : M scope = K.headD false := by
  cases K with
  | nil =>
    obtain rfl : scope = globals := h
    exact hplain
  | cons b K => exact h.1

end Marked

end Store

/-! ## Values -/

section

variable (G : Guise) (s : Store) (M : Marks)

/-- Closures that are alike. The declaration stands in the scopes around the closure's
own; of a method, these are inside one that will hold its receiver. -/
structure Closure.Alike (given : List Bool) (c c' : Closure) : Prop where
  identity : c'.identity = c.identity
  scope : c'.scope = c.scope + G.shift
  isInitializer : c'.isInitializer = c.isInitializer
  decl : ∃ K, s.Marked M c.scope K ∧ c.decl.Alike G (given ++ K) c'.decl

/-- Classes that are alike, with those above them. -/
inductive Class.Alike : Class → Class → Prop
  | base {identity identity' : Nat} (hidentity : identity' = identity) (name : String)
      {ms ms' : List Closure} (hms : List.Forall₂ (Closure.Alike G s M [false]) ms ms') :
      Alike ⟨identity, name, none, ms⟩ ⟨identity', name, none, ms'⟩
  | derived {identity identity' : Nat} (hidentity : identity' = identity) (name : String)
      {c c' : Class} {ms ms' : List Closure} (hc : Alike c c')
      (hms : List.Forall₂ (Closure.Alike G s M [false]) ms ms') :
      Alike ⟨identity, name, some c, ms⟩ ⟨identity', name, some c', ms'⟩

/-- Values that are alike. -/
inductive Value.Alike : Value → Value → Prop
  | nil : Alike .nil .nil
  | bool (b : Bool) : Alike (.bool b) (.bool b)
  | number (x : Float) : Alike (.number x) (.number x)
  | string (text : String) : Alike (.string text) (.string text)
  | function {c c' : Closure} (hc : c.Alike G s M [] c') : Alike (.function c) (.function c')
  | cls {c c' : Class} (hc : c.Alike G s M c') : Alike (.cls c) (.cls c')
  | object (ref : InstanceRef) : Alike (.object ref) (.object ref)

/-- Flows that are alike. -/
inductive Flow.Alike : Flow → Flow → Prop
  | normal : Alike .normal .normal
  | returned {v v' : Value} (hv : v.Alike G s M v') : Alike (.returned v) (.returned v')

/-- Results of operators that are alike: the same cause to stop, or values that are alike. -/
inductive AlikeResults : Except RuntimeCause Value → Except RuntimeCause Value → Prop
  | error (cause : RuntimeCause) : AlikeResults (.error cause) (.error cause)
  | ok {v v' : Value} (hv : v.Alike G s M v') : AlikeResults (.ok v) (.ok v')

/-- Properties of instances that are alike. -/
inductive Store.Property.Alike : Store.Property → Store.Property → Prop
  | field {v v' : Value} (hv : v.Alike G s M v') : Alike (.field v) (.field v')
  | method {m m' : Closure} (hm : m.Alike G s M [false] m') : Alike (.method m) (.method m')

/-- Scopes that are alike, of which the other exchanges the two names or does not. -/
structure Scope.Alike (b : Bool) (sc sc' : Scope) : Prop where
  bindings : ∀ name, Option.Rel (Value.Alike G s M) (sc.bindings.get? name)
    (sc'.bindings.get? (G.name b name))
  enclosing : ∀ outer, sc.enclosing = some outer → sc'.enclosing = some (outer + G.shift)

/-- Instances that are alike. -/
structure Instance.Alike (i i' : Instance) : Prop where
  cls : i.cls.Alike G s M i'.cls
  fields : ∀ name, Option.Rel (Value.Alike G s M) (i.fields.get? name) (i'.fields.get? name)

/-- Stores that are alike. -/
structure Store.Alike (s' : Store) : Prop where
  size : s'.scopes.size = s.scopes.size + G.shift
  scope : ∀ scope, Option.Rel (Scope.Alike G s M (M scope)) s.scopes[scope]?
    s'.scopes[scope + G.shift]?
  instances : ∀ object : InstanceRef, Option.Rel (Instance.Alike G s M) s.instances[object]?
    s'.instances[object]?
  count : s'.instances.size = s.instances.size
  identity : s'.nextIdentity = s.nextIdentity
  pos : Store.globals < s.scopes.size
  plain : M Store.globals = false
  top : s.enclosing? Store.globals = none
  top' : G.wrapped = false → s'.enclosing? Store.globals = none

end

variable {G : Guise} {s t s' : Store} {M N : Marks}

/-! ### Later on -/

theorem Closure.Alike.prolong {given : List Bool} {c c' : Closure} (h : c.Alike G s M given c')
    (hs : s.Prolongs M t N) : c.Alike G t N given c' := by
  obtain ⟨K, hK, hdecl⟩ := h.decl
  exact ⟨h.identity, h.scope, h.isInitializer, K, hK.prolong hs, hdecl⟩

theorem Class.Alike.prolong {c c' : Class} (h : c.Alike G s M c') (hs : s.Prolongs M t N) :
    c.Alike G t N c' := by
  induction h with
  | base hidentity name hms => exact .base hidentity name (hms.imp fun _ _ hm => hm.prolong hs)
  | derived hidentity name _ hms ih =>
    exact .derived hidentity name ih (hms.imp fun _ _ hm => hm.prolong hs)

theorem Value.Alike.prolong {v v' : Value} (h : v.Alike G s M v') (hs : s.Prolongs M t N) :
    v.Alike G t N v' := by
  cases h with
  | function hc => exact .function (hc.prolong hs)
  | cls hc => exact .cls (hc.prolong hs)
  | _ => constructor

/-- What two optional things have in common, by what each has. -/
theorem optionRel_imp {α β : Type} {R R' : α → β → Prop} {a : Option α} {b : Option β}
    (h : Option.Rel R a b) (himp : ∀ a b, R a b → R' a b) : Option.Rel R' a b := by
  cases h with
  | none => exact .none
  | some h => exact .some (himp _ _ h)

theorem Scope.Alike.prolong {b : Bool} {sc sc' : Scope} (h : sc.Alike G s M b sc')
    (hs : s.Prolongs M t N) : sc.Alike G t N b sc' :=
  ⟨fun name => optionRel_imp (h.bindings name) fun _ _ hv => hv.prolong hs, h.enclosing⟩

theorem Instance.Alike.prolong {i i' : Instance} (h : i.Alike G s M i')
    (hs : s.Prolongs M t N) : i.Alike G t N i' :=
  ⟨h.cls.prolong hs, fun name => optionRel_imp (h.fields name) fun _ _ hv => hv.prolong hs⟩

/-! ### Looking at values -/

namespace Class.Alike

variable {c c' : Class}

theorem name (h : c.Alike G s M c') : c'.name = c.name := by
  cases h <;> rfl

theorem identity (h : c.Alike G s M c') : c'.identity = c.identity := by
  cases h <;> assumption

theorem ownMethod? {ms ms' : List Closure}
    (h : List.Forall₂ (Closure.Alike G s M [false]) ms ms') (name : String) :
    Option.Rel (Closure.Alike G s M [false]) (Class.ownMethod? ms name)
      (Class.ownMethod? ms' name) := by
  have hreverse := List.rel_reverse h
  unfold Class.ownMethod?
  generalize ms.reverse = ms at hreverse ⊢
  generalize ms'.reverse = ms' at hreverse ⊢
  induction hreverse with
  | nil => exact .none
  | @cons m m' ms ms' hm _ ih =>
    have hname : m'.name = m.name := by
      obtain ⟨K, -, hdecl⟩ := hm.decl
      rw [Closure.name, Closure.name, hdecl.name]
    rw [List.find?_cons, List.find?_cons, hname]
    cases m.name == name with
    | true => exact .some hm
    | false => exact ih

/-- What is looked up in classes that are alike is alike. -/
theorem method? (h : c.Alike G s M c') (name : String) :
    Option.Rel (Closure.Alike G s M [false]) (c.method? name) (c'.method? name) := by
  induction h with
  | base _ _ hms =>
    rw [Class.method?, Class.method?]
    exact ownMethod? hms name
  | @derived _ _ _ _ c c' ms ms' _ hms ih =>
    rw [Class.method?, Class.method?]
    have hown := ownMethod? hms name
    generalize Class.ownMethod? ms name = m at hown ⊢
    generalize Class.ownMethod? ms' name = m' at hown ⊢
    cases hown with
    | none => exact ih
    | some hm => exact .some hm

end Class.Alike

theorem Closure.Alike.arity {given : List Bool} {c c' : Closure} (h : c.Alike G s M given c') :
    c'.arity = c.arity := by
  obtain ⟨K, -, hdecl⟩ := h.decl
  exact hdecl.length_parameters

namespace Value.Alike

variable {v v' w w' : Value}

theorem of_literal (l : Literal) : (Value.ofLiteral l).Alike G s M (.ofLiteral l) := by
  cases l <;> constructor

theorem isTruthy (h : v.Alike G s M v') : v'.isTruthy = v.isTruthy := by
  cases h <;> rfl

theorem equals (h : v.Alike G s M v') (h' : w.Alike G s M w') : v'.equals w' = v.equals w := by
  cases h with
  | function hc =>
    cases h' with
    | function hd => rw [Value.equals, Value.equals, hc.identity, hd.identity]
    | _ => rfl
  | cls hc =>
    cases h' with
    | cls hd => rw [Value.equals, Value.equals, hc.identity, hd.identity]
    | _ => rfl
  | _ => cases h' <;> rfl

theorem arity? (h : v.Alike G s M v') : Machine.arity? v' = Machine.arity? v := by
  cases h with
  | function hc => exact congrArg some hc.arity
  | @cls c c' hc =>
    have hmethod := hc.method? initializerName
    rw [Machine.arity?, Machine.arity?]
    generalize c.method? initializerName = m at hmethod ⊢
    generalize c'.method? initializerName = m' at hmethod ⊢
    cases hmethod with
    | none => rfl
    | some hm => exact congrArg some hm.arity
  | _ => rfl

theorem unary (op : UnaryOp) (h : v.Alike G s M v') :
    AlikeResults G s M (op.apply v) (op.apply v') := by
  cases op with
  | not =>
    rw [UnaryOp.apply, UnaryOp.apply, h.isTruthy]
    exact .ok (.bool _)
  | negate =>
    cases h with
    | number x => exact .ok (.number _)
    | _ => exact .error _

theorem onNumbers {result : Float → Float → Value} (h : v.Alike G s M v') (h' : w.Alike G s M w')
    (hresult : ∀ x y, (result x y).Alike G s M (result x y)) :
    AlikeResults G s M (onNumbers result v w) (onNumbers result v' w') := by
  cases h with
  | number x =>
    cases h' with
    | number y => exact .ok (hresult x y)
    | _ => exact .error _
  | _ => exact .error _

theorem sum (h : v.Alike G s M v') (h' : w.Alike G s M w') :
    AlikeResults G s M (Lox.sum v w) (Lox.sum v' w') := by
  cases h with
  | number x =>
    cases h' with
    | number y => exact .ok (.number _)
    | _ => exact .error _
  | string x =>
    cases h' with
    | string y => exact .ok (.string _)
    | _ => exact .error _
  | _ => exact .error _

theorem binary (op : BinaryOp) (h : v.Alike G s M v') (h' : w.Alike G s M w') :
    AlikeResults G s M (op.apply v w) (op.apply v' w') := by
  cases op with
  | add => exact h.sum h'
  | equal | notEqual =>
    simp only [BinaryOp.apply, h.equals h']
    exact .ok (.bool _)
  | subtract | multiply | divide => exact h.onNumbers h' fun _ _ => .number _
  | less | lessEqual | greater | greaterEqual => exact h.onNumbers h' fun _ _ => .bool _

theorem isDecidedBy (op : LogicalOp) (h : v.Alike G s M v') :
    op.isDecidedBy v' = op.isDecidedBy v := by
  cases op <;> simp only [LogicalOp.isDecidedBy, h.isTruthy]

end Value.Alike

namespace Store.Alike

variable {scope : ScopeRef} {name : String}

/-! ### Looking into stores -/

theorem local? (h : s.Alike G M s') (scope : ScopeRef) (name : String) :
    Option.Rel (Value.Alike G s M) (s.local? scope name)
      (s'.local? (scope + G.shift) (G.name (M scope) name)) := by
  have hscope := h.scope scope
  unfold Store.local?
  generalize s.scopes[scope]? = sc at hscope ⊢
  generalize s'.scopes[scope + G.shift]? = sc' at hscope ⊢
  cases hscope with
  | none => exact .none
  | some hsc => exact hsc.bindings name

theorem enclosing? {outer : ScopeRef} (h : s.Alike G M s') (houter : s.enclosing? scope = some outer) :
    s'.enclosing? (scope + G.shift) = some (outer + G.shift) := by
  have hscope := h.scope scope
  unfold Store.enclosing? at houter ⊢
  generalize s.scopes[scope]? = sc at hscope houter
  generalize s'.scopes[scope + G.shift]? = sc' at hscope ⊢
  cases hscope with
  | none => cases houter
  | some hsc => exact hsc.enclosing outer houter

theorem field? (h : s.Alike G M s') (object : InstanceRef) (name : String) :
    Option.Rel (Value.Alike G s M) (s.field? object name) (s'.field? object name) := by
  have hinstance := h.instances object
  unfold Store.field?
  generalize s.instances[object]? = i at hinstance ⊢
  generalize s'.instances[object]? = i' at hinstance ⊢
  cases hinstance with
  | none => exact .none
  | some hi => exact hi.fields name

theorem class? (h : s.Alike G M s') (object : InstanceRef) :
    Option.Rel (Class.Alike G s M) (s.class? object) (s'.class? object) := by
  have hinstance := h.instances object
  unfold Store.class?
  generalize s.instances[object]? = i at hinstance ⊢
  generalize s'.instances[object]? = i' at hinstance ⊢
  cases hinstance with
  | none => exact .none
  | some hi => exact .some hi.cls

/-- Values that are alike are shown by the same text. -/
theorem display (h : s.Alike G M s') {v v' : Value} (hv : v.Alike G s M v') :
    s'.display v' = s.display v := by
  cases hv with
  | bool b => cases b <;> rfl
  | function hc =>
    obtain ⟨K, -, hdecl⟩ := hc.decl
    rw [Store.display, Store.display, Closure.name, Closure.name, hdecl.name]
  | cls hc => exact hc.name
  | object ref =>
    have hclass := h.class? ref
    rw [Store.display, Store.display]
    generalize s.class? ref = c at hclass ⊢
    generalize s'.class? ref = c' at hclass ⊢
    cases hclass with
    | none => rfl
    | some hc => simp only [hc.name]
  | _ => rfl

theorem property? (h : s.Alike G M s') (object : InstanceRef) (name : String) :
    Option.Rel (Property.Alike G s M) (s.property? object name) (s'.property? object name) := by
  have hfield := h.field? object name
  have hclass := h.class? object
  unfold Store.property?
  generalize s.field? object name = f at hfield ⊢
  generalize s'.field? object name = f' at hfield ⊢
  cases hfield with
  | some hv => exact .some (.field hv)
  | none =>
    generalize s.class? object = c at hclass ⊢
    generalize s'.class? object = c' at hclass ⊢
    cases hclass with
    | none => exact .none
    | @some c c' hc =>
      have hmethod := hc.method? name
      simp only [Option.bind_some]
      generalize c.method? name = m at hmethod ⊢
      generalize c'.method? name = m' at hmethod ⊢
      cases hmethod with
      | none => exact .none
      | some hm => exact .some (.method hm)

/-- The scopes on the way out correspond to each other. -/
theorem ancestor? (h : s.Alike G M s') {K : List Bool} {d : Nat} {b : Bool}
    (hK : s.Marked M scope K) (hd : K[d]? = some b) :
    ∃ target, s.ancestor? scope d = some target ∧
      s'.ancestor? (scope + G.shift) d = some (target + G.shift) ∧ M target = b := by
  induction K generalizing scope d with
  | nil => cases hd
  | cons c K ih =>
    obtain ⟨hmark, outer, houter, hK⟩ := hK
    cases d with
    | zero =>
      obtain rfl : c = b := Option.some.inj hd
      exact ⟨scope, rfl, rfl, hmark⟩
    | succ d =>
      obtain ⟨target, htarget, htarget', hb⟩ := ih hK hd
      refine ⟨target, ?_, ?_, hb⟩
      · rw [Store.ancestor?, houter]
        exact htarget
      · rw [Store.ancestor?, h.enclosing? houter]
        exact htarget'

/-- The way out leads to what are the globals of the first store. -/
theorem ancestor?_top (h : s.Alike G M s') {K : List Bool} (hK : s.Marked M scope K) :
    s'.ancestor? (scope + G.shift) K.length = some (Store.globals + G.shift) := by
  induction K generalizing scope with
  | nil =>
    obtain rfl : scope = Store.globals := hK
    rfl
  | cons b K ih =>
    obtain ⟨-, outer, houter, hK⟩ := hK
    rw [List.length_cons, Store.ancestor?, h.enclosing? houter]
    exact ih hK

end Store.Alike

end Lox
