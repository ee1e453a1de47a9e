import Lox.Machine

/-!
# Values with other functions

A map of closures takes values to values, and stores to stores. No operation on them
notices it, as long as it keeps what operations look at: which closures are the same,
what they are called and how many arguments they take.
-/

namespace Lox

/-! ## Maps from names -/

/-- Values by name, each changed. -/
def NameMap.map {α β : Type} (f : α → β) (m : NameMap α) : NameMap β :=
  ⟨m.entries.map fun e => (e.1, f e.2)⟩

namespace NameMap

variable {α β γ : Type} (f : α → β)

theorem get?_map (m : NameMap α) (name : String) : (m.map f).get? name = (m.get? name).map f := by
  obtain ⟨entries⟩ := m
  change find? name (entries.map fun e => (e.1, f e.2)) = (find? name entries).map f
  induction entries with
  | nil => rfl
  | cons e entries ih =>
      rw [List.map_cons, find?, find?, ih]
      split <;> rfl

theorem map_insert (m : NameMap α) (name : String) (a : α) :
    (m.insert name a).map f = (m.map f).insert name (f a) := by
  obtain ⟨entries⟩ := m
  change (⟨(put name a entries).map fun e => (e.1, f e.2)⟩ : NameMap β) =
    ⟨put name (f a) (entries.map fun e => (e.1, f e.2))⟩
  congr 1
  induction entries with
  | nil => rfl
  | cons e entries ih =>
      rw [List.map_cons, put, put]
      split
      · rfl
      · rw [List.map_cons, ih]

theorem map_empty : (NameMap.empty : NameMap α).map f = .empty := rfl

theorem map_map (g : β → γ) (m : NameMap α) : (m.map f).map g = m.map (g ∘ f) := by
  simp [map]

theorem map_id (m : NameMap α) : m.map id = m := by
  simp [map]

end NameMap

/-! ## Values -/

/-- Whether a map of closures keeps what operations look at. -/
structure Closure.Keeps (f : Closure → Closure) : Prop where
  identity (c : Closure) : (f c).identity = c.identity
  name (c : Closure) : (f c).name = c.name
  arity (c : Closure) : (f c).arity = c.arity

section

variable (f : Closure → Closure)

/-- A class with other methods. -/
def Class.map : Class → Class
  | ⟨identity, name, none, methods⟩ => ⟨identity, name, none, methods.map f⟩
  | ⟨identity, name, some superclass, methods⟩ =>
      ⟨identity, name, some superclass.map, methods.map f⟩

/-- A value with other functions. -/
def Value.map : Value → Value
  | .function closure => .function (f closure)
  | .cls c => .cls (c.map f)
  | v => v

/-- A value on its way out, with other functions. -/
def Flow.map : Flow → Flow
  | .normal => .normal
  | .returned v => .returned (v.map f)

/-- An instance with other functions. -/
def Instance.map (i : Instance) : Instance :=
  ⟨i.cls.map f, i.fields.map (Value.map f)⟩

/-- A scope with other functions. -/
def Scope.map (sc : Scope) : Scope :=
  ⟨sc.bindings.map (Value.map f), sc.enclosing⟩

/-- A store with other functions. -/
def Store.map (s : Store) : Store :=
  ⟨s.scopes.map (Scope.map f), s.instances.map (Instance.map f), s.nextIdentity⟩

/-- What an instance has under a name, with other functions. -/
def Store.Property.map : Store.Property → Store.Property
  | .field v => .field (v.map f)
  | .method m => .method (f m)

end

variable {f : Closure → Closure}

@[simp] theorem Class.identity_map (c : Class) : (c.map f).identity = c.identity := by
  obtain ⟨_, _, _ | _, _⟩ := c <;> rfl

@[simp] theorem Class.name_map (c : Class) : (c.map f).name = c.name := by
  obtain ⟨_, _, _ | _, _⟩ := c <;> rfl

namespace Closure.Keeps

theorem ownMethod? (hf : Keeps f) (methods : List Closure) (name : String) :
    Class.ownMethod? (methods.map f) name = (Class.ownMethod? methods name).map f := by
  have hname : ((fun m : Closure => m.name == name) ∘ f) = fun m => m.name == name :=
    funext fun m => congrArg (· == name) (hf.name m)
  rw [Class.ownMethod?, Class.ownMethod?, ← List.map_reverse, List.find?_map, hname]

theorem method? (hf : Keeps f) (name : String) :
    ∀ c : Class, (c.map f).method? name = (c.method? name).map f
  | ⟨_, _, none, methods⟩ => by
      rw [Class.map, Class.method?, Class.method?, hf.ownMethod?]
  | ⟨_, _, some superclass, methods⟩ => by
      rw [Class.map, Class.method?, Class.method?, hf.ownMethod?, hf.method? name superclass]
      cases Class.ownMethod? methods name <;> rfl

end Closure.Keeps

namespace Value

@[simp] theorem map_ofLiteral (v : Literal) : (ofLiteral v).map f = ofLiteral v := by
  cases v <;> rfl

@[simp] theorem isTruthy_map (v : Value) : (v.map f).isTruthy = v.isTruthy := by
  cases v <;> rfl

theorem equals_map (hf : Closure.Keeps f) (v w : Value) : (v.map f).equals (w.map f) = v.equals w := by
  cases v <;> cases w <;> simp [Value.map, equals, hf.identity]

end Value

theorem UnaryOp.apply_map (op : UnaryOp) (v : Value) :
    op.apply (v.map f) = (op.apply v).map (Value.map f) := by
  cases op <;> cases v <;> rfl

theorem onNumbers_map {result : Float → Float → Value}
    (h : ∀ a b, (result a b).map f = result a b) (v w : Value) :
    onNumbers result (v.map f) (w.map f) = (onNumbers result v w).map (Value.map f) := by
  cases v <;> cases w <;> try rfl
  exact congrArg Except.ok (h _ _).symm

theorem BinaryOp.apply_map (hf : Closure.Keeps f) (op : BinaryOp) (v w : Value) :
    op.apply (v.map f) (w.map f) = (op.apply v w).map (Value.map f) := by
  cases op with
  | add => cases v <;> cases w <;> rfl
  | equal => exact congrArg (Except.ok ∘ Value.bool) (v.equals_map hf w)
  | notEqual => exact congrArg (Except.ok ∘ Value.bool ∘ not) (v.equals_map hf w)
  | _ => exact onNumbers_map (fun _ _ => rfl) v w

@[simp] theorem LogicalOp.isDecidedBy_map (op : LogicalOp) (v : Value) :
    op.isDecidedBy (v.map f) = op.isDecidedBy v := by
  cases op <;> simp [isDecidedBy]

theorem Machine.arity?_map (hf : Closure.Keeps f) (v : Value) : arity? (v.map f) = arity? v := by
  cases v with
  | function closure => exact congrArg some (hf.arity closure)
  | cls c =>
      rw [Value.map, arity?, arity?, hf.method?]
      cases c.method? initializerName with
      | none => rfl
      | some m => exact congrArg some (hf.arity m)
  | _ => rfl

/-! ## One map after another -/

section

variable (f) (g : Closure → Closure)

theorem Class.map_map : ∀ c : Class, (c.map f).map g = c.map (g ∘ f)
  | ⟨_, _, none, methods⟩ => by
      rw [Class.map, Class.map, Class.map, List.map_map]
  | ⟨_, _, some superclass, methods⟩ => by
      rw [Class.map, Class.map, Class.map, List.map_map, Class.map_map superclass]

theorem Class.map_id : ∀ c : Class, c.map id = c
  | ⟨_, _, none, methods⟩ => by rw [Class.map, List.map_id]
  | ⟨_, _, some superclass, methods⟩ => by rw [Class.map, List.map_id, Class.map_id superclass]

theorem Value.map_map (v : Value) : (v.map f).map g = v.map (g ∘ f) := by
  cases v <;> simp [Value.map, Class.map_map]

theorem Value.map_id (v : Value) : v.map id = v := by
  cases v <;> simp [Value.map, Class.map_id]

theorem Store.map_map (s : Store) : (s.map f).map g = s.map (g ∘ f) := by
  have hvalue : Value.map g ∘ Value.map f = Value.map (g ∘ f) := funext (Value.map_map f g)
  have hscope : Scope.map g ∘ Scope.map f = Scope.map (g ∘ f) := by
    funext sc
    simp [Scope.map, NameMap.map_map, hvalue]
  have hinstance : Instance.map g ∘ Instance.map f = Instance.map (g ∘ f) := by
    funext i
    simp [Instance.map, NameMap.map_map, hvalue, Class.map_map]
  simp [Store.map, hscope, hinstance]

theorem Store.map_id (s : Store) : s.map id = s := by
  have hvalue : Value.map id = id := funext Value.map_id
  have hscope : Scope.map id = id := by
    funext sc
    simp [Scope.map, NameMap.map_id, hvalue]
  have hinstance : Instance.map id = id := by
    funext i
    simp [Instance.map, NameMap.map_id, hvalue, Class.map_id]
  simp [Store.map, hscope, hinstance]

end

/-! ## Stores -/

theorem map_modify {α β : Type} {g : α → β} {change : α → α} {change' : β → β}
    (h : ∀ a, g (change a) = change' (g a)) (as : Array α) (i : Nat) :
    (as.modify i change).map g = (as.map g).modify i change' := by
  apply Array.ext_getElem?
  intro j
  rw [Array.getElem?_map, Array.getElem?_modify, Array.getElem?_modify, Array.getElem?_map]
  split
  · rw [Option.map_map, Option.map_map]
    congr 1
    funext a
    exact h a
  · rfl

namespace Store

variable (s : Store)

theorem enclosing?_map (scope : ScopeRef) : (s.map f).enclosing? scope = s.enclosing? scope := by
  rw [enclosing?, enclosing?, map, Array.getElem?_map]
  cases s.scopes[scope]? <;> rfl

theorem local?_map (scope : ScopeRef) (name : String) :
    (s.map f).local? scope name = (s.local? scope name).map (Value.map f) := by
  rw [local?, local?, map, Array.getElem?_map]
  cases s.scopes[scope]? with
  | none => rfl
  | some sc => exact sc.bindings.get?_map (Value.map f) name

theorem isSome_local?_map (scope : ScopeRef) (name : String) :
    ((s.map f).local? scope name).isSome = (s.local? scope name).isSome := by
  rw [local?_map, Option.isSome_map]

theorem ancestor?_map (d : Nat) (scope : ScopeRef) :
    (s.map f).ancestor? scope d = s.ancestor? scope d := by
  induction d generalizing scope with
  | zero => rfl
  | succ d ih =>
      rw [ancestor?, ancestor?, enclosing?_map]
      cases s.enclosing? scope with
      | none => rfl
      | some outer => exact ih outer

theorem ownerAt?_map (scope : ScopeRef) (d : Nat) (name : String) :
    (s.map f).ownerAt? scope d name = s.ownerAt? scope d name := by
  simp only [ownerAt?, ancestor?_map, isSome_local?_map]

theorem getAt?_map (scope : ScopeRef) (d : Nat) (name : String) :
    (s.map f).getAt? scope d name = (s.getAt? scope d name).map (Value.map f) := by
  simp only [getAt?, ownerAt?_map, local?_map, Option.map_bind]
  rfl

theorem ownerWithin?_map (name : String) (reach : Nat) (scope : ScopeRef) :
    (s.map f).ownerWithin? name reach scope = s.ownerWithin? name reach scope := by
  induction reach generalizing scope with
  | zero => rfl
  | succ reach ih =>
      rw [ownerWithin?, ownerWithin?, enclosing?_map, isSome_local?_map]
      cases s.enclosing? scope with
      | none => rfl
      | some outer => simp only [ih]

theorem owner?_map (scope : ScopeRef) (name : String) :
    (s.map f).owner? scope name = s.owner? scope name := by
  rw [owner?, ownerWithin?_map, owner?, map, Array.size_map]

theorem field?_map (object : InstanceRef) (name : String) :
    (s.map f).field? object name = (s.field? object name).map (Value.map f) := by
  rw [field?, field?, map, Array.getElem?_map]
  cases s.instances[object]? with
  | none => rfl
  | some i => exact i.fields.get?_map (Value.map f) name

theorem class?_map (object : InstanceRef) :
    (s.map f).class? object = (s.class? object).map (Class.map f) := by
  rw [class?, class?, map, Array.getElem?_map]
  cases s.instances[object]? <;> rfl

theorem property?_map (hf : Closure.Keeps f) (object : InstanceRef) (name : String) :
    (s.map f).property? object name = (s.property? object name).map (Property.map f) := by
  rw [property?, property?, field?_map, class?_map]
  cases s.field? object name with
  | some v => rfl
  | none =>
      cases s.class? object with
      | none => rfl
      | some c =>
          simp only [Option.map_some, Option.map_none, Option.bind_some, hf.method?]
          cases c.method? name <;> rfl

theorem display_map (hf : Closure.Keeps f) (v : Value) : (s.map f).display (v.map f) = s.display v := by
  cases v with
  | bool b => cases b <;> rfl
  | function closure =>
      change s!"<fn {(f closure).name}>" = s!"<fn {closure.name}>"
      rw [hf.name]
  | cls c => exact c.name_map
  | object ref =>
      change (s.map f).display (.object ref) = _
      rw [display, display, class?_map]
      cases s.class? ref with
      | none => rfl
      | some c => simp
  | _ => rfl

theorem map_newScope (bindings : NameMap Value) (enclosing : Option ScopeRef) :
    (s.map f).newScope (bindings.map (Value.map f)) enclosing =
      ((s.newScope bindings enclosing).1, (s.newScope bindings enclosing).2.map f) := by
  simp [newScope, map, Scope.map]

theorem map_newInstance (c : Class) :
    (s.map f).newInstance (c.map f) = ((s.newInstance c).1, (s.newInstance c).2.map f) := by
  simp [newInstance, map, Instance.map, NameMap.map_empty]

theorem map_define (scope : ScopeRef) (name : String) (v : Value) :
    (s.define scope name v).map f = (s.map f).define scope name (v.map f) := by
  simp only [define, map, mk.injEq, and_true]
  apply map_modify
  intro sc
  simp [Scope.map, NameMap.map_insert]

theorem map_setField (object : InstanceRef) (name : String) (v : Value) :
    (s.setField object name v).map f = (s.map f).setField object name (v.map f) := by
  simp only [setField, map, mk.injEq, true_and, and_true]
  apply map_modify
  intro i
  simp [Instance.map, NameMap.map_insert]

end Store

end Lox
