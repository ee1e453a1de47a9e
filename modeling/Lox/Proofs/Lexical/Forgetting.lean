import Lox.Proofs.Lexical.Mapping

/-!
# Values without scopes

A function of the machine is around a scope of its store; elsewhere the number of
that scope means nothing. Here values forget it, which no operation on values
notices.
-/

namespace Lox

/-! ## Values -/

/-- A function that is around no scope in particular. -/
def Closure.forget (c : Closure) : Closure :=
  { c with scope := 0 }

/-- A class whose methods are around no scope in particular. -/
def Class.forget : Class → Class
  | ⟨identity, name, none, methods⟩ => ⟨identity, name, none, methods.map Closure.forget⟩
  | ⟨identity, name, some superclass, methods⟩ =>
      ⟨identity, name, some superclass.forget, methods.map Closure.forget⟩

/-- A value whose functions are around no scope in particular. -/
def Value.forget : Value → Value
  | .function closure => .function closure.forget
  | .cls c => .cls c.forget
  | v => v

/-- A value on its way out whose functions are around no scope in particular. -/
def Flow.forget : Flow → Flow
  | .normal => .normal
  | .returned v => .returned v.forget

/-- The scope around a function is not looked at. -/
theorem Closure.keeps_forget : Closure.Keeps Closure.forget :=
  ⟨fun _ => rfl, fun _ => rfl, fun _ => rfl⟩

theorem Class.forget_eq_map : Class.forget = Class.map Closure.forget := by
  funext c
  induction c using Class.forget.induct with
  | case1 identity name methods => rfl
  | case2 identity name superclass methods ih => rw [forget, Class.map, ih]

theorem Value.forget_eq_map : Value.forget = Value.map Closure.forget := by
  funext v
  cases v with
  | cls c => rw [forget, Value.map, Class.forget_eq_map]
  | _ => rfl

theorem Class.method?_forget (name : String) (c : Class) :
    c.forget.method? name = (c.method? name).map Closure.forget := by
  rw [forget_eq_map, Closure.keeps_forget.method?]

@[simp] theorem Value.forget_ofLiteral (v : Literal) : (ofLiteral v).forget = ofLiteral v := by
  rw [forget_eq_map, map_ofLiteral]

@[simp] theorem Value.isTruthy_forget (v : Value) : v.forget.isTruthy = v.isTruthy := by
  rw [forget_eq_map, isTruthy_map]

theorem UnaryOp.apply_forget (op : UnaryOp) (v : Value) :
    op.apply v.forget = (op.apply v).map Value.forget := by
  rw [Value.forget_eq_map, apply_map]

theorem BinaryOp.apply_forget (op : BinaryOp) (v w : Value) :
    op.apply v.forget w.forget = (op.apply v w).map Value.forget := by
  rw [Value.forget_eq_map, apply_map Closure.keeps_forget]

@[simp] theorem LogicalOp.isDecidedBy_forget (op : LogicalOp) (v : Value) :
    op.isDecidedBy v.forget = op.isDecidedBy v := by
  rw [Value.forget_eq_map, isDecidedBy_map]

theorem Machine.arity?_forget (v : Value) : arity? v.forget = arity? v := by
  rw [Value.forget_eq_map, arity?_map Closure.keeps_forget]

/-! ## Stores -/

/-- An instance whose functions are around no scope in particular. -/
def Instance.forget (i : Instance) : Instance :=
  ⟨i.cls.forget, i.fields.map Value.forget⟩

theorem Instance.forget_eq_map : Instance.forget = Instance.map Closure.forget := by
  funext i
  rw [forget, Instance.map, Class.forget_eq_map, Value.forget_eq_map]

namespace Store

variable (s : Store)

/-- The instances and identities of a store, without its scopes. -/
def forget : Store :=
  ⟨#[], s.instances.map Instance.forget, s.nextIdentity⟩

/-- No scopes are looked at to find what an instance has. -/
theorem forget_eq_map : s.forget = { s.map Closure.forget with scopes := #[] } := by
  rw [forget, map, Instance.forget_eq_map]

/-- What an instance has under a name, around no scope in particular. -/
def Property.forget : Property → Property
  | .field v => .field v.forget
  | .method m => .method m.forget

theorem Property.forget_eq_map : Property.forget = Property.map Closure.forget := by
  funext p
  cases p with
  | field v => rw [forget, map, Value.forget_eq_map]
  | method m => rfl

theorem property?_forget (object : InstanceRef) (name : String) :
    s.forget.property? object name = (s.property? object name).map Property.forget := by
  rw [forget_eq_map, Property.forget_eq_map, ← property?_map s Closure.keeps_forget]
  rfl

theorem display_forget (v : Value) : s.forget.display v.forget = s.display v := by
  rw [forget_eq_map, Value.forget_eq_map, ← display_map s Closure.keeps_forget]
  cases v with
  | bool b => cases b <;> rfl
  | _ => rfl

theorem forget_newInstance (c : Class) :
    (s.newInstance c).2.forget = (s.forget.newInstance c.forget).2 := by
  simp [newInstance, forget, Instance.forget, NameMap.map_empty]

theorem forget_setField (object : InstanceRef) (name : String) (v : Value) :
    (s.setField object name v).forget = s.forget.setField object name v.forget := by
  simp only [setField, forget, mk.injEq, true_and, and_true]
  apply map_modify
  intro i
  simp [Instance.forget, NameMap.map_insert]

end Store

end Lox
