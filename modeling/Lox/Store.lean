import Lox.NameMap
import Lox.Value

/-!
# The store

Everything that a running program can change: the scopes, each of which holds
values by name and links to the scope around it, and the fields of instances.
Scopes and instances are numbered as they are made and are never removed, so a
closure keeps its scope alive by its number alone.

A name is reached in one of two ways. `getAt?` and `assignAt?` go out exactly so
many scopes and look nowhere else; `get?` and `assign?` take the nearest scope
on the way out that has the name.

## Implementation notes

A scope is made after the scope around it. The walk outwards is therefore
bounded by the number of scopes, which serves as its fuel.
-/

namespace Lox

/-- Values by name, and the scope around them; the global scope has none. -/
structure Scope where
  bindings : NameMap Value
  enclosing : Option ScopeRef

/-- An instance of a class with its fields. -/
structure Instance where
  cls : Class
  fields : NameMap Value

/-- The scopes and instances made so far, and the next identity of a function
or class. -/
structure Store where
  scopes : Array Scope
  instances : Array Instance
  nextIdentity : Nat

namespace Store

/-- The scope of global names. -/
def globals : ScopeRef := 0

/-- The store that holds an empty global scope and nothing else. -/
def initial : Store :=
  ⟨#[⟨.empty, none⟩], #[], 0⟩

/-! ## Scopes -/

/-- Make a scope that holds some values. -/
def newScope (s : Store) (bindings : NameMap Value) (enclosing : Option ScopeRef) :
    ScopeRef × Store :=
  (s.scopes.size, { s with scopes := s.scopes.push ⟨bindings, enclosing⟩ })

/-- Give a name a value in a scope, whether or not it has one. -/
def define (s : Store) (scope : ScopeRef) (name : String) (value : Value) : Store :=
  { s with
    scopes := s.scopes.modify scope fun sc =>
      { sc with bindings := sc.bindings.insert name value } }

/-- The scope around a scope. -/
def enclosing? (s : Store) (scope : ScopeRef) : Option ScopeRef :=
  s.scopes[scope]?.bind Scope.enclosing

/-- The value that a scope itself holds for a name. -/
def local? (s : Store) (scope : ScopeRef) (name : String) : Option Value :=
  s.scopes[scope]?.bind fun sc => sc.bindings.get? name

/-- The scope so many scopes further out. -/
def ancestor? (s : Store) (scope : ScopeRef) : (distance : Nat) → Option ScopeRef
  | 0 => some scope
  | distance + 1 =>
      match s.enclosing? scope with
      | none => none
      | some outer => s.ancestor? outer distance

/-- The scope so many scopes further out, if it has a name. -/
def ownerAt? (s : Store) (scope : ScopeRef) (distance : Nat) (name : String) : Option ScopeRef :=
  match s.ancestor? scope distance with
  | none => none
  | some target => if (s.local? target name).isSome then some target else none

/-- The value of a name in the scope so many scopes further out. -/
def getAt? (s : Store) (scope : ScopeRef) (distance : Nat) (name : String) : Option Value :=
  (s.ownerAt? scope distance name).bind fun target => s.local? target name

/-- Replace the value of a name in the scope so many scopes further out. -/
def assignAt? (s : Store) (scope : ScopeRef) (distance : Nat) (name : String) (value : Value) :
    Option Store :=
  match s.ownerAt? scope distance name with
  | none => none
  | some target => some (s.define target name value)

/-- The nearest scope that has a name, looking at no more than `reach` scopes. -/
def ownerWithin? (s : Store) (name : String) : (reach : Nat) → ScopeRef → Option ScopeRef
  | 0, _ => none
  | reach + 1, scope =>
      if (s.local? scope name).isSome then some scope
      else match s.enclosing? scope with
        | none => none
        | some outer => s.ownerWithin? name reach outer

/-- The nearest scope on the way out that has a name. -/
def owner? (s : Store) (scope : ScopeRef) (name : String) : Option ScopeRef :=
  s.ownerWithin? name s.scopes.size scope

/-- The value of a name in the nearest scope that has it. -/
def get? (s : Store) (scope : ScopeRef) (name : String) : Option Value :=
  (s.owner? scope name).bind fun target => s.local? target name

/-- Replace the value of a name in the nearest scope that has it. -/
def assign? (s : Store) (scope : ScopeRef) (name : String) (value : Value) : Option Store :=
  match s.owner? scope name with
  | none => none
  | some target => some (s.define target name value)

/-! ## Functions, classes and instances -/

/-- An identity that no function or class of the store has. -/
def newIdentity (s : Store) : Nat × Store :=
  (s.nextIdentity, { s with nextIdentity := s.nextIdentity + 1 })

/-- Make a function out of a declaration and the scope that it stands in. -/
def newClosure (s : Store) (decl : FunctionDecl) (scope : ScopeRef) (isInitializer : Bool) :
    Closure × Store :=
  let (identity, s) := s.newIdentity
  (⟨identity, decl, scope, isInitializer⟩, s)

/-- Make an instance without fields. -/
def newInstance (s : Store) (cls : Class) : InstanceRef × Store :=
  (s.instances.size, { s with instances := s.instances.push ⟨cls, .empty⟩ })

/-- Give a field of an instance a value. -/
def setField (s : Store) (object : InstanceRef) (name : String) (value : Value) : Store :=
  { s with
    instances := s.instances.modify object fun i =>
      { i with fields := i.fields.insert name value } }

/-- The value of a field of an instance. -/
def field? (s : Store) (object : InstanceRef) (name : String) : Option Value :=
  s.instances[object]?.bind fun i => i.fields.get? name

/-- The class of an instance. -/
def class? (s : Store) (object : InstanceRef) : Option Class :=
  s.instances[object]?.map Instance.cls

/-- What an instance has under a name. -/
inductive Property where
  | field (value : Value)
  | method (closure : Closure)

/-- What an instance has under a name: a field, or else a method of its class. -/
def property? (s : Store) (object : InstanceRef) (name : String) : Option Property :=
  match s.field? object name with
  | some v => some (.field v)
  | none => ((s.class? object).bind (·.method? name)).map .method

/-- A method bound to an instance: the method anew, around a scope that holds
the receiver and nothing else. -/
def bindMethod (s : Store) (method : Closure) (receiver : InstanceRef) : Closure × Store :=
  let bindings := NameMap.empty.insert Keyword.this.text (.object receiver)
  let (scope, s) := s.newScope bindings (some method.scope)
  s.newClosure method.decl scope method.isInitializer

/-! ## Text -/

/-- The text that `print` shows for a value. -/
def display (s : Store) : Value → String
  | .nil => "nil"
  | .bool true => "true"
  | .bool false => "false"
  | .number x => Number.display x
  | .string text => text
  | .function closure => s!"<fn {closure.name}>"
  | .cls c => c.name
  | .object ref =>
      match s.class? ref with
      | some c => s!"{c.name} instance"
      | none => "instance"

end Store

end Lox
