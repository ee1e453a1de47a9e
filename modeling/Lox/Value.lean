import Lox.Syntax

/-!
# Values

What expressions evaluate to. Functions, classes and instances have an
identity, by which they are compared; everything else is compared by content.
A class carries its superclass and methods and never changes, while what an
instance holds is kept in the store, so an instance is a reference.

## Implementation notes

A method is a closure like any other. Looking it up through an instance binds
it to that instance, which makes a new closure around a new scope; a closure
found in a class is never a value by itself.
-/

namespace Lox

/-- The number of a scope in the store. -/
abbrev ScopeRef := Nat

/-- The number of an instance in the store. -/
abbrev InstanceRef := Nat

/-- A function together with the scope in which it was declared. -/
structure Closure where
  identity : Nat
  decl : FunctionDecl
  scope : ScopeRef
  isInitializer : Bool

namespace Closure

/-- The declared name. -/
def name (c : Closure) : String := c.decl.name.lexeme

/-- The number of parameters. -/
def arity (c : Closure) : Nat := c.decl.parameters.length

end Closure

/-- A class: its own methods in the order of declaration, and the class that it
inherits from. -/
structure Class where
  identity : Nat
  name : String
  superclass : Option Class
  methods : List Closure

namespace Class

/-- The last of a class's own methods that has a given name. -/
def ownMethod? (methods : List Closure) (name : String) : Option Closure :=
  methods.reverse.find? (·.name == name)

/-- The method of a given name: the class's own, or else the one it inherits. -/
def method? : Class → String → Option Closure
  | ⟨_, _, none, methods⟩, name => ownMethod? methods name
  | ⟨_, _, some superclass, methods⟩, name =>
      match ownMethod? methods name with
      | some m => some m
      | none => superclass.method? name

end Class

/-- The values of the language. -/
inductive Value where
  | nil
  | bool (value : Bool)
  | number (value : Float)
  | string (value : String)
  | function (closure : Closure)
  | cls (c : Class)
  | object (ref : InstanceRef)

instance : Inhabited Value := ⟨.nil⟩

namespace Value

/-- The value of a constant. -/
def ofLiteral : Literal → Value
  | .nil => nil
  | .bool b => bool b
  | .number x => number x
  | .string s => string s

/-- All values but `nil` and `false` count as true. -/
def isTruthy : Value → Bool
  | nil => false
  | bool b => b
  | _ => true

/-- The name of the type of a value. -/
def typeName : Value → String
  | nil => "nil"
  | bool _ => "boolean"
  | number _ => "number"
  | string _ => "string"
  | function _ => "function"
  | cls _ => "class"
  | object _ => "instance"

/-- Equality of the language: without coercion, numbers as floating-point
numbers, functions, classes and instances by identity. -/
def equals : Value → Value → Bool
  | nil, nil => true
  | bool a, bool b => a == b
  | number a, number b => a == b
  | string a, string b => a == b
  | function a, function b => a.identity == b.identity
  | cls a, cls b => a.identity == b.identity
  | object a, object b => a == b
  | _, _ => false

end Value

end Lox
