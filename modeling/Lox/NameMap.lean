/-!
# Maps from names

A finite map from names to values that keeps its names in the order in which
they were first inserted. Scopes, fields and the tables of the static analysis
are such maps: they hold few names each, and replacing a value leaves the names
and their order alone.
-/

namespace Lox

/-- A finite map from names, oldest name first; no name occurs twice. -/
structure NameMap (α : Type) where
  entries : List (String × α)
  deriving Repr

namespace NameMap

variable {α : Type}

/-- The map without names. -/
def empty : NameMap α := ⟨[]⟩

instance : Inhabited (NameMap α) := ⟨empty⟩

/-- The value of a name in a list of entries. -/
def find? (name : String) : List (String × α) → Option α
  | [] => none
  | (n, a) :: rest => if n == name then some a else find? name rest

/-- Replace the value of a name in a list of entries, or add it at the end. -/
def put (name : String) (value : α) : List (String × α) → List (String × α)
  | [] => [(name, value)]
  | (n, a) :: rest => if n == name then (n, value) :: rest else (n, a) :: put name value rest

/-- The value of a name. -/
def get? (m : NameMap α) (name : String) : Option α :=
  find? name m.entries

/-- Whether a name has a value. -/
def contains (m : NameMap α) (name : String) : Bool :=
  (m.get? name).isSome

/-- Give a name a value, replacing the one that it has. -/
def insert (m : NameMap α) (name : String) (value : α) : NameMap α :=
  ⟨put name value m.entries⟩

/-- The names that have values. -/
def names (m : NameMap α) : List String :=
  m.entries.map Prod.fst

@[simp] theorem get?_empty (name : String) : (empty : NameMap α).get? name = none := rfl

theorem find?_put (name other : String) (value : α) (l : List (String × α)) :
    find? other (put name value l) = if name = other then some value else find? other l := by
  induction l with
  | nil => by_cases h : name = other <;> simp [put, find?, h]
  | cons e rest ih =>
      obtain ⟨n, a⟩ := e
      by_cases h : n = name
      · subst h
        by_cases h' : n = other <;> simp [put, find?, h']
      · by_cases h' : n = other
        · subst h'
          simp [put, find?, h, Ne.symm h]
        · simp [put, find?, h, h', ih]

theorem get?_insert (m : NameMap α) (name other : String) (value : α) :
    (m.insert name value).get? other = if name = other then some value else m.get? other :=
  find?_put name other value m.entries

@[simp] theorem get?_insert_self (m : NameMap α) (name : String) (value : α) :
    (m.insert name value).get? name = some value := by
  simp [get?_insert]

theorem get?_insert_of_ne (m : NameMap α) {name other : String} (h : name ≠ other) (value : α) :
    (m.insert name value).get? other = m.get? other := by
  simp [get?_insert, h]

/-- A map with one name. -/
theorem get?_single_iff {name other : String} {value found : α} :
    (empty.insert name value).get? other = some found ↔ name = other ∧ value = found := by
  rw [get?_insert, get?_empty, Option.ite_none_right_eq_some, Option.some.injEq]

end NameMap

end Lox
