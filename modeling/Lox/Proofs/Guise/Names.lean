import Lox.Machine
import Mathlib.Logic.Equiv.Basic

/-!
# Programs in another guise

A program can be told in other words and still be the same program. One of its names
may be told by another in some of its scopes, its references may have other numbers,
and it may stand in a scope of its own where it stood among the globals before. What
matters of a reference is how many scopes out its name is, and which name that scope
has for it.

## Implementation notes

In a scope that tells the one name by the other, the other is told by the one. Names
are thus exchanged and none is lost, so that the two scopes hold the same as long as
each name is looked for under what it is told by. The names of the language, `this`
and `super`, are not exchanged.
-/

namespace Lox

/-- What two programs may differ in: a name and what it is told by in some scopes, what
is known of the references of each, and whether the other program has a scope around
everything that stands among the globals in the first. -/
structure Guise where
  old : String
  new : String
  distance : NodeId → Option Nat
  distance' : NodeId → Option Nat
  wrapped : Bool
  old_ne : ∀ k : Keyword, k.text ≠ old
  new_ne : ∀ k : Keyword, k.text ≠ new

namespace Guise

variable (G : Guise)

/-! ## Names -/

/-- What a name is told by in a scope that exchanges the two names or does not. -/
def name (exchanges : Bool) (n : String) : String :=
  if exchanges then Equiv.swap G.old G.new n else n

/-- A token with the name that it is told by. -/
def token (exchanges : Bool) (t : Token) : Token :=
  { t with lexeme := G.name exchanges t.lexeme }

variable {G} {b : Bool} {n m : String}

@[simp] theorem name_false : G.name false n = n := rfl

@[simp] theorem token_false (t : Token) : G.token false t = t := rfl

@[simp] theorem lexeme_token (t : Token) : (G.token b t).lexeme = G.name b t.lexeme := rfl

@[simp] theorem name_old : G.name true G.old = G.new := by
  rw [name, if_pos rfl, Equiv.swap_apply_left]

theorem name_of_ne (hold : n ≠ G.old) (hnew : n ≠ G.new) : G.name b n = n := by
  unfold name
  split
  · exact Equiv.swap_apply_of_ne_of_ne hold hnew
  · rfl

@[simp] theorem name_keyword (k : Keyword) : G.name b k.text = k.text :=
  name_of_ne (G.old_ne k) (G.new_ne k)

theorem name_injective (b : Bool) : Function.Injective (G.name b) := by
  intro n m h
  unfold name at h
  split at h
  · exact (Equiv.swap G.old G.new).injective h
  · exact h

theorem token_of_name_eq {t : Token} (h : G.name b t.lexeme = t.lexeme) : G.token b t = t := by
  rw [token, h]

variable (G)

/-- A name is written as it was, or the new one stands where the old one did. -/
inductive Spells : Token → Token → Prop
  | same (t : Token) : Spells t t
  | changed {t : Token} (h : t.lexeme = G.old) : Spells t { t with lexeme := G.new }

variable {G}

theorem spells_token {t : Token} (h : b = true → t.lexeme ≠ G.new) : G.Spells t (G.token b t) := by
  cases b with
  | false => exact .same t
  | true =>
    by_cases hold : t.lexeme = G.old
    · rw [token, hold, name_old]
      exact .changed hold
    · rw [token_of_name_eq (name_of_ne hold (h rfl))]
      exact .same t

variable (G)

/-! ## References -/

/-- How many scopes the other machine has around the globals of the first. -/
def shift : Nat :=
  G.wrapped.toNat

/-- How far out the other machine has a global name, seen from inside so many scopes. -/
def top (depth : Nat) : Option Nat :=
  if G.wrapped then some depth else none

/-- What a declaration says that stands in these scopes. Globals are told by their names. -/
def declared (K : List Bool) (t : Token) : Token :=
  G.token (K.headD false) t

/-- Two references are to the same declaration: equally far out and told by the name
that it has there, or to a global. For each scope around, `K` says whether it exchanges
the two names, the innermost first. -/
inductive Refers (K : List Bool) : Reference → Reference → Prop
  | bound {r : Reference} {id' : NodeId} {d : Nat} {b : Bool} (h : G.distance r.id = some d)
      (h' : G.distance' id' = some d) (hK : K[d]? = some b)
      (hname : b = true → r.name.lexeme ≠ G.new) : Refers K r ⟨id', G.token b r.name⟩
  | free {r : Reference} {id' : NodeId} (h : G.distance r.id = none)
      (h' : G.distance' id' = G.top K.length) : Refers K r ⟨id', r.name⟩

variable {G}

theorem Refers.spells {K : List Bool} {r r' : Reference} (h : G.Refers K r r') :
    G.Spells r.name r'.name := by
  cases h with
  | bound _ _ _ hname => exact spells_token hname
  | free _ _ => exact .same r.name

variable (G)

/-! ## Errors -/

/-- Two errors are the same but for the name that is not defined, and for how the token
is written at which they are reported. -/
inductive Errs : RuntimeError → RuntimeError → Prop
  | undefined {t t' : Token} (h : G.Spells t t') : Errs (.undefined t) (.undefined t')
  | blamed (cause : RuntimeCause) {t t' : Token} (h : G.Spells t t') :
      Errs ⟨cause, t⟩ ⟨cause, t'⟩

end Guise

end Lox
