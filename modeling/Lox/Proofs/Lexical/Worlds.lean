import Lox.Proofs.Lexical.Evaluator
import Lox.Proofs.Lexical.Forgetting
import Lox.Proofs.Scoping.Stores

/-!
# The machine next to the evaluator

A `World` is a state of the machine next to a state of the evaluator. The cells of
the evaluator are told apart by the scopes and names for which they stand: a scope
other than the global one has a cell for each name that it declares, and the cell
holds what the scope holds.

## Implementation notes

Scopes are made with cells one at a time, while the machine makes the scope of a
call at once. Worlds only ever grow; only the scope in which a statement runs may
get new cells while it runs, and none while an expression is evaluated.
-/

namespace Lox

namespace Lexical

/-- A state of the machine next to one of the evaluator, and the cells that stand
for the names of scopes. -/
structure World where
  cellOf : ScopeRef → String → Option CellRef
  machine : Lox.State
  lexical : State

namespace World

/-- The number of scopes that the machine has made. -/
def size (w : World) : Nat :=
  w.machine.store.scopes.size

/-- Whether a map has the cells of the names that are seen from a scope. -/
def Fits (w : World) (scope : ScopeRef) (Γ : Scopes) (env : Env) : Prop :=
  ∀ name, match Γ.depth? name with
    | none => env.get? name = none
    | some d => ∃ target cell, w.machine.store.ancestor? scope d = some target ∧
        w.cellOf target name = some cell ∧ env.get? name = some cell

end World

end Lexical

open Lexical (World Env)

/-! ## Values -/

section

variable (known : Known) (w : World)

/-- Whether the evaluator has captured the map of a function, which an initializer
has from a receiver. -/
def Closure.Tracked (c : Closure) : Prop :=
  c.identity < w.machine.store.nextIdentity ∧
    ∃ Γ context env, c.decl.Scoped known Γ context ∧ w.Fits c.scope Γ env ∧
      w.lexical.captured.lookup c.identity = some env ∧
      (c.isInitializer → Γ.depth? Keyword.this.text = some 0)

/-- Whether the evaluator has captured the map of a method. -/
def Closure.TrackedMethod (c : Closure) : Prop :=
  c.identity < w.machine.store.nextIdentity ∧
    ∃ Γ context env, c.decl.Scoped known (Γ.given .this) context ∧ w.Fits c.scope Γ env ∧
      w.lexical.captured.lookup c.identity = some env

/-- Whether the evaluator has captured the maps of a class's methods. -/
def Class.Tracked : Class → Prop
  | ⟨_, _, none, methods⟩ => ∀ m ∈ methods, m.TrackedMethod known w
  | ⟨_, _, some superclass, methods⟩ =>
      superclass.Tracked ∧ ∀ m ∈ methods, m.TrackedMethod known w

/-- Whether the evaluator has captured the maps of a value's functions. -/
def Value.Tracked : Value → Prop
  | .function closure => closure.Tracked known w
  | .cls c => c.Tracked known w
  | _ => True

/-- Whether the evaluator has captured the maps of a value on its way out. -/
def Flow.Tracked : Flow → Prop
  | .normal => True
  | .returned v => v.Tracked known w

end

namespace Lexical

namespace World

/-! ## Growth -/

/-- Whether a later world has all scopes, cells and functions of an earlier one, and
has no more cells for the scopes before a bound. -/
structure Grows (bound : ScopeRef) (w w' : World) : Prop where
  size : w.size ≤ w'.size
  enclosing : ∀ scope < w.size, w'.machine.store.enclosing? scope = w.machine.store.enclosing? scope
  keeps : ∀ scope name cell, w.cellOf scope name = some cell → w'.cellOf scope name = some cell
  gains : ∀ scope < bound, w'.cellOf scope = w.cellOf scope
  identity : w.machine.store.nextIdentity ≤ w'.machine.store.nextIdentity
  captured : ∀ id < w.machine.store.nextIdentity,
    w'.lexical.captured.lookup id = w.lexical.captured.lookup id

/-- Whether a later world is also back where an earlier one was. -/
structure After (bound : ScopeRef) (w w' : World) : Prop extends Grows bound w w' where
  current : w'.machine.current = w.machine.current
  calls : w'.machine.calls = w.machine.calls
  table : w'.machine.table = w.machine.table

variable {w w' w'' : World} {bound lower : ScopeRef}

namespace Grows

theorem refl (bound : ScopeRef) (w : World) : Grows bound w w :=
  ⟨Nat.le_refl _, fun _ _ => rfl, fun _ _ _ h => h, fun _ _ => rfl, Nat.le_refl _, fun _ _ => rfl⟩

theorem trans (h : Grows bound w w') (h' : Grows bound w' w'') : Grows bound w w'' where
  size := Nat.le_trans h.size h'.size
  enclosing scope hlt :=
    (h'.enclosing scope (Nat.lt_of_lt_of_le hlt h.size)).trans (h.enclosing scope hlt)
  keeps scope name cell hcell := h'.keeps scope name cell (h.keeps scope name cell hcell)
  gains scope hlt := (h'.gains scope hlt).trans (h.gains scope hlt)
  identity := Nat.le_trans h.identity h'.identity
  captured id hlt :=
    (h'.captured id (Nat.lt_of_lt_of_le hlt h.identity)).trans (h.captured id hlt)

theorem weaken (h : Grows bound w w') (hle : lower ≤ bound) : Grows lower w w' :=
  { h with gains := fun scope hlt => h.gains scope (Nat.lt_of_lt_of_le hlt hle) }

theorem ancestor? (h : Grows bound w w') {scope target : ScopeRef} {d : Nat}
    (ht : w.machine.store.ancestor? scope d = some target) :
    w'.machine.store.ancestor? scope d = some target := by
  induction d generalizing scope with
  | zero => exact ht
  | succ d ih =>
      rw [Store.ancestor?] at ht ⊢
      split at ht
      · cases ht
      next outer houter =>
        rw [h.enclosing scope (Store.lt_of_enclosing? houter), houter]
        exact ih ht

theorem fits (h : Grows bound w w') {scope : ScopeRef} {Γ : Scopes} {env : Env}
    (hfits : w.Fits scope Γ env) : w'.Fits scope Γ env := by
  intro name
  have hname := hfits name
  split at hname
  next => exact hname
  next d _ =>
    obtain ⟨target, cell, htarget, hcell, henv⟩ := hname
    exact ⟨target, cell, h.ancestor? htarget, h.keeps _ _ _ hcell, henv⟩

end Grows

namespace After

theorem refl (bound : ScopeRef) (w : World) : After bound w w :=
  ⟨.refl bound w, rfl, rfl, rfl⟩

theorem trans (h : After bound w w') (h' : After bound w' w'') : After bound w w'' :=
  ⟨h.toGrows.trans h'.toGrows, h'.current.trans h.current, h'.calls.trans h.calls,
    h'.table.trans h.table⟩

theorem weaken (h : After bound w w') (hle : lower ≤ bound) : After lower w w' :=
  ⟨h.toGrows.weaken hle, h.current, h.calls, h.table⟩

end After

end World

end Lexical

section

variable {known : Known} {w w' : World} {bound : ScopeRef}

theorem Closure.Tracked.grow {c : Closure} (h : c.Tracked known w) (hw : World.Grows bound w w') :
    c.Tracked known w' := by
  obtain ⟨hlt, Γ, context, env, hscoped, hfits, hcaptured, hthis⟩ := h
  exact ⟨Nat.lt_of_lt_of_le hlt hw.identity, Γ, context, env, hscoped, hw.fits hfits,
    (hw.captured _ hlt).trans hcaptured, hthis⟩

theorem Closure.TrackedMethod.grow {c : Closure} (h : c.TrackedMethod known w)
    (hw : World.Grows bound w w') : c.TrackedMethod known w' := by
  obtain ⟨hlt, Γ, context, env, hscoped, hfits, hcaptured⟩ := h
  exact ⟨Nat.lt_of_lt_of_le hlt hw.identity, Γ, context, env, hscoped, hw.fits hfits,
    (hw.captured _ hlt).trans hcaptured⟩

theorem Class.Tracked.grow (hw : World.Grows bound w w') :
    ∀ {c : Class}, c.Tracked known w → c.Tracked known w'
  | ⟨_, _, none, _⟩, h => fun m hm => (h m hm).grow hw
  | ⟨_, _, some _, _⟩, h => ⟨Class.Tracked.grow hw h.1, fun m hm => (h.2 m hm).grow hw⟩

theorem Value.Tracked.grow {v : Value} (h : v.Tracked known w) (hw : World.Grows bound w w') :
    v.Tracked known w' := by
  cases v with
  | function closure => exact Closure.Tracked.grow h hw
  | cls c => exact Class.Tracked.grow hw h
  | _ => trivial

theorem Flow.Tracked.grow {f : Flow} (h : f.Tracked known w) (hw : World.Grows bound w w') :
    f.Tracked known w' := by
  cases f with
  | normal => trivial
  | returned v => exact Value.Tracked.grow h hw

section

variable {known' : Known}

theorem Closure.Tracked.mono {c : Closure} (h : c.Tracked known w) (hk : known.Grows known') :
    c.Tracked known' w := by
  obtain ⟨hlt, Γ, context, env, hscoped, hrest⟩ := h
  exact ⟨hlt, Γ, context, env, hscoped.mono hk, hrest⟩

theorem Closure.TrackedMethod.mono {c : Closure} (h : c.TrackedMethod known w)
    (hk : known.Grows known') : c.TrackedMethod known' w := by
  obtain ⟨hlt, Γ, context, env, hscoped, hrest⟩ := h
  exact ⟨hlt, Γ, context, env, hscoped.mono hk, hrest⟩

theorem Class.Tracked.mono (hk : known.Grows known') :
    ∀ {c : Class}, c.Tracked known w → c.Tracked known' w
  | ⟨_, _, none, _⟩, h => fun m hm => (h m hm).mono hk
  | ⟨_, _, some _, _⟩, h => ⟨Class.Tracked.mono hk h.1, fun m hm => (h.2 m hm).mono hk⟩

theorem Value.Tracked.mono {v : Value} (h : v.Tracked known w) (hk : known.Grows known') :
    v.Tracked known' w := by
  cases v with
  | function closure => exact Closure.Tracked.mono h hk
  | cls c => exact Class.Tracked.mono hk h
  | _ => trivial

end

theorem Class.Tracked.method? {name : String} {m : Closure} :
    ∀ {c : Class}, c.Tracked known w → c.method? name = some m → m.TrackedMethod known w
  | ⟨_, _, none, methods⟩, h, hm => by
      rw [Class.method?] at hm
      exact h m (List.mem_reverse.mp (List.mem_of_find?_eq_some hm))
  | ⟨_, _, some superclass, methods⟩, h, hm => by
      rw [Class.method?] at hm
      split at hm
      next found =>
        obtain rfl := Option.some.inj hm
        exact h.2 _ (List.mem_reverse.mp (List.mem_of_find?_eq_some found))
      next => exact Class.Tracked.method? h.1 hm

end

/-! ## Agreement -/

namespace Lexical

namespace World

/-- Whether cells and globals hold what the scopes of the machine hold, each cell for
one name. -/
structure Holds (w : World) : Prop where
  size : Store.globals < w.size
  root : w.machine.store.enclosing? Store.globals = none
  globals : ∀ name, w.lexical.globals.get? name =
    (w.machine.store.local? Store.globals name).map Value.forget
  cell : ∀ scope name cell, w.cellOf scope name = some cell →
    scope ≠ Store.globals ∧ scope < w.size ∧
      w.lexical.cells[cell]? = some ((w.machine.store.local? scope name).map Value.forget)
  distinct : ∀ scope name scope' name' cell, w.cellOf scope name = some cell →
    w.cellOf scope' name' = some cell → scope = scope' ∧ name = name'
  held : ∀ scope name, scope ≠ Store.globals → (w.machine.store.local? scope name).isSome →
    (w.cellOf scope name).isSome

/-- Whether the evaluator has captured the maps of all functions in the store. -/
structure Tracks (known : Known) (w : World) : Prop where
  value : ∀ scope name v, w.machine.store.local? scope name = some v → v.Tracked known w
  field : ∀ object name v, w.machine.store.field? object name = some v → v.Tracked known w
  cls : ∀ object c, w.machine.store.class? object = some c → c.Tracked known w

/-- Whether machine and evaluator agree on everything but the scopes of functions,
and the machine has what is known in its table. -/
structure Agrees (known : Known) (w : World) : Prop where
  holds : w.Holds
  tracks : w.Tracks known
  objects : w.lexical.objects = w.machine.store.forget
  output : w.lexical.output = w.machine.output
  table : ∀ id d, known id = some d → w.machine.table.distance? id = d

/-- Whether the machine runs in some scopes, with some calls open, where the evaluator
has a map of the names that are seen. -/
structure At (w : World) (Γ : Scopes) (env : Option Env) (depth : Nat) : Prop where
  fits : w.Fits w.machine.current Γ (env.getD .empty)
  exact : ∀ name, (w.cellOf w.machine.current name).isSome ↔ Γ.depth? name = some 0
  outside : env = none ↔ Γ = []
  global : Γ = [] ↔ w.machine.current = Store.globals
  lt : w.machine.current < w.size
  calls : w.machine.calls = depth

/-- Whether a map has the cell of a name in a scope, or rather none if that is the
global scope. -/
structure Finds (w : World) (env : Env) (name : String) (scope : ScopeRef) : Prop where
  cell : env.get? name = w.cellOf scope name
  isSome : scope ≠ Store.globals → (w.cellOf scope name).isSome

variable {known : Known} {w w' : World} {Γ : Scopes} {env : Option Env} {depth : Nat}

theorem Holds.cellOf_globals (h : w.Holds) (name : String) :
    w.cellOf Store.globals name = none := by
  cases hcell : w.cellOf Store.globals name with
  | none => rfl
  | some cell => exact absurd rfl (h.cell _ _ _ hcell).1

/-- A map finds each name in the scope where the machine has it. -/
theorem Holds.finds (h : w.Holds) {scope : ScopeRef} {env : Env} (hfits : w.Fits scope Γ env)
    (name : String) :
    ∃ target, w.Finds env name target ∧
      (∀ d, Γ.depth? name = some d → w.machine.store.ancestor? scope d = some target) ∧
      (Γ.depth? name = none → target = Store.globals) := by
  have hname := hfits name
  cases hd : Γ.depth? name with
  | none =>
      rw [hd] at hname
      exact ⟨Store.globals, ⟨hname.trans (h.cellOf_globals name).symm, fun hne => absurd rfl hne⟩,
        by simp, fun _ => rfl⟩
  | some d =>
      rw [hd] at hname
      obtain ⟨target, cell, htarget, hcell, henv⟩ := hname
      refine ⟨target, ⟨henv.trans hcell.symm, fun _ => by rw [hcell]; rfl⟩, fun d' hd' => ?_, by simp⟩
      rwa [← Option.some.inj hd']

theorem Holds.lookUp (h : w.Holds) {env : Env} {name : String} {scope : ScopeRef}
    (hf : w.Finds env name scope) :
    w.lexical.lookUp env name = (w.machine.store.local? scope name).map Value.forget := by
  rw [State.lookUp, hf.cell]
  cases hcell : w.cellOf scope name with
  | none =>
      have hglobals : scope = Store.globals := Decidable.byContradiction fun hne => by
        have hsome := hf.isSome hne
        rw [hcell] at hsome
        cases hsome
      rw [hglobals]
      exact h.globals name
  | some cell =>
      change w.lexical.cells[cell]?.join = _
      rw [(h.cell _ _ _ hcell).2.2]
      rfl

/-- A name that the scopes declare has a cell, with what the machine has for it. -/
theorem Holds.held_eq (h : w.Holds) {scope : ScopeRef} {env : Env} {name : String} {d : Nat}
    (hfits : w.Fits scope Γ env) (hd : Γ.depth? name = some d) :
    ∃ target, w.machine.store.ancestor? scope d = some target ∧
      w.lexical.held env name = (w.machine.store.local? target name).map Value.forget := by
  have hname := hfits name
  rw [hd] at hname
  obtain ⟨target, cell, htarget, hcell, henv⟩ := hname
  refine ⟨target, htarget, ?_⟩
  rw [State.held, henv, Option.bind_some, (h.cell _ _ _ hcell).2.2]
  rfl

theorem Holds.owner?_globals (h : w.Holds) (name : String) :
    w.machine.store.owner? Store.globals name =
      if (w.machine.store.local? Store.globals name).isSome then some Store.globals else none := by
  obtain ⟨n, hn⟩ := Nat.exists_eq_succ_of_ne_zero (Nat.ne_of_gt h.size)
  have hn : w.machine.store.scopes.size = n + 1 := hn
  rw [Store.owner?, hn, Store.ownerWithin?, h.root]

/-- The machine finds a reference in the scope where the map finds its name. -/
theorem Agrees.owner? (h : w.Agrees known) (hat : w.At Γ env depth) {target : Reference}
    (hfound : target.Found known Γ) :
    ∃ scope, w.Finds (env.getD .empty) target.name.lexeme scope ∧
      w.machine.owner? target =
        if (w.machine.store.local? scope target.name.lexeme).isSome then some scope else none := by
  obtain ⟨scope, hf, hsome, hnone⟩ := h.holds.finds hat.fits target.name.lexeme
  refine ⟨scope, hf, ?_⟩
  rw [Lox.State.owner?, h.table _ _ hfound]
  cases hd : Γ.depth? target.name.lexeme with
  | none =>
      rw [hnone hd]
      exact h.holds.owner?_globals _
  | some d =>
      change w.machine.store.ownerAt? w.machine.current d _ = _
      rw [Store.ownerAt?, hsome d hd]

namespace At

theorem after (h : w.At Γ env depth) {bound : ScopeRef} (hw : World.After bound w w')
    (hlt : w.machine.current < bound) : w'.At Γ env depth where
  fits := hw.current ▸ hw.fits h.fits
  exact name := by rw [hw.current, hw.gains _ hlt]; exact h.exact name
  outside := h.outside
  global := hw.current ▸ h.global
  lt := hw.current ▸ Nat.lt_of_lt_of_le h.lt hw.size
  calls := hw.calls.trans h.calls

/-- Only where names are declared matters, not whether they are ready. -/
theorem congr (h : w.At Γ env depth) {Γ' : Scopes} (hdepth : ∀ name, Γ'.depth? name = Γ.depth? name)
    (hnil : Γ' = [] ↔ Γ = []) : w.At Γ' env depth where
  fits name := by rw [hdepth]; exact h.fits name
  exact name := by rw [hdepth]; exact h.exact name
  outside := h.outside.trans hnil.symm
  global := hnil.trans h.global
  lt := h.lt
  calls := h.calls

end At

end World

end Lexical

end Lox
