import Lox.Proofs.Guise.Plain
import Lox.Proofs.History.Paths

/-!
# What a session has stored

A program that is told in another guise finds the same store that it would have found
otherwise. The functions in it are as they were made, and as long as no scope has been
added around them, what is stored is alike to itself.
-/

namespace Lox

variable {G : Guise} {known : Known} {s : Store}

/-- No scope exchanges names. -/
def Marks.none : Marks := fun _ => false

theorem Guise.Within.refl (hwrapped : G.wrapped = false) (Γ : Scopes) : G.Within Γ Γ := by
  refine ⟨List.prefix_rfl, ?_⟩
  rw [Guise.shift, hwrapped]
  rfl

theorem Guise.Binds.of_not_wrapped (hwrapped : G.wrapped = false) (references : List Reference) :
    G.Binds references := by
  intro h
  rw [hwrapped] at h
  cases h

theorem Store.Models.marked {scope : ScopeRef} {Γ : Scopes} (h : s.Models scope Γ) :
    s.Marked .none scope Γ.plain := by
  induction Γ generalizing scope with
  | nil => exact h.1
  | cons names Γ ih =>
    obtain ⟨-, outer, houter, hΓ⟩ := h
    exact ⟨rfl, outer, houter, ih hΓ⟩

section

variable (hwrapped : G.wrapped = false) (hknows : G.Knows known known)

include hwrapped hknows

/-- A program that fits the scopes around it is alike to itself. -/
theorem Expr.alike_self {Γ : Scopes} {e : Expr} (he : e.Scoped known True Γ) :
    e.Alike G Γ.plain e :=
  Expr.alike_of_unnumbered hknows (.refl hwrapped Γ) rfl he he (.of_not_wrapped hwrapped _)

theorem Stmt.alike_self {Γ : Scopes} {context : FunctionContext} {s : Stmt}
    (hs : s.Scoped known Γ context) : s.Alike G Γ.plain s :=
  Stmt.alike_of_unnumbered hknows (.refl hwrapped Γ) rfl hs hs (.of_not_wrapped hwrapped _)

theorem Stmt.areAlike_self {Γ : Scopes} {context : FunctionContext} {ss : List Stmt}
    (hss : Stmt.AreScoped known Γ context ss) : Stmt.AreAlike G Γ.plain ss ss :=
  Stmt.areAlike_of_unnumbered hknows (.refl hwrapped Γ) rfl hss hss (.of_not_wrapped hwrapped _)

theorem FunctionDecl.alike_self {Γ : Scopes} {context : FunctionContext} {d : FunctionDecl}
    (hd : d.Scoped known Γ context) : d.Alike G Γ.plain d :=
  FunctionDecl.alike_of_unnumbered hknows (.refl hwrapped Γ) rfl hd hd
    (.of_not_wrapped hwrapped _)

theorem FunctionDecl.areAlike_self {Γ : Scopes} {ds : List FunctionDecl}
    (hds : FunctionDecl.AreScoped known Γ ds) : FunctionDecl.AreAlike G Γ.plain ds ds :=
  FunctionDecl.areAlike_of_unnumbered hknows (.refl hwrapped Γ) rfl hds hds
    (.of_not_wrapped hwrapped _)

theorem Closure.Sound.alike {c : Closure} (h : c.Sound known s) : c.Alike G s .none [] c := by
  obtain ⟨Γ, context, hmodels, -, hscoped, -⟩ := h
  exact ⟨rfl, by rw [Guise.shift, hwrapped]; rfl, rfl, Γ.plain, hmodels.marked,
    FunctionDecl.alike_self hwrapped hknows hscoped⟩

theorem Closure.SoundMethod.alike {c : Closure} (h : c.SoundMethod known s) :
    c.Alike G s .none [false] c := by
  obtain ⟨Γ, context, hmodels, -, hscoped⟩ := h
  exact ⟨rfl, by rw [Guise.shift, hwrapped]; rfl, rfl, Γ.plain, hmodels.marked,
    FunctionDecl.alike_self hwrapped hknows hscoped⟩

theorem Class.Sound.alike : ∀ {c : Class}, c.Sound known s → c.Alike G s .none c
  | ⟨_, _, Option.none, _⟩, h =>
      .base rfl _ (List.forall₂_same.mpr fun m hm => Closure.SoundMethod.alike hwrapped hknows (h m hm))
  | ⟨_, _, some _, _⟩, h =>
      .derived rfl _ (Class.Sound.alike h.1)
        (List.forall₂_same.mpr fun m hm => Closure.SoundMethod.alike hwrapped hknows (h.2 m hm))

theorem Value.Sound.alike {v : Value} (h : v.Sound known s) : v.Alike G s .none v := by
  cases v with
  | function c => exact .function (Closure.Sound.alike hwrapped hknows h)
  | cls c => exact .cls (Class.Sound.alike hwrapped hknows h)
  | _ => constructor

/-- What is stored is alike to itself. -/
theorem Store.Sound.alike (h : s.Sound known) (hpos : Store.globals < s.scopes.size)
    (htop : s.enclosing? Store.globals = Option.none) : s.Alike G .none s := by
  have hshift : G.shift = 0 := by rw [Guise.shift, hwrapped]; rfl
  refine ⟨by rw [hshift]; rfl, fun scope => ?_, fun object => ?_, rfl, rfl, hpos, rfl, htop,
    fun _ => htop⟩
  · rw [hshift, Nat.add_zero]
    cases hscope : s.scopes[scope]? with
    | none => exact .none
    | some sc =>
      refine .some ⟨fun name => ?_, fun outer houter => by rw [hshift]; exact houter⟩
      change Option.Rel _ (sc.bindings.get? name) (sc.bindings.get? name)
      cases hv : sc.bindings.get? name with
      | none => exact .none
      | some v =>
        have hlocal : s.local? scope name = some v := by rw [Store.local?, hscope]; exact hv
        exact .some (Value.Sound.alike hwrapped hknows (h.value scope name v hlocal))
  · cases hinstance : s.instances[object]? with
    | none => exact .none
    | some i =>
      refine .some ⟨Class.Sound.alike hwrapped hknows (h.cls object i.cls ?_), fun name => ?_⟩
      · rw [Store.class?, hinstance]
        rfl
      · cases hv : i.fields.get? name with
        | none => exact .none
        | some v =>
          have hfield : s.field? object name = some v := by rw [Store.field?, hinstance]; exact hv
          exact .some (Value.Sound.alike hwrapped hknows (h.field object name v hfield))

end

/-- The same session with two tables that agree on what it has stored. -/
theorem Session.Reachable.alike {s : Session} (h : s.Reachable) (hwrapped : G.wrapped = false)
    (hknows : G.Knows (s.state.table.known s.nextId) (s.state.table.known s.nextId))
    {table table' : BindingTable} (htable : ∀ id, table.distance? id = G.distance id)
    (htable' : ∀ id, table'.distance? id = G.distance' id) :
    State.Alike G .none [] { s.state with table } { s.state with table := table' } where
  store :=
    have hend := h.sound.state
    Store.Sound.alike hwrapped hknows hend.store hend.size
      (Phase.Reachable.isRooted (Phase.of_session h)).1
  current := by rw [Guise.shift, hwrapped]; rfl
  marked := h.sound.state.scope
  table := htable
  table' := htable'
  calls := rfl
  output := rfl

end Lox
