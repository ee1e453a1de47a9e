import Lox.Proofs.Loops.BlankScopes
import Lox.Proofs.Loops.BlankWalks
import Lox.Proofs.Loops.Rounds
import Mathlib

/-!
# What `for` loops do

A `for` loop is read as blocks around a `while` loop. Its parts are carried out as those of
a `for` loop all the same: the initializer once, in a scope that all rounds share, the
condition before each round, and the increment behind the body. The increment sees what
the condition sees, since the body declares nothing beside it.
-/

namespace Lox

/-- Whether a `for` loop can begin with this: nothing, an expression, or a variable. -/
def ForLoop.Initializes (initializer : Option Stmt) : Prop :=
  ∀ s ∈ initializer, (∃ e, s = .expression e) ∨ ∃ name e, s = .varDecl name e

/-- A `for` loop, taken apart. -/
structure ForLoop where
  initializer : Option Stmt
  condition : Option Expr
  increment : Option Expr
  body : Stmt
  initializes : ForLoop.Initializes initializer
  bare : body.IsBare

namespace ForLoop

/-- What is executed in each round. -/
def roundTree (l : ForLoop) : Stmt :=
  match l.increment with
  | some e => .block [l.body, .expression e]
  | none => l.body

/-- The `while` loop inside. -/
def loopTree (l : ForLoop) : Stmt :=
  .loop (l.condition.getD (.literal (.bool true))) l.roundTree

/-- The tree of the loop. -/
def tree (l : ForLoop) : Stmt :=
  match l.initializer with
  | some s => .block [s, l.loopTree]
  | none => l.loopTree

end ForLoop

namespace Parser

variable {α β : Type}

/-- Whether all values that a parser yields meet a condition. -/
def Yields (p : Parser α) (P : α → Prop) : Prop :=
  ∀ c a c', p c = .ok a c' → P a

namespace Yields

variable {P : α → Prop} {Q : β → Prop}

theorem pure {a : α} (h : P a) : Yields (Pure.pure a) P := by
  intro c b c' hb
  cases hb
  exact h

theorem bind {p : Parser α} {f : α → Parser β} (hp : p.Yields P)
    (hf : ∀ a, P a → (f a).Yields Q) : (p >>= f).Yields Q := by
  intro c b c' h
  cases hpc : p c with
  | ok a c₁ =>
    simp only [Bind.bind, EStateM.bind, hpc] at h
    exact hf a (hp c a c₁ hpc) c₁ b c' h
  | error e c₁ =>
    simp only [Bind.bind, EStateM.bind, hpc] at h
    cases h

theorem bind_any {p : Parser α} {f : α → Parser β} (hf : ∀ a, (f a).Yields Q) :
    (p >>= f).Yields Q :=
  bind (P := fun _ => True) (fun _ _ _ _ => trivial) fun a _ => hf a

/-- To try one parser and go on in another way if it reads nothing. -/
theorem attempt {p : Parser (Option α)} {k : Option α → Parser β}
    (hsome : ∀ a, (k (some a)).Yields Q) (hnone : (k none).Yields Q) : (p >>= k).Yields Q :=
  bind_any fun o => match o with
    | some a => hsome a
    | none => hnone

theorem mono {p : Parser α} {R : α → Prop} (h : p.Yields P) (hPR : ∀ a, P a → R a) : p.Yields R :=
  fun c a c' hrun => hPR a (h c a c' hrun)

theorem map {p : Parser α} {f : α → β} (h : p.Yields fun a => Q (f a)) : (f <$> p).Yields Q :=
  bind h fun _ ha => pure ha

theorem refuse (cause : SyntaxCause) : (Parser.refuse cause : Parser α).Yields P := by
  intro c a c' h
  cases h

end Yields

end Parser

/-! ## Running -/

namespace ForLoop

open Activation (execute evaluate Ends)
open Step (ends_next_iff ends_done_iff)

variable {l : ForLoop} {limit : Nat} {st st' : State} {r : Except RuntimeError Flow}

/-- Whether the condition of the loop is true. It is if it is left out. -/
def Tests (l : ForLoop) (limit : Nat) (st : State) (r : Except RuntimeError Bool) (st' : State) :
    Prop :=
  match l.condition with
  | some e => e.Tests limit st r st'
  | none => r = .ok true ∧ st' = st

/-- Go into the scope of one round, which there is only if there is an increment. -/
def enterRound (l : ForLoop) (st : State) : State :=
  if l.increment.isSome then st.enter .empty st.current else st

/-- What a round comes to: the body is executed, and the increment is evaluated behind it
if the body falls through. -/
inductive Round (l : ForLoop) (limit : Nat) (st : State) : Except RuntimeError Flow → State → Prop
  | fails {error : RuntimeError} {st₁ : State} :
      (execute l.body).Ends limit (l.enterRound st) (.error error, st₁) →
      l.Round limit st (.error error) { st₁ with current := st.current }
  | returns {v : Value} {st₁ : State} :
      (execute l.body).Ends limit (l.enterRound st) (.ok (.returned v), st₁) →
      l.Round limit st (.ok (.returned v)) { st₁ with current := st.current }
  | completes {st₁ : State} :
      (execute l.body).Ends limit (l.enterRound st) (.ok .normal, st₁) → l.increment = none →
      l.Round limit st (.ok .normal) { st₁ with current := st.current }
  | increments {e : Expr} {v : Except RuntimeError Value} {st₁ st₂ : State} :
      (execute l.body).Ends limit (l.enterRound st) (.ok .normal, st₁) → l.increment = some e →
      (evaluate e).Ends limit st₁ (v, st₂) →
      l.Round limit st (v.map fun _ => .normal) { st₂ with current := st.current }

/-- What the loop comes to: the initializer is executed in a scope of its own, and the
rounds follow in that scope. Without an initializer there is no such scope. -/
inductive Runs (l : ForLoop) (limit : Nat) (st : State) : Except RuntimeError Flow → State → Prop
  | fails {s : Stmt} {error : RuntimeError} {st₁ : State} :
      l.initializer = some s →
      (execute s).Ends limit (st.enter .empty st.current) (.error error, st₁) →
      l.Runs limit st (.error error) { st₁ with current := st.current }
  | iterates {s : Stmt} {st₁ st₂ : State} {r : Except RuntimeError Flow} :
      l.initializer = some s →
      (execute s).Ends limit (st.enter .empty st.current) (.ok .normal, st₁) →
      Iterates (l.Tests limit) (l.Round limit) st₁ r st₂ →
      l.Runs limit st r { st₂ with current := st.current }
  | bare {st₁ : State} {r : Except RuntimeError Flow} :
      l.initializer = none → Iterates (l.Tests limit) (l.Round limit) st r st₁ →
      l.Runs limit st r st₁

theorem tests_iff {r : Except RuntimeError Bool} :
    (l.condition.getD (.literal (.bool true))).Tests limit st r st' ↔ l.Tests limit st r st' := by
  unfold Tests
  cases l.condition with
  | some e => rfl
  | none =>
    have hliteral (v : Except RuntimeError Value) :
        (evaluate (.literal (.bool true))).Ends limit st (v, st') ↔
          (v, st') = (.ok (.bool true), st) :=
      (ends_next_iff _).trans ((ends_next_iff _).trans ends_done_iff)
    constructor
    · rintro ⟨v, hv, rfl⟩
      cases (hliteral v).mp hv
      exact ⟨rfl, rfl⟩
    · rintro ⟨rfl, rfl⟩
      exact ⟨_, (hliteral _).mpr rfl, rfl⟩

/-- A round without an increment is the body and nothing else. -/
theorem round_iff_body (hincrement : l.increment = none) :
    l.Round limit st r st' ↔ (execute l.body).Ends limit st (r, st') := by
  have henter : l.enterRound st = st := by
    rw [enterRound, hincrement]
    rfl
  have hback {r : Except RuntimeError Flow} {st₁ : State}
      (h : (execute l.body).Ends limit st (r, st₁)) : { st₁ with current := st.current } = st₁ := by
    rw [← show st₁.current = st.current from h.restores.current]
  constructor
  · intro h
    cases h with
    | fails h | returns h | completes h _ =>
      rw [henter] at h
      rwa [hback h]
    | increments _ he _ =>
      rw [hincrement] at he
      cases he
  · intro h
    rw [← hback h]
    rw [← henter] at h
    rcases r with error | ⟨_ | v⟩
    · exact .fails (henter ▸ h)
    · exact .completes h hincrement
    · exact .returns h

/-- A round with an increment has a scope of its own for the body and the increment. -/
theorem round_iff_block {e : Expr} (hincrement : l.increment = some e) :
    l.Round limit st r st' ↔ (execute (.block [l.body, .expression e])).Ends limit st (r, st') := by
  have henter : l.enterRound st = st.enter .empty st.current := by
    rw [enterRound, hincrement]
    rfl
  rw [Activation.block_ends_iff, ← henter]
  constructor
  · intro h
    cases h with
    | fails h => exact ⟨_, (Machine.program_cons_ends_iff _ _).mpr (.inr ⟨h, by simp⟩), rfl⟩
    | returns h => exact ⟨_, (Machine.program_cons_ends_iff _ _).mpr (.inr ⟨h, by simp⟩), rfl⟩
    | completes _ hnone => cases hincrement.symm.trans hnone
    | increments h hsome he =>
      cases hincrement.symm.trans hsome
      refine ⟨_, (Machine.program_cons_ends_iff _ _).mpr (.inl ⟨_, h, ?_⟩), rfl⟩
      exact (Machine.program_singleton_ends_iff _).mpr
        ((Activation.expression_ends_iff e).mpr ⟨_, he, rfl⟩)
  · rintro ⟨st₁, h, rfl⟩
    obtain ⟨st₂, hbody, hrest⟩ | ⟨hbody, hr⟩ := (Machine.program_cons_ends_iff _ _).mp h
    · obtain ⟨v, he, rfl⟩ := (Activation.expression_ends_iff e).mp
        ((Machine.program_singleton_ends_iff _).mp hrest)
      exact .increments hbody hincrement he
    · rcases r with error | ⟨_ | v⟩
      · exact .fails hbody
      · exact absurd rfl hr
      · exact .returns hbody

theorem round_iff : (execute l.roundTree).Ends limit st (r, st') ↔ l.Round limit st r st' := by
  unfold roundTree
  cases hincrement : l.increment with
  | none => exact (round_iff_body hincrement).symm
  | some e => exact (round_iff_block hincrement).symm

theorem loopTree_ends_iff : (execute l.loopTree).Ends limit st (r, st') ↔
    Iterates (l.Tests limit) (l.Round limit) st r st' := by
  have htests : (l.condition.getD (.literal (.bool true))).Tests limit = l.Tests limit := by
    funext st r st'
    exact propext tests_iff
  have hround : (fun st r st' => (execute l.roundTree).Ends limit st (r, st')) =
      l.Round limit := by
    funext st r st'
    exact propext round_iff
  rw [loopTree, Activation.loop_ends_iff, htests, hround]

/-- An initializer falls through if it does not fail. -/
theorem Initializes.falls_through {s : Stmt} {f : Flow} (h : Initializes (some s))
    (hs : (execute s).Ends limit st (.ok f, st')) : f = .normal := by
  obtain ⟨e, rfl⟩ | ⟨name, e, rfl⟩ := h s rfl
  · obtain ⟨v, -, hv⟩ := (Activation.expression_ends_iff e).mp hs
    cases v with
    | error error => cases hv
    | ok v =>
      cases hv
      rfl
  · rw [Activation.execute_ends_iff] at hs
    cases e with
    | none =>
      cases ends_done_iff.mp ((ends_next_iff _).mp hs)
      rfl
    | some e =>
      obtain ⟨v, st₁, -, hrest⟩ | ⟨error, st₁, -, hres⟩ :=
        (Activation.eval_ends_iff e (.define name .halt)).mp hs
      · cases ends_done_iff.mp ((ends_next_iff _).mp hrest)
        rfl
      · cases hres

/-- The tree of the loop does what the loop does. -/
theorem tree_ends_iff : (execute l.tree).Ends limit st (r, st') ↔ l.Runs limit st r st' := by
  unfold tree
  cases hinitializer : l.initializer with
  | none =>
    constructor
    · exact fun h => .bare hinitializer (loopTree_ends_iff.mp h)
    · intro h
      cases h with
      | bare _ h => exact loopTree_ends_iff.mpr h
      | fails hsome _ | iterates hsome _ _ => cases hinitializer.symm.trans hsome
  | some s =>
    have hnormal {f : Flow} {st₁ : State}
        (hs : (execute s).Ends limit (st.enter .empty st.current) (.ok f, st₁)) : f = .normal :=
      (hinitializer ▸ l.initializes).falls_through hs
    rw [Activation.block_ends_iff]
    constructor
    · rintro ⟨st₁, h, rfl⟩
      obtain ⟨st₂, hs, hrest⟩ | ⟨hs, hr⟩ := (Machine.program_cons_ends_iff _ _).mp h
      · exact .iterates hinitializer hs
          (loopTree_ends_iff.mp ((Machine.program_singleton_ends_iff _).mp hrest))
      · cases r with
        | error error => exact .fails hinitializer hs
        | ok f => exact absurd (congrArg Except.ok (hnormal hs)) hr
    · intro h
      cases h with
      | bare hnone _ => cases hinitializer.symm.trans hnone
      | fails hsome hs =>
        cases hinitializer.symm.trans hsome
        exact ⟨_, (Machine.program_cons_ends_iff _ _).mpr (.inr ⟨hs, by simp⟩), rfl⟩
      | iterates hsome hs hrounds =>
        cases hinitializer.symm.trans hsome
        refine ⟨_, (Machine.program_cons_ends_iff _ _).mpr (.inl ⟨_, hs, ?_⟩), rfl⟩
        exact (Machine.program_singleton_ends_iff _).mpr (loopTree_ends_iff.mpr hrounds)

theorem Runs.restores (h : l.Runs limit st r st') : st.Restores st' :=
  (tree_ends_iff.mpr h).restores

/-! ## Names -/

end ForLoop

end Lox
