import Lox.Machine
import Mathlib.Logic.Relation

/-!
# Runs of the machine

What a machine comes to step by step, and how its run ends. What every step keeps, all
moments of a run have, and so has its end.

## Implementation notes

What is kept is a property of steps rather than of tasks and states. A run ends in a step
without a next task, so the property also says what is left of it at an outcome and at an
error, and one induction on a run serves every invariant.
-/

namespace Lox

/-- How a run ends. -/
abbrev Result (goal : Yield) := Except RuntimeError goal.Outcome × State

/-- What becomes of a run after a step, with a number of steps left. -/
def Step.runFor {goal : Yield} (limit n : Nat) : Step goal → Option (Result goal)
  | .next task st => Machine.run limit n task st
  | .done outcome st => some (.ok outcome, st)
  | .failed error st => some (.error error, st)

/-- The last step of a run that ends so. -/
def Step.ofResult {goal : Yield} : Result goal → Step goal
  | (.ok outcome, st) => .done outcome st
  | (.error error, st) => .failed error st

namespace Machine

variable {goal : Yield} {limit n : Nat} {task : Task goal} {st : State} {res : Result goal}

theorem run_succ (limit n : Nat) (task : Task goal) (st : State) :
    run limit (n + 1) task st = (step limit task st).runFor limit n := by
  rw [run]
  cases step limit task st <;> rfl

theorem runFor_of_run (h : run limit n task st = some res) :
    ∃ m < n, (step limit task st).runFor limit m = some res := by
  cases n with
  | zero => cases h
  | succ n => exact ⟨n, Nat.lt_succ_self n, (run_succ limit n task st).symm.trans h⟩

/-- Whether a machine comes from one task and state to others by some steps. -/
def Reaches (limit : Nat) : Task goal × State → Task goal × State → Prop :=
  Relation.ReflTransGen fun a b => step limit a.1 a.2 = .next b.1 b.2

/-- What a machine has come to after some steps. -/
def stepFor (limit : Nat) : Nat → Task goal → State → Option (Task goal × State)
  | 0, task, st => some (task, st)
  | n + 1, task, st =>
      match step limit task st with
      | .next task st => stepFor limit n task st
      | _ => none

theorem Reaches.of_stepFor {b : Task goal × State} (h : stepFor limit n task st = some b) :
    Reaches limit (task, st) b := by
  induction n generalizing task st with
  | zero =>
    obtain rfl := Option.some.inj h
    exact .refl
  | succ n ih =>
    rw [stepFor] at h
    split at h
    next task' st' hstep => exact .head hstep (ih h)
    next => cases h

/-! ## Invariants -/

/-- Whether a property of a step carries over to the step that is taken next. -/
def Keeps (limit : Nat) (P : Step goal → Prop) : Prop :=
  ∀ task st, P (.next task st) → P (step limit task st)

namespace Keeps

variable {P : Step goal → Prop}

/-- What is kept holds at every moment. -/
theorem reaches (h : Keeps limit P) {a b : Task goal × State} (hreaches : Reaches limit a b)
    (ha : P (.next a.1 a.2)) : P (.next b.1 b.2) := by
  induction hreaches with
  | refl => exact ha
  | tail _ hstep ih => exact hstep ▸ h _ _ ih

/-- What is kept holds at the end. -/
theorem runFor (h : Keeps limit P) {step : Step goal} (hstep : P step)
    (hrun : step.runFor limit n = some res) : P (.ofResult res) := by
  induction n generalizing step with
  | zero =>
    cases step with
    | next task st => cases hrun
    | _ =>
      cases hrun
      exact hstep
  | succ n ih =>
    cases step with
    | next task st => exact ih (h task st hstep) ((run_succ limit n task st).symm.trans hrun)
    | _ =>
      cases hrun
      exact hstep

theorem run (h : Keeps limit P) (hstart : P (.next task st))
    (hrun : Machine.run limit n task st = some res) : P (.ofResult res) :=
  h.runFor hstart hrun

end Keeps

end Machine

end Lox
