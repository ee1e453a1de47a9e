import Lox.Proofs.Activation.Outcomes

/-!
# What loops do

The rounds of a loop one after the other, without its tree: each begins with a test, and
the loop is over when the test says so, when a test or a round fails, or when a round
returns. A `for` loop, which is read as blocks around a `while` loop, is such a loop: its
initializer runs once, in a scope that all rounds share, and each round is the body and
then the increment.

## Implementation notes

In the tree the body and the increment stand in a block of their own. So there is one more
scope in each round; the body declares nothing there, and it stays blank.
-/

namespace Lox

variable {limit : Nat} {st st' : State} {r : Except RuntimeError Flow}

/-- What the rounds of a loop come to, given what one test and one round come to. -/
inductive Iterates (test : State → Except RuntimeError Bool → State → Prop)
    (round : State → Except RuntimeError Flow → State → Prop) :
    State → Except RuntimeError Flow → State → Prop
  | fails {st st₁ : State} {error : RuntimeError} :
      test st (.error error) st₁ → Iterates test round st (.error error) st₁
  | stops {st st₁ : State} :
      test st (.ok false) st₁ → Iterates test round st (.ok .normal) st₁
  | leaves {st st₁ st₂ : State} {r : Except RuntimeError Flow} :
      test st (.ok true) st₁ → round st₁ r st₂ → r ≠ .ok .normal → Iterates test round st r st₂
  | again {st st₁ st₂ st₃ : State} {r : Except RuntimeError Flow} :
      test st (.ok true) st₁ → round st₁ (.ok .normal) st₂ → Iterates test round st₂ r st₃ →
      Iterates test round st r st₃

/-- Whether a condition is true. -/
def Expr.Tests (limit : Nat) (condition : Expr) (st : State) (r : Except RuntimeError Bool)
    (st' : State) : Prop :=
  ∃ v, (Activation.evaluate condition).Ends limit st (v, st') ∧ r = v.map Value.isTruthy

theorem Expr.tests_ok_iff {condition : Expr} {b : Bool} :
    condition.Tests limit st (.ok b) st' ↔
      ∃ v, (Activation.evaluate condition).Ends limit st (.ok v, st') ∧ v.isTruthy = b := by
  constructor
  · rintro ⟨v, h, hv⟩
    cases v with
    | error error => cases hv
    | ok v => exact ⟨v, h, (Except.ok.inj hv).symm⟩
  · rintro ⟨v, h, rfl⟩
    exact ⟨.ok v, h, rfl⟩

theorem Expr.tests_error_iff {condition : Expr} {error : RuntimeError} :
    condition.Tests limit st (.error error) st' ↔
      (Activation.evaluate condition).Ends limit st (.error error, st') := by
  constructor
  · rintro ⟨v, h, hv⟩
    cases v with
    | error e =>
      cases hv
      exact h
    | ok v => cases hv
  · exact fun h => ⟨_, h, rfl⟩

namespace Activation

open Step (ends_next_iff ends_done_iff ends_failed_iff)

section

variable {condition : Expr} {body : Stmt}

/-- A loop that ends has gone through its rounds. The induction is on the steps of the run,
from one test to the next. -/
theorem iterates_of_runFor {n : Nat}
    (h : (Step.next (.eval condition (.loopTest condition body (.halt : Cont .flow .flow)))
      st).runFor limit n = some (r, st')) :
    Iterates (condition.Tests limit) (fun st r st' => (execute body).Ends limit st (r, st'))
      st r st' := by
  induction n using Nat.strong_induction_on generalizing st with
  | h n ih =>
    have happend : ((Step.next (.eval condition .halt) st).append
        (.loopTest condition body .halt)).runFor limit n = some (r, st') := h
    obtain ⟨⟨v, st₁⟩, hcondition, htest⟩ := Step.runFor_append_cases happend
    cases v with
    | error error =>
      cases htest
      exact .fails (Expr.tests_error_iff.mpr hcondition)
    | ok v =>
      cases n with
      | zero => cases htest
      | succ m =>
        rw [Step.ofResult, Step.append, Step.runFor_next_succ] at htest
        simp only [Task.receive, Machine.step, Machine.resume] at htest
        cases hv : v.isTruthy with
        | false =>
          rw [hv] at htest
          cases ends_done_iff.mp ((ends_next_iff _).mp ⟨m, htest⟩)
          exact .stops (Expr.tests_ok_iff.mpr ⟨v, hcondition, hv⟩)
        | true =>
          rw [hv] at htest
          have htrue : condition.Tests limit st (.ok true) st₁ :=
            Expr.tests_ok_iff.mpr ⟨v, hcondition, hv⟩
          have happend : ((Step.next (.exec body .halt) st₁).append
              (.loopBody condition body .halt)).runFor limit m = some (r, st') := htest
          obtain ⟨⟨r₁, st₂⟩, hbody, hround⟩ := Step.runFor_append_cases happend
          cases r₁ with
          | error error =>
            cases hround
            exact .leaves htrue hbody (by simp)
          | ok f =>
            cases f with
            | returned v =>
              have hends := (ends_next_iff _).mp ((ends_next_iff _).mp ⟨m, hround⟩)
              cases ends_done_iff.mp hends
              exact .leaves htrue hbody (by simp)
            | normal =>
              cases m with
              | zero => cases hround
              | succ k =>
                rw [Step.ofResult, Step.append, Step.runFor_next_succ] at hround
                exact .again htrue hbody (ih k (by omega) hround)

/-- A loop does its rounds one after the other. -/
theorem loop_ends_iff : (execute (.loop condition body)).Ends limit st (r, st') ↔
    Iterates (condition.Tests limit) (fun st r st' => (execute body).Ends limit st (r, st'))
      st r st' := by
  rw [execute_ends_iff]
  constructor
  · rintro ⟨n, h⟩
    exact iterates_of_runFor h
  · intro h
    rw [Machine.exec, eval_ends_iff]
    induction h with
    | fails htest => exact .inr ⟨_, _, Expr.tests_error_iff.mp htest, rfl⟩
    | stops htest =>
      obtain ⟨v, hcondition, hv⟩ := Expr.tests_ok_iff.mp htest
      refine .inl ⟨v, _, hcondition, ?_⟩
      rw [Machine.resume, hv]
      exact (ends_next_iff _).mpr (ends_done_iff.mpr rfl)
    | leaves htest hbody hr =>
      obtain ⟨v, hcondition, hv⟩ := Expr.tests_ok_iff.mp htest
      refine .inl ⟨v, _, hcondition, ?_⟩
      rw [Machine.resume, hv]
      refine (exec_ends_iff body _).mpr ?_
      rename_i r
      cases r with
      | error error => exact .inr ⟨_, _, hbody, rfl⟩
      | ok f =>
        cases f with
        | normal => exact absurd rfl hr
        | returned v =>
          exact .inl ⟨_, _, hbody, (ends_next_iff _).mpr (ends_done_iff.mpr rfl)⟩
    | again htest hbody _ ih =>
      obtain ⟨v, hcondition, hv⟩ := Expr.tests_ok_iff.mp htest
      refine .inl ⟨v, _, hcondition, ?_⟩
      rw [Machine.resume, hv]
      exact (exec_ends_iff body _).mpr (.inl ⟨_, _, hbody, (eval_ends_iff condition _).mpr ih⟩)

end

end Activation

end Lox
