import Lox.Proofs.Activation.Restoring
import Lox.Proofs.Incremental.Recasting
import Lox.Proofs.Scoping.Safety

/-!
# Whole runs in another setting

A run on other lines ends when the run where it was written does, with the same result
on other lines. A program in front of other statements runs as it does alone, and
then these run in the state that it leaves.

## Implementation notes

The references that a sound machine looks up are known, so another table may know any
others as well. A machine that is not known to be sound is only recast into a table
that says the same of all references.
-/

namespace Lox

namespace Recast

variable (ρ : Recast)

/-- What a run ends in, in another setting. -/
def result (r : Except RuntimeError Flow × State) : Except RuntimeError Flow × State :=
  ((r.1.map (Flow.map ρ.closure)).mapError (Blame.move ρ.move), r.2.recast ρ)

end Recast

namespace Machine

variable {ρ : Recast} {limit : Nat}

/-- A run on other lines takes as many steps and ends alike. -/
theorem run_recast (htail : ρ.tail = none) (fuel : Nat) {task : Task .flow} {st : State}
    (h : ∀ r, ρ.Agrees st.table r) :
    run limit fuel (task.recast ρ) (st.recast ρ) = (run limit fuel task st).map ρ.result := by
  induction fuel generalizing task st with
  | zero => rfl
  | succ fuel ih =>
    rw [run, run, step_recast ρ st limit task (fun r _ => h r) (.inl htail)]
    cases hstep : step limit task st with
    | next task' st' => exact ih (table_of_next hstep ▸ h)
    | done outcome st' => rfl
    | failed error st' => rfl

variable {known : Known} {table : BindingTable}

/-- What a sound machine looks up is known. -/
theorem known_of_reference? {task : Task .flow} {st : State} {r : Reference}
    (h : Sound known table task st) (hr : task.reference? = some r) :
    ∃ d, known r.id = some d := by
  obtain ⟨p, -, htask⟩ := h
  cases task with
  | eval e k =>
    cases e <;> cases hr <;> exact ⟨_, htask.1.1⟩
  | value v k =>
    cases k <;> cases hr
    exact ⟨_, htask.2.1⟩
  | _ => cases hr

/-- A sound machine comes to its end without a `return`. -/
theorem isInside_of_sound {task : Task .flow} {st : State} (h : Sound known table task st)
    (hknown : ∀ id d, known id = some d → table.distance? id = d)
    (hhalt : task ≠ .flow .normal .halt) (hend : task ≠ .flow .normal (.sequence [] .halt)) :
    task.IsInside := by
  obtain rfl : st.table = table := h.choose_spec.1.table
  have hnormal := (h.safe hknown).topLevel
  constructor
  · intro f hf
    obtain rfl := hnormal f [] (.inl hf)
    exact hhalt hf
  · intro f rest hf
    obtain rfl := hnormal f rest (.inr hf)
    refine ⟨rfl, ?_⟩
    rintro rfl
    exact hend hf

/-- Statements behind a program that ends well run in the state that it leaves. -/
theorem run_behind {tail : List Stmt} (htail : ρ.tail = some tail)
    (hknown : ∀ id d, known id = some d → table.distance? id = d)
    (hagrees : ∀ id d, known id = some d → ρ.table.distance? (id + ρ.move.shift) = d)
    {fuel : Nat} {task : Task .flow} {st st' : State} {f : Flow} (h : Sound known table task st)
    (hrun : run limit fuel task st = some (.ok f, st')) :
    ∃ n, ∀ m, run limit (n + m) (task.recast ρ) (st.recast ρ) =
      run limit m (program tail) (st'.recast ρ) := by
  induction fuel generalizing task st with
  | zero => cases hrun
  | succ fuel ih =>
    have hlast : (Cont.halt : Cont .flow .flow).recast ρ = .sequence tail .halt := by
      rw [Cont.recast, Recast.last, htail]
    rw [run] at hrun
    by_cases hhalt : task = .flow .normal .halt
    · subst hhalt
      cases hrun
      refine ⟨0, fun m => ?_⟩
      rw [Nat.zero_add, Task.recast, hlast]
      rfl
    by_cases hend : task = .flow .normal (.sequence [] .halt)
    · subst hend
      obtain ⟨n, hn⟩ := ih (by
        have hstep := step_sound limit h
        exact hstep) hrun
      refine ⟨n, fun m => ?_⟩
      rw [← hn m, Task.recast, Task.recast, hlast, Cont.recast, Recast.sequence, htail]
      rfl
    · have hinside := isInside_of_sound h hknown hhalt hend
      have htable : st.table = table := h.choose_spec.1.table
      have hstep := step_recast ρ st limit task (fun r hr => by
        obtain ⟨d, hd⟩ := known_of_reference? h hr
        rw [Recast.Agrees, htable, hagrees _ d hd, hknown _ d hd]) (.inr hinside)
      have hsound := step_sound limit h
      cases hnext : step limit task st with
      | next task' st₁ =>
        rw [hnext] at hrun hstep hsound
        obtain ⟨n, hn⟩ := ih hsound hrun
        refine ⟨n + 1, fun m => ?_⟩
        rw [Nat.add_right_comm, run, hstep]
        exact hn m
      | done outcome st₁ => exact absurd (eq_of_step_done hnext).1 (hinside.halt outcome)
      | failed error st₁ =>
        rw [hnext] at hrun
        cases hrun

end Machine

end Lox
