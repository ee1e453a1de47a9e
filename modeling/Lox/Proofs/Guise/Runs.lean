import Lox.Proofs.Activation.Embedding
import Lox.Proofs.Guise.Steps
import Lox.Proofs.Scoping.Sessions

/-!
# Runs in another guise

Two machines that are alike print the same, and end in the same way or not at all. The
other one ends a few steps later if it has to leave the scope around its program.
-/

namespace Lox

/-- How many more steps the other machine takes. -/
def Guise.delay (G : Guise) : Nat :=
  2 * G.shift

/-- Runs that end alike: both well, or with errors that are alike. -/
inductive Guise.Ends (G : Guise) : Except RuntimeError Flow → Except RuntimeError Flow → Prop
  | ok (f f' : Flow) : Ends G (.ok f) (.ok f')
  | error {e e' : RuntimeError} (he : G.Errs e e') : Ends G (.error e) (.error e')

variable {G : Guise} {known : Known} {table : BindingTable} {task task' : Task .flow}
  {st st' : State}

namespace Machine

/-- Behind its program the other machine leaves the scope around it and ends. -/
theorem run_last (limit fuel : Nat) (f : Flow) (st : State) :
    ∃ st', run limit (fuel + 1 + G.delay) (.flow f G.last) st = some (.ok f, st') ∧
      st'.output = st.output := by
  unfold Guise.delay Guise.shift Guise.last
  cases G.wrapped with
  | false => exact ⟨st, rfl, rfl⟩
  | true => exact ⟨{ st with current := Store.globals }, rfl, rfl⟩

/-- If the first machine ends, so does the other. -/
theorem run_alike {limit fuel : Nat} {result : Except RuntimeError Flow} {last : State}
    (hsound : Sound known table task st) (h : Alike G task st task' st')
    (hrun : run limit fuel task st = some (result, last)) :
    ∃ result' last', run limit (fuel + G.delay) task' st' = some (result', last') ∧
      G.Ends result result' ∧ last'.output = last.output := by
  induction fuel generalizing task task' st st' with
  | zero => cases hrun
  | succ fuel ih =>
    by_cases hhalt : ∃ f, task = .flow f .halt
    · obtain ⟨f, rfl⟩ := hhalt
      obtain ⟨M, K, hstate, htask⟩ := h
      cases hrun
      cases htask with
      | @flow _ f' _ k' hf hk =>
        cases hk with
        | halt =>
          obtain ⟨last', hlast, houtput⟩ := run_last limit fuel f' st'
          exact ⟨_, last', hlast, .ok f f', houtput.trans hstate.output⟩
    · have hstep := step_alike limit hsound h fun f hf => hhalt ⟨f, hf⟩
      have hnext := step_sound limit hsound
      rw [run] at hrun
      rw [Nat.add_right_comm, run]
      generalize step limit task st = a at hstep hnext hrun
      generalize step limit task' st' = a' at hstep ⊢
      cases hstep with
      | next halike => exact ih hnext halike hrun
      | failed he houtput =>
        cases hrun
        exact ⟨_, _, rfl, .error he, houtput⟩

/-- If the other machine ends, so does the first. -/
theorem alike_run {limit fuel : Nat} {result' : Except RuntimeError Flow} {last' : State}
    (hsound : Sound known table task st) (h : Alike G task st task' st')
    (hrun : run limit fuel task' st' = some (result', last')) :
    ∃ result last, run limit fuel task st = some (result, last) := by
  induction fuel generalizing task task' st st' with
  | zero => cases hrun
  | succ fuel ih =>
    by_cases hhalt : ∃ f, task = .flow f .halt
    · obtain ⟨f, rfl⟩ := hhalt
      exact ⟨.ok f, st, rfl⟩
    · have hstep := step_alike limit hsound h fun f hf => hhalt ⟨f, hf⟩
      have hnext := step_sound limit hsound
      rw [run] at hrun
      rw [run]
      generalize step limit task st = a at hstep hnext ⊢
      generalize step limit task' st' = a' at hstep hrun
      cases hstep with
      | next halike => exact ih hnext halike hrun
      | failed he houtput => exact ⟨_, _, rfl⟩

/-- If nothing is around the program of the other machine, both end after as many steps. -/
theorem run_rel {limit fuel : Nat} (hwrapped : G.wrapped = false)
    (hsound : Sound known table task st) (h : Alike G task st task' st') :
    Option.Rel (fun r r' => G.Ends r.1 r'.1 ∧ r'.2.output = r.2.output)
      (run limit fuel task st) (run limit fuel task' st') := by
  have hdelay : G.delay = 0 := by
    rw [Guise.delay, Guise.shift, hwrapped]
    rfl
  cases hrun : run limit fuel task st with
  | some r =>
    obtain ⟨result', last', hrun', hends, houtput⟩ := run_alike hsound h hrun
    rw [hdelay, Nat.add_zero] at hrun'
    rw [hrun']
    exact .some ⟨hends, houtput⟩
  | none =>
    cases hrun' : run limit fuel task' st' with
    | none => exact .none
    | some r' =>
      obtain ⟨result, last, hsome⟩ := alike_run hsound h hrun'
      rw [hrun] at hsome
      cases hsome

/-- As long as the first machine goes on, so does the other, and they print the same. -/
theorem stepFor_alike {limit n : Nat} {b : Task .flow × State} (hsound : Sound known table task st)
    (h : Alike G task st task' st') (hsteps : stepFor limit n task st = some b) :
    ∃ b', stepFor limit n task' st' = some b' ∧ Alike G b.1 b.2 b'.1 b'.2 := by
  induction n generalizing task task' st st' with
  | zero =>
    cases hsteps
    exact ⟨_, rfl, h⟩
  | succ n ih =>
    have hhalt (f : Flow) : task ≠ .flow f .halt := by
      rintro rfl
      cases hsteps
    have hstep := step_alike limit hsound h hhalt
    have hnext := step_sound limit hsound
    rw [stepFor] at hsteps
    rw [stepFor]
    generalize step limit task st = a at hstep hnext hsteps
    generalize step limit task' st' = a' at hstep ⊢
    cases hstep with
    | next halike => exact ih hnext halike hsteps
    | failed _ _ => cases hsteps

/-- Programs that are alike start in states that correspond to each other. -/
theorem program_alike {M : Marks} {ss ss' : List Stmt} (h : st.Alike G M [] st')
    (hss : Stmt.AreAlike G [] ss ss') :
    Alike G (program ss) st (.flow .normal (.sequence ss' G.last)) st' :=
  ⟨M, [], h, .flow .normal (.sequence hss .halt)⟩

end Machine

end Lox
