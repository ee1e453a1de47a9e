import Lox.Proofs.Activation.Restoring

/-!
# Outcomes of pieces of program

How a piece of program ends, with no count of the steps that it takes: with an outcome
or an error, and in a state. A run that begins with a piece ends exactly as the rest of
it ends from there, or with the error of the piece.
-/

namespace Lox

variable {goal whole y : Yield} {limit : Nat} {st : State}

namespace Step

/-- Whether the run that a step begins ends, and so. -/
def Ends (limit : Nat) (step : Step goal) (res : Result goal) : Prop :=
  ∃ n, step.runFor limit n = some res

variable {step : Step goal} {res res' : Result goal}

theorem runFor_add {n : Nat} (h : step.runFor limit n = some res) (more : Nat) :
    step.runFor limit (n + more) = some res := by
  cases step with
  | next task st => exact Machine.run_add h more
  | _ => exact h

theorem Ends.unique (h : step.Ends limit res) (h' : step.Ends limit res') : res = res' := by
  obtain ⟨n, hn⟩ := h
  obtain ⟨m, hm⟩ := h'
  have hlater := runFor_add hm n
  rw [Nat.add_comm, runFor_add hn m] at hlater
  exact Option.some.inj hlater

@[simp] theorem ends_done_iff {outcome : goal.Outcome} :
    (done outcome st).Ends limit res ↔ res = (.ok outcome, st) :=
  ⟨fun ⟨_, h⟩ => (Option.some.inj h).symm, fun h => ⟨0, congrArg some h.symm⟩⟩

@[simp] theorem ends_failed_iff {error : RuntimeError} :
    (failed error st : Step goal).Ends limit res ↔ res = (.error error, st) :=
  ⟨fun ⟨_, h⟩ => (Option.some.inj h).symm, fun h => ⟨0, congrArg some h.symm⟩⟩

/-- A run goes on with the step that its task takes. -/
theorem ends_next_iff (task : Task goal) :
    (next task st).Ends limit res ↔ (Machine.step limit task st).Ends limit res := by
  constructor
  · rintro ⟨n, h⟩
    cases n with
    | zero => cases h
    | succ n => exact ⟨n, runFor_next_succ (n := n) task ▸ h⟩
  · rintro ⟨n, h⟩
    exact ⟨n + 1, (runFor_next_succ task).trans h⟩

/-- How the run of a task ends, seen through a map. -/
theorem exists_run_map_iff {α : Type} {f : Result goal → α} {task : Task goal} {answer : α} :
    (∃ n, (Machine.run limit n task st).map f = some answer) ↔
      ∃ res, (next task st).Ends limit res ∧ answer = f res := by
  constructor
  · rintro ⟨n, h⟩
    obtain ⟨res, hrun, rfl⟩ := Option.map_eq_some_iff.mp h
    exact ⟨res, ⟨n, hrun⟩, rfl⟩
  · rintro ⟨res, ⟨n, hrun⟩, rfl⟩
    exact ⟨n, Option.map_eq_some_iff.mpr ⟨res, hrun, rfl⟩⟩

/-- A larger run that ends has seen the end of the piece that it begins with, and takes no
more steps from there. -/
theorem runFor_append_cases {rest : Cont whole goal} {res : Result whole} {n : Nat}
    (h : (step.append rest).runFor limit n = some res) :
    ∃ r, step.Ends limit r ∧ ((ofResult r).append rest).runFor limit n = some res := by
  cases halone : step.runFor limit n with
  | none =>
    rw [runFor_append_none halone] at h
    cases h
  | some r =>
    obtain ⟨m, hm⟩ := runFor_append halone rest
    refine ⟨r, ⟨n, halone⟩, ?_⟩
    rw [← hm, Nat.add_comm]
    exact runFor_add h m

/-- A larger run ends if the piece that it begins with ends, and the run does from
there. -/
theorem ends_append_iff {rest : Cont whole goal} {res : Result whole} :
    (step.append rest).Ends limit res ↔
      ∃ r, step.Ends limit r ∧ ((ofResult r).append rest).Ends limit res := by
  constructor
  · rintro ⟨n, h⟩
    obtain ⟨r, halone, hrest⟩ := runFor_append_cases h
    exact ⟨r, halone, n, hrest⟩
  · rintro ⟨r, ⟨n, halone⟩, k, h⟩
    obtain ⟨m, hm⟩ := runFor_append halone rest
    exact ⟨m + k, (hm k).trans h⟩

end Step

namespace Activation

/-- Whether something ends when it is carried out from a state, and so. -/
def Ends (limit : Nat) (a : Activation y) (st : State) (res : Result y) : Prop :=
  (a.begin limit .halt st).Ends limit res

theorem Ends.unique {a : Activation y} {res res' : Result y} (h : a.Ends limit st res)
    (h' : a.Ends limit st res') : res = res' :=
  Step.Ends.unique h h'

theorem Ends.restores {a : Activation y} {res : Result y} (h : a.Ends limit st res) :
    st.Restores res.2 := by
  obtain ⟨n, hn⟩ := h
  exact (a.putsBack limit st).restores n res.1 res.2 hn

theorem execute_ends_iff (s : Stmt) {res : Result .flow} :
    (execute s).Ends limit st res ↔ (Machine.exec s .halt st).Ends limit res :=
  Step.ends_next_iff _

theorem evaluate_ends_iff (e : Expr) {res : Result .value} :
    (evaluate e).Ends limit st res ↔ (Machine.eval e .halt st).Ends limit res :=
  Step.ends_next_iff _

/-- What follows something that is carried out begins where that has ended, and is left
if that fails. -/
theorem begin_ends_iff (a : Activation y) (k : Cont goal y) {res : Result goal} :
    (a.begin limit k st).Ends limit res ↔
      (∃ outcome st', a.Ends limit st (.ok outcome, st') ∧
        (Step.next (.receive y outcome k) st').Ends limit res) ∨
      ∃ error st', a.Ends limit st (.error error, st') ∧ res = (.error error, k.unwind st') := by
  rw [← a.begin_append limit k st, Step.ends_append_iff]
  constructor
  · rintro ⟨⟨r, st'⟩, halone, hrest⟩
    cases r with
    | ok outcome => exact .inl ⟨outcome, st', halone, hrest⟩
    | error error => exact .inr ⟨error, st', halone, Step.ends_failed_iff.mp hrest⟩
  · rintro (⟨outcome, st', halone, hrest⟩ | ⟨error, st', halone, rfl⟩)
    · exact ⟨(.ok outcome, st'), halone, hrest⟩
    · exact ⟨(.error error, st'), halone, Step.ends_failed_iff.mpr rfl⟩

/-- An expression that a continuation awaits. -/
theorem eval_ends_iff (e : Expr) (k : Cont goal .value) {res : Result goal} :
    (Step.next (.eval e k) st).Ends limit res ↔
      (∃ v st', (evaluate e).Ends limit st (.ok v, st') ∧
        (Machine.resume limit v k st').Ends limit res) ∨
      ∃ error st', (evaluate e).Ends limit st (.error error, st') ∧
        res = (.error error, k.unwind st') := by
  refine (begin_ends_iff (evaluate e) k).trans ?_
  simp only [Step.ends_next_iff]
  rfl

/-- A statement that a continuation awaits. -/
theorem exec_ends_iff (s : Stmt) (k : Cont goal .flow) {res : Result goal} :
    (Step.next (.exec s k) st).Ends limit res ↔
      (∃ f st', (execute s).Ends limit st (.ok f, st') ∧
        (Machine.proceed f k st').Ends limit res) ∨
      ∃ error st', (execute s).Ends limit st (.error error, st') ∧
        res = (.error error, k.unwind st') := by
  refine (begin_ends_iff (execute s) k).trans ?_
  simp only [Step.ends_next_iff]
  rfl

/-- An expression statement falls through if its expression has a value. -/
theorem expression_ends_iff (e : Expr) {r : Except RuntimeError Flow} {st' : State} :
    (execute (.expression e)).Ends limit st (r, st') ↔
      ∃ v, (evaluate e).Ends limit st (v, st') ∧ r = v.map fun _ => .normal := by
  rw [execute_ends_iff, Machine.exec, eval_ends_iff]
  have hdiscard (v : Value) (st₁ : State) :
      (Machine.resume limit v (.discard (.halt : Cont .flow .flow)) st₁).Ends limit (r, st') ↔
        (r, st') = (.ok .normal, st₁) :=
    (Step.ends_next_iff _).trans Step.ends_done_iff
  constructor
  · rintro (⟨v, st₁, he, hrest⟩ | ⟨error, st₁, he, hres⟩)
    · cases (hdiscard v st₁).mp hrest
      exact ⟨.ok v, he, rfl⟩
    · cases hres
      exact ⟨.error error, he, rfl⟩
  · rintro ⟨v, he, rfl⟩
    cases v with
    | ok v => exact .inl ⟨v, st', he, (hdiscard v st').mpr rfl⟩
    | error error => exact .inr ⟨error, st', he, rfl⟩

/-- A value is printed where its evaluation ends, if it ends with a value. -/
theorem print_ends_iff (e : Expr) {res : Result .flow} :
    (execute (.print e)).Ends limit st res ↔
      (∃ v st', (evaluate e).Ends limit st (.ok v, st') ∧
        res = (.ok .normal, st'.print (st'.store.display v))) ∨
      ∃ error st', (evaluate e).Ends limit st (.error error, st') ∧ res = (.error error, st') := by
  have hprint (v : Value) (st₁ : State) :
      (Machine.resume limit v (.print (.halt : Cont .flow .flow)) st₁).Ends limit res ↔
        res = (.ok .normal, st₁.print (st₁.store.display v)) :=
    (Step.ends_next_iff _).trans Step.ends_done_iff
  rw [execute_ends_iff, Machine.exec, eval_ends_iff]
  simp only [hprint]
  rfl

theorem block_ends_iff (ss : List Stmt) {r : Except RuntimeError Flow} {st' : State} :
    (execute (.block ss)).Ends limit st (r, st') ↔
      ∃ st₁, (Step.next (Machine.program ss) (st.enter .empty st.current)).Ends limit (r, st₁) ∧
        st' = { st₁ with current := st.current } := by
  have hleave (r₁ : Except RuntimeError Flow) (st₁ : State) :
      ((Step.ofResult ((r₁, st₁) : Result .flow)).append
          (.leaveScope st.current .halt : Cont .flow .flow)).Ends limit (r, st') ↔
        (r, st') = (r₁, { st₁ with current := st.current }) := by
    cases r₁ with
    | ok f =>
      change (Step.next (.flow f (.leaveScope st.current .halt)) st₁).Ends limit (r, st') ↔ _
      rw [Step.ends_next_iff]
      exact (Step.ends_next_iff _).trans Step.ends_done_iff
    | error error => exact Step.ends_failed_iff
  have hbody : Machine.exec (.block ss) (.halt : Cont .flow .flow) st =
      (Step.next (Machine.program ss) (st.enter .empty st.current)).append
        (.leaveScope st.current .halt) := rfl
  rw [execute_ends_iff, hbody, Step.ends_append_iff]
  constructor
  · rintro ⟨⟨r₁, st₁⟩, hbody, hrest⟩
    cases (hleave r₁ st₁).mp hrest
    exact ⟨st₁, hbody, rfl⟩
  · rintro ⟨st₁, hbody, rfl⟩
    exact ⟨(r, st₁), hbody, (hleave r st₁).mpr rfl⟩

end Activation

namespace Machine

/-! ## Statements in order -/

theorem program_nil_ends_iff {res : Result .flow} :
    (Step.next (program []) st).Ends limit res ↔ res = (.ok .normal, st) := by
  rw [Step.ends_next_iff]
  exact (Step.ends_next_iff _).trans Step.ends_done_iff

/-- Statements in order end with the first that does not fall through. -/
theorem program_cons_ends_iff (s : Stmt) (ss : List Stmt) {r : Except RuntimeError Flow}
    {st' : State} :
    (Step.next (program (s :: ss)) st).Ends limit (r, st') ↔
      (∃ st₁, (Activation.execute s).Ends limit st (.ok .normal, st₁) ∧
        (Step.next (program ss) st₁).Ends limit (r, st')) ∨
      (Activation.execute s).Ends limit st (r, st') ∧ r ≠ .ok .normal := by
  have hreturned (v : Value) (st₁ : State) :
      (proceed (.returned v) (.sequence ss .halt) st₁).Ends limit (r, st') ↔
        (r, st') = (.ok (.returned v), st₁) := by
    cases ss <;> exact (Step.ends_next_iff _).trans Step.ends_done_iff
  refine (Step.ends_next_iff _).trans ((Activation.exec_ends_iff s (.sequence ss .halt)).trans ?_)
  constructor
  · rintro (⟨f, st₁, hs, hrest⟩ | ⟨error, st₁, hs, hres⟩)
    · cases f with
      | normal => exact .inl ⟨st₁, hs, (Step.ends_next_iff _).mpr hrest⟩
      | returned v =>
        cases (hreturned v st₁).mp hrest
        exact .inr ⟨hs, by simp⟩
    · cases hres
      exact .inr ⟨hs, by simp⟩
  · rintro (⟨st₁, hs, hrest⟩ | ⟨hs, hr⟩)
    · exact .inl ⟨.normal, st₁, hs, (Step.ends_next_iff _).mp hrest⟩
    · cases r with
      | error error => exact .inr ⟨error, st', hs, rfl⟩
      | ok f =>
        cases f with
        | normal => exact absurd rfl hr
        | returned v => exact .inl ⟨.returned v, st', hs, (hreturned v st').mpr rfl⟩

theorem program_singleton_ends_iff (s : Stmt) {r : Except RuntimeError Flow} {st' : State} :
    (Step.next (program [s]) st).Ends limit (r, st') ↔
      (Activation.execute s).Ends limit st (r, st') := by
  rw [program_cons_ends_iff]
  constructor
  · rintro (⟨st₁, hs, hrest⟩ | ⟨hs, -⟩)
    · cases program_nil_ends_iff.mp hrest
      exact hs
    · exact hs
  · intro hs
    by_cases hr : r = .ok .normal
    · subst hr
      exact .inl ⟨st', hs, program_nil_ends_iff.mpr rfl⟩
    · exact .inr ⟨hs, hr⟩

end Machine

end Lox
