import Lox.Proofs.Activation.Runs
import Lox.Proofs.Scoping.Steps
import Lox.Proofs.Scoping.Tables
import Lox.Session

/-!
# Sound sessions

Between two sources a session is sound, and so is the machine at every moment of
a run, be the run finite or not.

## Implementation notes

Sources in a session may be rejected, and may be run with different limits. A
moment of a run is a task and a state that the machine comes to from the program
by any number of steps.
-/

namespace Lox

/-! ## Runs -/

namespace Machine

variable {goal : Yield} {known : Known} {table : BindingTable} {limit : Nat}

theorem keeps_sound : Keeps limit (Step.Sound known table : Step goal → Prop) :=
  fun _ _ h => step_sound limit h

/-- A sound machine is sound at every moment. -/
theorem Reaches.sound {a b : Task goal × State} (h : Reaches limit a b)
    (ha : Sound known table a.1 a.2) : Sound known table b.1 b.2 :=
  keeps_sound.reaches h ha

/-- A sound machine leaves a sound state behind. -/
theorem run_sound {fuel : Nat} {task : Task goal} {st st' : State}
    {result : Except RuntimeError goal.Outcome} (h : Sound known table task st)
    (hrun : run limit fuel task st = some (result, st')) : SoundEnd known table st' := by
  have hend := keeps_sound.run h hrun
  cases result <;> exact hend

/-- A machine among the globals is at a place. -/
theorem SoundEnd.at {st : State} (h : SoundEnd known table st) :
    st.At known table ⟨Store.globals, [], .none, none⟩ :=
  ⟨h.store, h.table, h.scope.symm, ⟨⟨rfl, h.size⟩, .nil, by simp⟩⟩

theorem program_sound {st : State} {statements : List Stmt} (h : SoundEnd known table st)
    (hs : Stmt.AreScoped known [] .none statements) : Sound known table (program statements) st :=
  ⟨_, h.at, trivial, fun _ => rfl, rfl, hs, fun _ => ⟨rfl, rfl, rfl⟩⟩

theorem expression_sound {st : State} {e : Expr} (h : SoundEnd known table st)
    (he : e.Scoped known False []) : Sound known table (expression e) st :=
  ⟨_, h.at, he.mono (.refl known) (by simp), rfl, rfl, rfl⟩

end Machine

/-- What becomes of a program is what its machine ends with. -/
theorem State.interpret_eq_run (st : State) (limits : Limits) (ss : List Stmt) :
    st.interpret limits ss = (Machine.run limits.calls limits.steps (Machine.program ss) st).map
      fun r => (r.1.map fun _ => (), r.2) := by
  rw [State.interpret]
  congr 1
  funext r
  obtain ⟨result, last⟩ := r
  cases result <;> rfl

/-! ## Sessions -/

namespace Session

/-- The sessions that sources can lead to. -/
inductive Reachable : Session → Prop
  | fresh : Reachable .fresh
  | run {s s' : Session} {limits : Limits} {source : String} {result : Except Failure Unit} :
      Reachable s → s.run limits source = some (result, s') → Reachable s'
  | evaluate {s s' : Session} {limits : Limits} {source : String}
      {result : Except Failure Value} :
      Reachable s → s.evaluate limits source = some (result, s') → Reachable s'

/-- Whether every stage before it runs accepts a source, and with what result. -/
structure Accepts (s : Session) (source : String) (program : List Stmt) (table : BindingTable)
    (nextId : NodeId) : Prop where
  accepted : ∃ tokens, (lex source).toExcept = .ok tokens ∧
    parseProgram tokens s.nextId = (.ok program, nextId)
  resolved : resolve program = .ok table

/-- Whether the run of a source comes to a moment. -/
def Moment (s : Session) (limit : Nat) (source : String) (task : Task .flow) (st : State) : Prop :=
  ∃ program table nextId, s.Accepts source program table nextId ∧
    Machine.Reaches limit (Machine.program program, s.state.learn table) (task, st)

/-- Whether what a session has stored is sound by what it knows. -/
structure Sound (s : Session) : Prop where
  state : Machine.SoundEnd (s.state.table.known s.nextId) s.state.table s.state
  silent : s.state.table.SilentFrom s.nextId

theorem sound_fresh : fresh.Sound where
  state := by
    have hlocal (scope : ScopeRef) (name : String) : Store.initial.local? scope name = none := by
      cases scope <;> rfl
    refine ⟨⟨?_, ?_, ?_, ?_, ?_⟩, rfl, rfl, Nat.zero_lt_one⟩
    · intro scope name v hv
      cases (hlocal scope name).symm.trans hv
    · intro scope v hv
      cases (hlocal scope _).symm.trans hv
    · intro scope v hv
      cases (hlocal scope _).symm.trans hv
    · intro object name v hv
      cases hv
    · intro object c hc
      cases hc
  silent _ _ := rfl

namespace Sound

variable {s : Session} {table : BindingTable} {nextId : NodeId}

/-- The state learns a table, and numbers are given out. -/
theorem accept (h : s.Sound) (ha : s.state.table.Accepts table s.nextId nextId) :
    Machine.SoundEnd (table.known nextId) table { s.state with table } :=
  ⟨h.state.store.mono ha.grows, rfl, h.state.scope, h.state.size⟩

theorem program {source : String} {statements : List Stmt} (h : s.Sound)
    (ha : s.Accepts source statements table nextId) :
    (s.state.table.merge table).SilentFrom nextId ∧
      Machine.Sound ((s.state.table.merge table).known nextId) (s.state.table.merge table)
        (Machine.program statements) (s.state.learn table) := by
  obtain ⟨⟨tokens, hlex, hparse⟩, hresolve⟩ := ha
  obtain ⟨haccepts, hscoped⟩ := h.silent.program hlex hparse hresolve
  exact ⟨haccepts.silent, Machine.program_sound (h.accept haccepts) hscoped⟩

theorem of_end {st : State} (h : Machine.SoundEnd (table.known nextId) table st)
    (hsilent : table.SilentFrom nextId) : Sound ⟨st, nextId⟩ := by
  obtain rfl := h.table
  exact ⟨h, hsilent⟩

theorem advance (h : s.Sound) (hid : @LE.le Nat _ s.nextId nextId) :
    Sound { s with nextId } :=
  .of_end (h.accept (h.silent.advance hid)) (h.silent.advance hid).silent

end Sound

/-! ## From session to session -/

section

variable {s s' : Session} {limits : Limits} {source : String}

theorem Accepts.run_eq_machine {program : List Stmt} {table : BindingTable} {nextId : NodeId}
    (h : s.Accepts source program table nextId) (limits : Limits) :
    s.run limits source =
      (Machine.run limits.calls limits.steps (Machine.program program) (s.state.learn table)).map
        fun r => ((r.1.map fun _ => ()).mapError Failure.ofRuntime, ⟨r.2, nextId⟩) := by
  obtain ⟨⟨tokens, hlex, hparse⟩, hresolve⟩ := h
  simp only [run, hlex, hparse, hresolve, State.interpret_eq_run, Option.map_map]
  congr 1
  funext r
  obtain ⟨result, st⟩ := r
  cases result <;> rfl

theorem evaluate_eq_machine {tokens : List Token} {e : Expr} {nextId : NodeId}
    (hlex : (lex source).toExcept = .ok tokens)
    (hparse : parseExpression tokens s.nextId = (.ok e, nextId)) (limits : Limits) :
    s.evaluate limits source =
      (Machine.run limits.calls limits.steps (Machine.expression e) s.state).map fun r =>
        (r.1.mapError Failure.ofRuntime, ⟨r.2, nextId⟩) := by
  simp only [evaluate, hlex, hparse, State.evaluate]
  congr 1
  funext r
  obtain ⟨result, st⟩ := r
  cases result <;> rfl

/-- A source is either rejected, which uses up numbers at most, or runs. -/
theorem run_cases {result : Except Failure Unit} (h : s.run limits source = some (result, s')) :
    (∃ nextId, @LE.le Nat _ s.nextId nextId ∧ s' = { s with nextId }) ∨
      ∃ program table nextId outcome, s.Accepts source program table nextId ∧
        Machine.run limits.calls limits.steps (Machine.program program) (s.state.learn table) =
          some (outcome, s'.state) ∧ s'.nextId = nextId ∧
        result = (outcome.map fun _ => ()).mapError Failure.ofRuntime := by
  unfold run at h
  split at h
  · cases h
    exact .inl ⟨s.nextId, Nat.le_refl _, rfl⟩
  next tokens hlex =>
    split at h
    next parsed nextId hparse =>
      have hid := le_of_parseProgram hparse
      split at h
      · cases h
        exact .inl ⟨nextId, hid, rfl⟩
      next program =>
        split at h
        · cases h
          exact .inl ⟨nextId, hid, rfl⟩
        next table hresolve =>
          refine .inr ⟨program, table, nextId, ?_⟩
          unfold State.interpret at h
          rw [Option.map_map, Option.map_eq_some_iff] at h
          obtain ⟨⟨outcome, st⟩, hrun, h⟩ := h
          refine ⟨outcome, ⟨⟨tokens, hlex, hparse⟩, hresolve⟩, ?_⟩
          cases outcome <;> cases h <;> exact ⟨hrun, rfl, rfl⟩

/-- An expression is either rejected, which uses up numbers at most, or evaluated. -/
theorem evaluate_cases {result : Except Failure Value}
    (h : s.evaluate limits source = some (result, s')) :
    (∃ nextId, @LE.le Nat _ s.nextId nextId ∧ s' = { s with nextId }) ∨
      ∃ tokens e nextId outcome, (lex source).toExcept = .ok tokens ∧
        parseExpression tokens s.nextId = (.ok e, nextId) ∧
        Machine.run limits.calls limits.steps (Machine.expression e) s.state =
          some (outcome, s'.state) ∧ s'.nextId = nextId ∧
        result = outcome.mapError Failure.ofRuntime := by
  unfold evaluate at h
  split at h
  · cases h
    exact .inl ⟨s.nextId, Nat.le_refl _, rfl⟩
  next tokens hlex =>
    split at h
    next parsed nextId hparse =>
      have hid := le_of_parseExpression hparse
      split at h
      · cases h
        exact .inl ⟨nextId, hid, rfl⟩
      next e =>
        refine .inr ⟨tokens, e, nextId, ?_⟩
        unfold State.evaluate at h
        rw [Option.map_eq_some_iff] at h
        obtain ⟨⟨outcome, st⟩, hrun, h⟩ := h
        refine ⟨outcome, hlex, hparse, ?_⟩
        cases outcome <;> cases h <;> exact ⟨hrun, rfl, rfl⟩

theorem Sound.run {result : Except Failure Unit} (h : s.Sound)
    (hrun : s.run limits source = some (result, s')) : s'.Sound := by
  obtain ⟨nextId, hid, rfl⟩ | ⟨program, table, nextId, outcome, haccepts, hmachine, rfl, -⟩ :=
    run_cases hrun
  · exact h.advance hid
  · obtain ⟨hsilent, hsound⟩ := h.program haccepts
    exact .of_end (Machine.run_sound hsound hmachine) hsilent

theorem Sound.evaluate {result : Except Failure Value} (h : s.Sound)
    (hrun : s.evaluate limits source = some (result, s')) : s'.Sound := by
  obtain ⟨nextId, hid, rfl⟩ | ⟨tokens, e, nextId, outcome, hlex, hparse, hmachine, rfl, -⟩ :=
    evaluate_cases hrun
  · exact h.advance hid
  · obtain ⟨haccepts, hscoped⟩ := h.silent.expression hlex hparse
    exact .of_end (Machine.run_sound
      (Machine.expression_sound (h.accept haccepts) hscoped) hmachine) haccepts.silent

/-- Every session is sound. -/
theorem Reachable.sound (h : Reachable s) : s.Sound := by
  induction h with
  | fresh => exact sound_fresh
  | run _ hrun ih => exact ih.run hrun
  | evaluate _ hrun ih => exact ih.evaluate hrun

/-- Every moment of the run of a source is sound by what is known then. -/
theorem Reachable.sound_moment {limit : Nat} {task : Task .flow} {st : State}
    (h : Reachable s) (hm : s.Moment limit source task st) :
    ∃ known, (∀ id d, known id = some d → st.table.distance? id = d) ∧
      Machine.Sound known st.table task st := by
  obtain ⟨program, table, nextId, haccepts, hreaches⟩ := hm
  obtain ⟨-, hsound⟩ := h.sound.program haccepts
  have hsound := hreaches.sound hsound
  have htable := hsound.choose_spec.1.table
  rw [← htable] at hsound
  exact ⟨_, fun _ _ => BindingTable.distance?_of_known, hsound⟩

end

end Session

end Lox
