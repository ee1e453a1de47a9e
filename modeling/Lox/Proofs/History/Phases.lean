import Lox.Proofs.Scoping.Sessions

/-!
# Phases of a session

A session goes from phase to phase. Between two sources it is idle. An accepted
program, or an expression, takes it to a machine that is running, and each step of the
machine to the next phase, until the run ends and the session is idle again.

## Implementation notes

A run need not end, so phases reach further than `Session.run`. Any step may be taken
with a limit of its own, and a source that is rejected may use up any numbers.
-/

namespace Lox

/-- What a session is at: between two sources, or in the middle of one. -/
inductive Phase where
  | idle (s : Session)
  | running {goal : Yield} (task : Task goal) (state : State) (nextId : NodeId)

namespace Phase

/-- The state of a phase. -/
def state : Phase → State
  | idle s => s.state
  | running _ st _ => st

/-- Whether one phase comes right after another. -/
inductive Next : Phase → Phase → Prop
  | reject {s : Session} {nextId : NodeId} (h : @LE.le Nat _ s.nextId nextId) :
      Next (.idle s) (.idle { s with nextId })
  | program {s : Session} {source : String} {program : List Stmt} {table : BindingTable}
      {nextId : NodeId} (h : s.Accepts source program table nextId) :
      Next (.idle s) (.running (Machine.program program) (s.state.learn table) nextId)
  | expression {s : Session} {source : String} {tokens : List Token} {e : Expr}
      {nextId : NodeId} (hlex : (lex source).toExcept = .ok tokens)
      (hparse : parseExpression tokens s.nextId = (.ok e, nextId)) :
      Next (.idle s) (.running (Machine.expression e) s.state nextId)
  | step {goal : Yield} {task task' : Task goal} {st st' : State} {nextId : NodeId} {limit : Nat}
      (h : Machine.step limit task st = .next task' st') :
      Next (.running task st nextId) (.running task' st' nextId)
  | done {goal : Yield} {task : Task goal} {st st' : State} {nextId : NodeId} {limit : Nat}
      {outcome : goal.Outcome} (h : Machine.step limit task st = .done outcome st') :
      Next (.running task st nextId) (.idle ⟨st', nextId⟩)
  | failed {goal : Yield} {task : Task goal} {st st' : State} {nextId : NodeId} {limit : Nat}
      {error : RuntimeError} (h : Machine.step limit task st = .failed error st') :
      Next (.running task st nextId) (.idle ⟨st', nextId⟩)

/-- Whether one phase comes at some time after another, or is the same. -/
abbrev Leads : Phase → Phase → Prop :=
  Relation.ReflTransGen Next

/-- The phases that a session can come to. -/
def Reachable : Phase → Prop :=
  Leads (.idle .fresh)

/-! ## Sessions -/

/-- The phase after a step. -/
def ofStep {goal : Yield} (nextId : NodeId) : Step goal → Phase
  | .next task st => running task st nextId
  | .done _ st => idle ⟨st, nextId⟩
  | .failed _ st => idle ⟨st, nextId⟩

theorem Next.of_step {goal : Yield} (limit : Nat) (task : Task goal) (st : State)
    (nextId : NodeId) :
    Next (.running task st nextId) (ofStep nextId (Machine.step limit task st)) := by
  cases hstep : Machine.step limit task st with
  | next => exact .step hstep
  | done => exact .done hstep
  | failed => exact .failed hstep

theorem keeps_leads {goal : Yield} {limit : Nat} (a : Phase) (nextId : NodeId) :
    Machine.Keeps limit fun step : Step goal => Leads a (ofStep nextId step) :=
  fun task st h => h.tail (.of_step limit task st nextId)

/-- A run that ends leads from phase to phase. -/
theorem leads_of_run {goal : Yield} {limit fuel : Nat} {task : Task goal} {st st' : State}
    {nextId : NodeId} {outcome : Except RuntimeError goal.Outcome}
    (h : Machine.run limit fuel task st = some (outcome, st')) :
    Leads (.running task st nextId) (.idle ⟨st', nextId⟩) := by
  have hend := (keeps_leads _ nextId).run .refl h
  cases outcome <;> exact hend

/-- What a machine comes to, a phase comes to. -/
theorem leads_of_reaches {goal : Yield} {limit : Nat} {m m' : Task goal × State} {nextId : NodeId}
    (h : Machine.Reaches limit m m') :
    Leads (.running m.1 m.2 nextId) (.running m'.1 m'.2 nextId) :=
  (keeps_leads _ nextId).reaches h .refl

/-- Every session that sources can lead to is a phase. -/
theorem of_session {s : Session} (h : s.Reachable) : Reachable (.idle s) := by
  induction h with
  | fresh => exact .refl
  | run _ hrun ih =>
    obtain ⟨nextId, hid, rfl⟩ | ⟨program, table, nextId, outcome, haccepts, hmachine, rfl, -⟩ :=
      Session.run_cases hrun
    · exact ih.tail (.reject hid)
    · exact (ih.tail (.program haccepts)).trans (leads_of_run hmachine)
  | evaluate _ hrun ih =>
    obtain ⟨nextId, hid, rfl⟩ | ⟨tokens, e, nextId, outcome, hlex, hparse, hmachine, rfl, -⟩ :=
      Session.evaluate_cases hrun
    · exact ih.tail (.reject hid)
    · exact (ih.tail (.expression hlex hparse)).trans (leads_of_run hmachine)

/-! ## Soundness -/

/-- Whether a phase is sound by what is known of the numbers given out. -/
def Sound : Phase → Prop
  | idle s => s.Sound
  | running task st nextId =>
      st.table.SilentFrom nextId ∧ Machine.Sound (st.table.known nextId) st.table task st

theorem Next.sound {a b : Phase} (h : a.Next b) (ha : a.Sound) : b.Sound := by
  cases h with
  | reject hid => exact Session.Sound.advance ha hid
  | program haccepts => exact Session.Sound.program ha haccepts
  | @expression s source tokens e nextId hlex hparse =>
    have hs : s.Sound := ha
    obtain ⟨haccepts, hscoped⟩ := hs.silent.expression hlex hparse
    exact ⟨haccepts.silent, Machine.expression_sound (hs.accept haccepts) hscoped⟩
  | @step _ task task' st st' nextId limit hstep =>
    obtain ⟨hsilent, hsound⟩ := ha
    have hnext := Machine.step_sound limit hsound
    rw [hstep] at hnext
    have htable : st'.table = st.table := hnext.choose_spec.1.table
    rw [Sound, htable]
    exact ⟨hsilent, hnext⟩
  | @done _ task st st' nextId limit outcome hstep =>
    have hnext := Machine.step_sound limit ha.2
    rw [hstep] at hnext
    exact .of_end hnext ha.1
  | @failed _ task st st' nextId limit error hstep =>
    have hnext := Machine.step_sound limit ha.2
    rw [hstep] at hnext
    exact .of_end hnext ha.1

/-- Every phase is sound. -/
theorem Reachable.sound {a : Phase} (h : a.Reachable) : a.Sound := by
  induction h with
  | refl => exact Session.sound_fresh
  | tail _ hnext ih => exact hnext.sound ih

end Phase

end Lox
