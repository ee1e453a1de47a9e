import Lox.Proofs.Construction.Sealing
import Lox.Proofs.Provenance.Failures

/-!
# Sources that run with any tables

A source that the parser accepts can be run with whatever is known about its references: with
what was found out when its names were bound, with something else, or with nothing. The
phases that this leads to are more than those of sessions, which always know what was found
out, and still receivers stay where they are.
-/

namespace Lox

/-- Before the first source no method was bound. -/
theorem State.sealed_initial : State.initial.Sealed [] where
  code := Store.all_initial _
  recorded := Store.all_initial _
  distinct := ⟨by simp, by simp⟩
  founded := by simp
  bound := by simp
  current := ⟨Nat.zero_lt_one, by simp⟩

variable {events : List Event} {st : State}

/-- What is known about references does not matter. -/
theorem State.Sealed.of_table (h : st.Sealed events) (table : BindingTable) :
    { st with table }.Sealed events where
  code := h.code
  recorded := h.recorded
  distinct := h.distinct
  founded := h.founded
  bound := h.bound
  current := h.current

/-- All words in a program that is read from a source are spelled as their kinds say. -/
theorem program_madeOf_spelled {source : String} {tokens : List Token} {program : List Stmt}
    {firstId nextId : NodeId} (hlex : (lex source).toExcept = .ok tokens)
    (hparse : parseProgram tokens firstId = (.ok program, nextId)) :
    Stmt.AllMadeOf Token.IsSpelled program := by
  have hrun : (parseProgram tokens firstId).1 = .ok program := congrArg Prod.fst hparse
  exact (Parser.program_draws _).of_run_ok (lex_isSpelled hlex) (ends_of_lex hlex) hrun

theorem expression_madeOf_spelled {source : String} {tokens : List Token} {e : Expr}
    {firstId nextId : NodeId} (hlex : (lex source).toExcept = .ok tokens)
    (hparse : parseExpression tokens firstId = (.ok e, nextId)) : e.MadeOf Token.IsSpelled := by
  have hrun : (parseExpression tokens firstId).1 = .ok e := congrArg Prod.fst hparse
  exact (Parser.wholeExpression_draws _).of_run_ok (lex_isSpelled hlex) (ends_of_lex hlex) hrun

theorem Machine.program_sealed {statements : List Stmt} (h : st.Sealed events)
    (hcode : Stmt.AllMadeOf Token.IsSpelled statements) :
    Sealed events (program statements) st where
  state := h
  code := (madeOf_program h.code hcode).holdings
  frames := trivial
  recorded := by
    simp only [program, Task.holdings, Flow.holdings, Cont.holdings, List.nil_append,
      List.append_nil, List.forall_mem_map]
    exact fun _ _ => trivial
  saved := List.forall_mem_nil _

theorem Machine.expression_sealed {e : Expr} (h : st.Sealed events)
    (hcode : e.MadeOf Token.IsSpelled) : Sealed events (expression e) st where
  state := h
  code := (madeOf_expression h.code hcode).holdings
  frames := ⟨hcode, trivial⟩
  recorded := List.forall_mem_singleton.mpr trivial
  saved := List.forall_mem_nil _

namespace Phase

/-- Whether one phase comes right after another when sources that the parser accepts run with
any tables. -/
inductive Continues : Phase → Phase → Prop
  | reject {s : Session} {nextId : NodeId} : Continues (.idle s) (.idle { s with nextId })
  | program {s : Session} {source : String} {tokens : List Token} {program : List Stmt}
      {firstId nextId : NodeId} (table : BindingTable) (hlex : (lex source).toExcept = .ok tokens)
      (hparse : parseProgram tokens firstId = (.ok program, nextId)) :
      Continues (.idle s) (.running (Machine.program program) { s.state with table } nextId)
  | expression {s : Session} {source : String} {tokens : List Token} {e : Expr}
      {firstId nextId : NodeId} (table : BindingTable) (hlex : (lex source).toExcept = .ok tokens)
      (hparse : parseExpression tokens firstId = (.ok e, nextId)) :
      Continues (.idle s) (.running (Machine.expression e) { s.state with table } nextId)
  | step {goal : Yield} {task task' : Task goal} {st st' : State} {nextId : NodeId} {limit : Nat}
      (h : Machine.step limit task st = .next task' st') :
      Continues (.running task st nextId) (.running task' st' nextId)
  | done {goal : Yield} {task : Task goal} {st st' : State} {nextId : NodeId} {limit : Nat}
      {outcome : goal.Outcome} (h : Machine.step limit task st = .done outcome st') :
      Continues (.running task st nextId) (.idle ⟨st', nextId⟩)
  | failed {goal : Yield} {task : Task goal} {st st' : State} {nextId : NodeId} {limit : Nat}
      {error : RuntimeError} (h : Machine.step limit task st = .failed error st') :
      Continues (.running task st nextId) (.idle ⟨st', nextId⟩)

/-- The phases that such sources can lead to, with all that came into being on the way, the
latest first. -/
inductive Arrives : List Event → Phase → Prop
  | fresh : Arrives [] (.idle .fresh)
  | next {events : List Event} {a b : Phase} (h : Arrives events a) (hnext : a.Continues b) :
      Arrives ((a.event? b).toList ++ events) b

/-- Whether receivers are where they were put in a phase. -/
def Sealed (events : List Event) : Phase → Prop
  | idle s => s.state.Sealed events
  | running task st _ => Machine.Sealed events task st

variable {a b : Phase} {goal : Yield} {nextId : NodeId}

/-- What a session comes to is among these phases. -/
theorem Next.continues (h : a.Next b) : a.Continues b := by
  cases h with
  | reject => exact .reject
  | @program s source program table nextId haccepts =>
    obtain ⟨tokens, hlex, hparse⟩ := haccepts.accepted
    exact .program (s.state.table.merge table) hlex hparse
  | @expression s source tokens e nextId hlex hparse => exact .expression s.state.table hlex hparse
  | step hstep => exact .step hstep
  | done hstep => exact .done hstep
  | failed hstep => exact .failed hstep

theorem Lived.arrives (h : Lived events a) : Arrives events a := by
  induction h with
  | fresh => exact .fresh
  | next _ hnext ih => exact ih.next hnext.continues

theorem Continues.of_step (limit : Nat) (task : Task goal) (st : State) (nextId : NodeId) :
    Continues (.running task st nextId) (ofStep nextId (Machine.step limit task st)) :=
  (Next.of_step limit task st nextId).continues

theorem keeps_arrives {limit : Nat} (events : List Event) (nextId : NodeId) :
    Machine.Keeps limit fun step : Step goal =>
      ∃ later, Arrives (later ++ events) (ofStep nextId step) := by
  rintro task st ⟨later, hlater⟩
  have harrives := hlater.next (.of_step limit task st nextId)
  rw [← List.append_assoc] at harrives
  exact ⟨_, harrives⟩

/-- What a machine comes to, a phase comes to. -/
theorem Arrives.reaches {limit : Nat} {m m' : Task goal × State}
    (h : Arrives events (.running m.1 m.2 nextId)) (hreaches : Machine.Reaches limit m m') :
    ∃ later, Arrives (later ++ events) (.running m'.1 m'.2 nextId) :=
  (keeps_arrives events nextId).reaches hreaches ⟨[], h⟩

/-- What is left when a run has ended, a session comes to. -/
theorem Arrives.run {limit n : Nat} {task : Task goal} {st' : State}
    {r : Except RuntimeError goal.Outcome} (h : Arrives events (.running task st nextId))
    (hrun : Machine.run limit n task st = some (r, st')) :
    ∃ later, Arrives (later ++ events) (.idle ⟨st', nextId⟩) := by
  have hend := (keeps_arrives events nextId).run ⟨[], h⟩ hrun
  cases r <;> exact hend

/-- Programs can be interpreted one after the other, each with a table of its own. -/
theorem Arrives.interpret {s : Session} {source : String} {tokens : List Token}
    {program : List Stmt} {firstId : NodeId} {limits : Limits} {st' : State}
    {r : Except RuntimeError Unit} (h : Arrives events (.idle s)) (table : BindingTable)
    (hlex : (lex source).toExcept = .ok tokens)
    (hparse : parseProgram tokens firstId = (.ok program, nextId))
    (hrun : { s.state with table }.interpret limits program = some (r, st')) :
    ∃ later, Arrives (later ++ events) (.idle ⟨st', nextId⟩) := by
  obtain ⟨⟨outcome, last⟩, hmachine, heq⟩ := Option.map_eq_some_iff.mp hrun
  obtain rfl : last = st' := by cases outcome <;> exact congrArg Prod.snd heq
  exact (h.next (.program table hlex hparse)).run hmachine

theorem Continues.sealed (h : a.Continues b) (ha : a.Sealed events) :
    b.Sealed ((a.event? b).toList ++ events) := by
  cases h with
  | reject => exact ha
  | program table hlex hparse =>
    exact Machine.program_sealed (State.Sealed.of_table ha table) (program_madeOf_spelled hlex hparse)
  | expression table hlex hparse =>
    exact Machine.expression_sealed (State.Sealed.of_table ha table)
      (expression_madeOf_spelled hlex hparse)
  | step hstep | done hstep | failed hstep => exact Machine.Sealed.of_step ha hstep

/-- Whatever is known about references, receivers stay where they are. -/
theorem Arrives.sealed (h : Arrives events a) : a.Sealed events := by
  induction h with
  | fresh => exact State.sealed_initial
  | next _ hnext ih => exact hnext.sealed ih

theorem Sealed.state (h : a.Sealed events) : a.state.Sealed events := by
  cases a with
  | idle s => exact h
  | running task st nextId => exact Machine.Sealed.state h

/-- What is held has come into being, if it is no plain value. -/
theorem Sealed.recorded_of_holds {v : Value} (h : a.Sealed events) (hv : a.Holds v) :
    (Holding.value v).IsRecorded events := by
  induction hv with
  | stored hlocal => exact h.state.recorded.value _ _ _ hlocal
  | field hfield => exact h.state.recorded.field _ _ _ hfield
  | «instance» hclass => exact h.state.recorded.cls _ _ hclass
  | holding hheld =>
    cases a with
    | idle s => cases hheld
    | running task st nextId => exact Machine.Sealed.recorded h _ hheld
  | @superclass c d _ hd ih =>
    obtain ⟨statement, hfounded⟩ := (h.state.isFounded ih).chain d (by
      rw [Class.chain_of_some hd]
      exact List.mem_cons_of_mem _ d.mem_chain_self)
    exact .inr ⟨_, hfounded, rfl⟩

end Phase

end Lox
