import Lox.Proofs.Activation.Outcomes

/-!
# The limit on calls

A call that is open has a frame in the continuation that ends it, and the machine counts
these frames. The limit is compared with that number where a call is about to be made, and
nowhere else. A run that never meets the limit therefore takes the very same steps under
any higher one, and a run that does meet it has taken the steps that a run under a higher
limit begins with.

## Implementation notes

Under two limits a step is the same or fails under the lower one (`step_eq_or_fails`). What
the other run goes on to print is appended to what has been printed by then, which is why
nothing needs to be known of the rest of it.
-/

namespace Lox

variable {goal : Yield} {limit limit' : Nat} {st st' : State}

/-! ## Open calls -/

/-- The number of calls that are open: each has one frame that ends it. -/
def Cont.openCalls {y : Yield} : Cont goal y → Nat
  | .halt => 0
  | .unary _ _ k => k.openCalls
  | .binaryLeft _ _ _ k => k.openCalls
  | .binaryRight _ _ _ k => k.openCalls
  | .logical _ _ k => k.openCalls
  | .assign _ k => k.openCalls
  | .get _ k => k.openCalls
  | .setObject _ _ k => k.openCalls
  | .setValue _ _ k => k.openCalls
  | .callee _ _ k => k.openCalls
  | .argument _ _ _ _ k => k.openCalls
  | .construct _ k => k.openCalls
  | .endCall k => k.openCalls + 1
  | .discard k => k.openCalls
  | .print k => k.openCalls
  | .define _ k => k.openCalls
  | .ret k => k.openCalls
  | .branch _ _ k => k.openCalls
  | .loopTest _ _ k => k.openCalls
  | .superclass _ _ _ k => k.openCalls
  | .sequence _ k => k.openCalls
  | .leaveScope _ k => k.openCalls
  | .loopBody _ _ k => k.openCalls
  | .endBody _ k => k.openCalls

namespace Task

/-- The number of calls that are open while a task is carried out. -/
def openCalls : Task goal → Nat
  | .eval _ k => k.openCalls
  | .exec _ k => k.openCalls
  | .value _ k => k.openCalls
  | .flow _ k => k.openCalls

variable {task task' : Task goal} {called : Value} {closing : Token} {arguments : List Value}
  {k : Cont goal .value}

theorem Calls.openCalls_eq (h : task.Calls called closing arguments k) :
    task.openCalls = k.openCalls := by
  cases h <;> rfl

theorem Unfolds.openCalls_eq (h : task.Unfolds st task') : task'.openCalls = task.openCalls := by
  cases h <;> rfl

end Task

/-- Whether the open calls are counted after a step, and not too many. -/
def Step.Counted (limit : Nat) : Step goal → Prop
  | .next task st => st.calls = task.openCalls ∧ st.calls ≤ limit
  | _ => True

namespace Machine

/-! ## Steps -/

variable {k : Cont goal .value}

/-- A call that is not too deep opens one call, be it of a function or of a class with or
without an initializer. -/
theorem call_opens {called : Value} {arguments : List Value} (closing : Token)
    (harity : arity? called = some arguments.length) (hlt : st.calls < limit) :
    ∃ task st', call limit called closing arguments k st = .next task st' ∧
      st'.calls = st.calls + 1 ∧ task.openCalls = k.openCalls + 1 := by
  unfold call
  rw [harity]
  simp only [ne_eq, not_true_eq_false, if_false, if_neg (Nat.not_le_of_lt hlt)]
  cases called with
  | function closure => exact ⟨_, _, rfl, rfl, rfl⟩
  | cls c =>
    simp only [instantiate]
    cases c.method? initializerName with
    | none => exact ⟨_, _, rfl, rfl, rfl⟩
    | some m => exact ⟨_, _, rfl, rfl, rfl⟩
  | _ => cases harity

/-- A call that is too deep fails where it stands. -/
theorem call_refuses {called : Value} {arguments : List Value} (closing : Token)
    (harity : arity? called = some arguments.length) (hle : limit ≤ st.calls) :
    call limit called closing arguments k st = fail .callsTooDeep closing k st := by
  unfold call
  rw [harity]
  simp only [ne_eq, not_true_eq_false, if_false, if_pos hle]

/-- What cannot be called with these arguments fails alike under every limit. -/
theorem call_rejects {called : Value} {arguments : List Value} (closing : Token)
    (k : Cont goal .value) (st : State) (harity : arity? called ≠ some arguments.length) :
    ∃ cause, ∀ limit, call limit called closing arguments k st = fail cause closing k st := by
  unfold call
  cases hfound : arity? called with
  | none => exact ⟨.notCallable, fun _ => rfl⟩
  | some arity =>
    have hne : arguments.length ≠ arity := fun heq => harity (heq ▸ hfound)
    exact ⟨.wrongArgumentCount arity arguments.length, fun _ => if_pos hne⟩

/-- A step keeps count of the open calls. -/
theorem Rule.counted {task : Task goal} {step : Step goal} (hrule : Rule limit st task step)
    (h : st.calls = task.openCalls) (hle : st.calls ≤ limit) : step.Counted limit := by
  cases hrule with
  | halts | fails | failsBase => trivial
  | unfolds hunfolds => exact ⟨h.trans hunfolds.openCalls_eq.symm, hle⟩
  | function _ _ _ hcalls _ hlt => exact ⟨congrArg (· + 1) (h.trans hcalls.openCalls_eq), hlt⟩
  | newInstance _ _ hcalls hlt => exact ⟨congrArg (· + 1) (h.trans hcalls.openCalls_eq), hlt⟩
  | initializer _ _ _ _ hcalls _ hlt =>
    exact ⟨congrArg (· + 1) (h.trans hcalls.openCalls_eq), hlt⟩
  | endCall v k => exact ⟨congrArg (· - 1) h, Nat.le_trans (Nat.sub_le _ _) hle⟩
  | _ => exact ⟨h, hle⟩

/-- Under a higher limit a step is the same, unless it is a call that is too deep. -/
theorem step_eq_or_fails (hle : limit ≤ limit') (task : Task goal) (st : State) :
    step limit' task st = step limit task st ∨ ∃ called closing arguments k,
      task.Calls called closing arguments k ∧
        step limit task st = fail .callsTooDeep closing k st := by
  have hcall {called closing arguments k} (h : task.Calls called closing arguments k) :
      step limit' task st = step limit task st ∨ ∃ called closing arguments k,
        task.Calls called closing arguments k ∧
          step limit task st = fail .callsTooDeep closing k st := by
    rw [h.step_eq, h.step_eq]
    by_cases harity : arity? called = some arguments.length
    · by_cases hdeep : limit ≤ st.calls
      · exact .inr ⟨called, closing, arguments, k, h, call_refuses closing harity hdeep⟩
      · refine .inl ?_
        unfold call
        rw [harity]
        simp only [if_neg hdeep, if_neg fun hdeep' => hdeep (Nat.le_trans hle hdeep')]
    · obtain ⟨cause, heq⟩ := call_rejects closing k st harity
      exact .inl ((heq limit').trans (heq limit).symm)
  cases task with
  | value v k =>
    cases k with
    | callee closing arguments k =>
      cases arguments with
      | nil => exact hcall (.plain v closing k)
      | cons first others => exact .inl rfl
    | argument callee closing done next k =>
      cases next with
      | nil => exact hcall (.last v callee closing done k)
      | cons first others => exact .inl rfl
    | _ => exact .inl rfl
  | _ => exact .inl rfl

/-! ## Runs -/

/-- At every moment of a run the open calls are counted, and not too many. -/
theorem Reaches.counted {a b : Task goal × State} (h : Reaches limit a b)
    (ha : a.2.calls = a.1.openCalls) (hle : a.2.calls ≤ limit) :
    b.2.calls = b.1.openCalls ∧ b.2.calls ≤ limit := by
  have hkeeps : Keeps limit (Step.Counted limit : Step goal → Prop) :=
    fun task st h => (step_rule limit task st).counted h.1 h.2
  exact hkeeps.reaches h ⟨ha, hle⟩

/-- A run that ends under a limit ends in the same way under a higher one, or else because a
call was too deep. -/
theorem run_eq_or_fails (hle : limit ≤ limit') {n : Nat} {task : Task goal} {res : Result goal}
    (h : run limit n task st = some res) :
    run limit' n task st = some res ∨ ∃ closing, res.1 = .error ⟨.callsTooDeep, closing⟩ := by
  induction n generalizing task st with
  | zero => cases h
  | succ n ih =>
    rw [run_succ] at h ⊢
    obtain heq | ⟨_, closing, _, k, -, hfail⟩ := step_eq_or_fails hle task st
    · rw [heq]
      cases hstep : step limit task st with
      | next task' st' => rw [hstep] at h; exact ih h
      | done outcome st' => rw [hstep] at h; exact .inl h
      | failed error st' => rw [hstep] at h; exact .inl h
    · rw [hfail] at h
      cases h
      exact .inr ⟨closing, rfl⟩

/-- What a run has printed when it ends is printed first under a higher limit. -/
theorem run_output (hle : limit ≤ limit') {n m : Nat} {task : Task goal} {res res' : Result goal}
    (h : run limit n task st = some res) (h' : run limit' m task st = some res') :
    ∃ more, res'.2.output = res.2.output ++ more := by
  induction n generalizing task st m with
  | zero => cases h
  | succ n ih =>
    cases m with
    | zero => cases h'
    | succ m =>
      rw [run_succ] at h
      obtain heq | ⟨_, closing, _, k, -, hfail⟩ := step_eq_or_fails hle task st
      · rw [run_succ, heq] at h'
        cases hstep : step limit task st with
        | next task' st' => rw [hstep] at h h'; exact ih h h'
        | done outcome st' =>
          rw [hstep] at h h'
          cases h
          cases h'
          exact ⟨"", String.append_empty.symm⟩
        | failed error st' =>
          rw [hstep] at h h'
          cases h
          cases h'
          exact ⟨"", String.append_empty.symm⟩
      · -- The lower limit ends the run here; the output can only become longer.
        rw [hfail] at h
        cases h
        obtain ⟨more, hmore⟩ := (run_restores h').output
        refine ⟨more, hmore.trans ?_⟩
        rw [Cont.output_unwind, task.output_unwind]

/-- Whether a run ended because a call was too deep. -/
def TooDeep {α : Type} (r : Except RuntimeError α) : Prop :=
  ∃ closing, r = .error ⟨.callsTooDeep, closing⟩

theorem not_tooDeep_ok {α : Type} (a : α) : ¬TooDeep (.ok a) := by
  rintro ⟨closing, h⟩
  cases h

/-- Whether the limit on calls is a guard of a run and nothing else. At every moment of the
run the open calls are counted and within the limit. A call that stays within it is begun; one
that does not is an error at its closing parenthesis, before anything has changed. How the
run ends under a higher limit is settled by how it ends under this one, unless it ends in
that error; it has then begun to print what the other run prints. -/
structure Guarded (limit : Nat) (task : Task goal) (st : State) : Prop where
  counted : ∀ {task' st'}, Reaches limit (task, st) (task', st') →
    st'.calls = task'.openCalls ∧ st'.calls ≤ limit
  opened : ∀ {task' st' called closing arguments k}, Reaches limit (task, st) (task', st') →
    task'.Calls called closing arguments k → arity? called = some arguments.length →
      st'.calls + 1 ≤ limit → ∃ body st'', step limit task' st' = .next body st'' ∧
        st''.calls = st'.calls + 1 ∧ body.openCalls = k.openCalls + 1
  refused : ∀ {task' st' called closing arguments k}, Reaches limit (task, st) (task', st') →
    task'.Calls called closing arguments k → arity? called = some arguments.length →
      limit < st'.calls + 1 → ∃ st'', step limit task' st' =
        .failed ⟨.callsTooDeep, closing⟩ st'' ∧ st''.store = st'.store ∧ st''.output = st'.output
  same : ∀ {n r st'}, run limit n task st = some (r, st') → ¬TooDeep r →
    ∀ {limit'}, limit ≤ limit' → run limit' n task st = some (r, st')
  shorter : ∀ {n r st'}, run limit n task st = some (r, st') → TooDeep r →
    ∀ {limit' m r' st''}, limit ≤ limit' → run limit' m task st = some (r', st'') →
      ∃ printed more, st'.output = st.output ++ printed ∧
        st''.output = st.output ++ printed ++ more

theorem guarded {task : Task goal} (htask : task.openCalls = 0) (h : st.calls = 0) :
    Guarded limit task st where
  counted hreach := hreach.counted (h.trans htask.symm) (h ▸ Nat.zero_le limit)
  opened {task' st' called closing arguments k} _ hcalls harity hlt := by
    rw [hcalls.step_eq]
    exact call_opens closing harity hlt
  refused {task' st' called closing arguments k} _ hcalls harity hdeep := by
    rw [hcalls.step_eq, call_refuses closing harity (Nat.le_of_lt_succ hdeep)]
    exact ⟨_, rfl, k.store_unwind st', k.output_unwind st'⟩
  same hrun hdeep _ hlimit := (run_eq_or_fails hlimit hrun).resolve_right hdeep
  shorter {n r st'} hrun _ {limit' m r' st''} hlimit hrun' := by
    obtain ⟨printed, hprinted⟩ := (run_restores hrun).output
    obtain ⟨more, hmore⟩ := run_output hlimit hrun hrun'
    rw [task.output_unwind] at hprinted
    exact ⟨printed, more, hprinted, hmore.trans (by rw [hprinted])⟩

end Machine

/-! ## Sessions -/

namespace Session

variable {s : Session} {α : Type} {f : Limits → Option (Except Failure α × Session)}

/-- Whether a source was given up because a call was too deep. -/
def TooDeep (result : Except Failure α) : Prop :=
  ∃ closing, result = .error (.ofRuntime ⟨.callsTooDeep, closing⟩)

/-- Whether the limit on calls is only a guard of what a session makes of a source. -/
structure Guarded (limit : Nat) (s : Session) (f : Limits → Option (Except Failure α × Session)) :
    Prop where
  same : ∀ {n result s'}, f ⟨limit, n⟩ = some (result, s') → ¬TooDeep result →
    ∀ {limit'}, limit ≤ limit' → f ⟨limit', n⟩ = some (result, s')
  shorter : ∀ {n result s'}, f ⟨limit, n⟩ = some (result, s') → TooDeep result →
    ∀ {limit' m result' s''}, limit ≤ limit' → f ⟨limit', m⟩ = some (result', s'') →
      ∃ printed more, s'.state.output = s.state.output ++ printed ∧
        s''.state.output = s.state.output ++ printed ++ more

/-- A source that is rejected is rejected under every limit. -/
theorem Guarded.of_const {answer : Except Failure α × Session} (h : ∀ limits, f limits = some answer)
    (hstate : answer.2.state = s.state) : s.Guarded limit f where
  same hf _ limit' _ := by rw [← hf, h, h]
  shorter hf _ _ _ _ _ _ hf' := by
    rw [h] at hf hf'
    cases hf
    cases hf'
    have hout := congrArg State.output hstate
    exact ⟨"", "", by simpa only [String.append_empty] using hout,
      by simpa only [String.append_empty] using hout⟩

theorem Guarded.of_machine {task : Task goal} {nextId : NodeId}
    {answer : Except RuntimeError goal.Outcome → Except Failure α}
    (h : Machine.Guarded limit task st) (hout : st.output = s.state.output)
    (hanswer : ∀ r, TooDeep (answer r) ↔ Machine.TooDeep r) (hf : ∀ limits, f limits =
      (Machine.run limits.calls limits.steps task st).map fun r => (answer r.1, ⟨r.2, nextId⟩)) :
    s.Guarded limit f where
  same {n result s'} hend hdeep limit' hlimit := by
    rw [hf, Option.map_eq_some_iff] at hend ⊢
    obtain ⟨⟨r, st'⟩, hrun, heq⟩ := hend
    cases heq
    exact ⟨(r, st'), h.same hrun (fun hr => hdeep ((hanswer r).mpr hr)) hlimit, rfl⟩
  shorter {n result s'} hend hdeep limit' m result' s'' hlimit hend' := by
    rw [hf, Option.map_eq_some_iff] at hend hend'
    obtain ⟨⟨r, st₁⟩, hrun, heq⟩ := hend
    obtain ⟨⟨r', st₂⟩, hrun', heq'⟩ := hend'
    cases heq
    cases heq'
    rw [← hout]
    exact h.shorter hrun ((hanswer r).mp hdeep) hlimit hrun'

theorem tooDeep_mapError_iff {r : Except RuntimeError α} :
    TooDeep (r.mapError Failure.ofRuntime) ↔ Machine.TooDeep r := by
  cases r with
  | ok a =>
    refine iff_of_false ?_ (Machine.not_tooDeep_ok a)
    rintro ⟨closing, h⟩
    cases h
  | error e =>
    constructor
    · rintro ⟨closing, h⟩
      cases h
      exact ⟨closing, rfl⟩
    · rintro ⟨closing, h⟩
      cases h
      exact ⟨closing, rfl⟩

theorem guarded_run (hs : s.state.calls = 0) (source : String) (limit : Nat) :
    s.Guarded limit fun limits => s.run limits source := by
  cases hlex : (lex source).toExcept with
  | error e =>
    have hrun (limits : Limits) : s.run limits source = some (.error (.ofLexical e), s) := by
      simp only [run, hlex]
    exact .of_const hrun rfl
  | ok tokens =>
    rcases hparse : parseProgram tokens s.nextId with ⟨failure | program, nextId⟩
    · have hrun (limits : Limits) :
          s.run limits source = some (.error failure, { s with nextId }) := by
        simp only [run, hlex, hparse]
      exact .of_const hrun rfl
    cases hresolve : resolve program with
    | error failure =>
      have hrun (limits : Limits) :
          s.run limits source = some (.error failure, { s with nextId }) := by
        simp only [run, hlex, hparse, hresolve]
      exact .of_const hrun rfl
    | ok table =>
      have haccepts : s.Accepts source program table nextId := ⟨⟨tokens, hlex, hparse⟩, hresolve⟩
      have hguarded : Machine.Guarded limit (Machine.program program) (s.state.learn table) :=
        Machine.guarded rfl hs
      have hdeep (r : Except RuntimeError Flow) :
          TooDeep ((r.map fun _ => ()).mapError Failure.ofRuntime) ↔ Machine.TooDeep r := by
        rw [tooDeep_mapError_iff]
        cases r with
        | ok flow => exact iff_of_false (Machine.not_tooDeep_ok ()) (Machine.not_tooDeep_ok flow)
        | error e =>
          exact exists_congr fun closing => ⟨fun h => by cases h; rfl, fun h => by cases h; rfl⟩
      exact .of_machine hguarded rfl hdeep haccepts.run_eq_machine

theorem guarded_evaluate (hs : s.state.calls = 0) (source : String) (limit : Nat) :
    s.Guarded limit fun limits => s.evaluate limits source := by
  cases hlex : (lex source).toExcept with
  | error e =>
    have heval (limits : Limits) : s.evaluate limits source = some (.error (.ofLexical e), s) := by
      simp only [evaluate, hlex]
    exact .of_const heval rfl
  | ok tokens =>
    rcases hparse : parseExpression tokens s.nextId with ⟨failure | e, nextId⟩
    · have heval (limits : Limits) :
          s.evaluate limits source = some (.error failure, { s with nextId }) := by
        simp only [evaluate, hlex, hparse]
      exact .of_const heval rfl
    have hguarded : Machine.Guarded limit (Machine.expression e) s.state :=
      Machine.guarded rfl hs
    exact .of_machine hguarded rfl (fun _ => tooDeep_mapError_iff) (evaluate_eq_machine hlex hparse)

end Session

/-- Whatever a program or an expression does, and from whatever state without open calls it
does it, the limit on calls only guards its run. A session has no call open between two
sources, so the same holds of what it makes of any source. -/
theorem call_limit_only_guards (limit : Nat) :
    (∀ (program : List Stmt) (st : State), st.calls = 0 →
      Machine.Guarded limit (Machine.program program) st) ∧
    (∀ (e : Expr) (st : State), st.calls = 0 → Machine.Guarded limit (Machine.expression e) st) ∧
    (∀ s : Session, s.Reachable → s.state.calls = 0 ∧ ∀ source,
      s.Guarded limit (fun limits => s.run limits source) ∧
        s.Guarded limit fun limits => s.evaluate limits source) ∧
    RuntimeCause.callsTooDeep.message = "Stack overflow." := by
  refine ⟨fun _ _ => Machine.guarded rfl, fun _ _ => Machine.guarded rfl, fun s hs => ?_, rfl⟩
  have hrest := hs.atRest.2
  exact ⟨hrest, fun source =>
    ⟨Session.guarded_run hrest source limit, Session.guarded_evaluate hrest source limit⟩⟩

/-- A function that prints and calls itself, under a limit of two calls and of three. -/
theorem call_limit_only_guards_recursion : ∃ s s₂ s₃ r₂ r₃ more,
    Session.fresh.run ⟨9, 30⟩ "fun f() \x7b print nil; f(); \x7d" = some (.ok (), s) ∧
      s.run ⟨2, 60⟩ "f();" = some (r₂, s₂) ∧ s.run ⟨3, 60⟩ "f();" = some (r₃, s₃) ∧
      Session.TooDeep r₂ ∧ s₂.state.output = "nil\nnil\n" ∧
      s₃.state.output = "nil\nnil\n" ++ more := by
  obtain ⟨s, s₂, s₃, r₂, r₃, hfun, hrun₂, hrun₃, hdeep, hout⟩ :
      ∃ s s₂ s₃ r₂ r₃,
        Session.fresh.run ⟨9, 30⟩ "fun f() \x7b print nil; f(); \x7d" = some (.ok (), s) ∧
        s.run ⟨2, 60⟩ "f();" = some (r₂, s₂) ∧ s.run ⟨3, 60⟩ "f();" = some (r₃, s₃) ∧
        Session.TooDeep r₂ ∧ s₂.state.output = "nil\nnil\n" :=
    ⟨_, _, _, _, _, by cbv, by cbv, by cbv, ⟨_, rfl⟩, rfl⟩
  obtain ⟨-, -, hsession, -⟩ := call_limit_only_guards 2
  obtain ⟨printed, more, hprinted, hmore⟩ :=
    ((hsession s (.run .fresh hfun)).2 "f();").1.shorter hrun₂ hdeep (by decide : 2 ≤ 3) hrun₃
  rw [← hprinted, hout] at hmore
  exact ⟨s, s₂, s₃, r₂, r₃, more, hfun, hrun₂, hrun₃, hdeep, hout, hmore⟩

end Lox
