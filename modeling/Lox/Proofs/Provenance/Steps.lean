import Lox.Proofs.Activation.Embedding
import Lox.Proofs.Provenance.Trees

/-!
# Running blames tokens of the code

A continuation keeps the tokens at which it may fail, and takes them from the code that is
run. So if all code in a machine and all frames of its continuation are made of certain
tokens, then this is still so after a step, and an error is at one of them.
-/

namespace Lox

variable {P : Token → Prop} {goal : Yield} {limit : Nat} {st : State}

/-! ## Frames -/

/-- Whether all tokens in the frames of a continuation fulfil a predicate. What is assigned or
declared by a frame is a name. -/
def Cont.FramesOf (P : Token → Prop) {y : Yield} : Cont goal y → Prop
  | .halt => True
  | .unary _ operator k => P operator ∧ k.FramesOf P
  | .binaryLeft _ operator _ k => P operator ∧ k.FramesOf P
  | .binaryRight _ operator _ k => P operator ∧ k.FramesOf P
  | .logical _ _ k => k.FramesOf P
  | .assign target k => target.name.IsNameOf P ∧ k.FramesOf P
  | .get name k => P name ∧ k.FramesOf P
  | .setObject name _ k => P name ∧ k.FramesOf P
  | .setValue _ name k => P name ∧ k.FramesOf P
  | .callee closing _ k => P closing ∧ k.FramesOf P
  | .argument _ closing _ _ k => P closing ∧ k.FramesOf P
  | .construct _ k => k.FramesOf P
  | .endCall k => k.FramesOf P
  | .discard k => k.FramesOf P
  | .print k => k.FramesOf P
  | .define name k => name.IsNameOf P ∧ k.FramesOf P
  | .ret k => k.FramesOf P
  | .branch _ _ k => k.FramesOf P
  | .loopTest _ _ k => k.FramesOf P
  | .superclass name reference _ k => (name.IsNameOf P ∧ P reference.name) ∧ k.FramesOf P
  | .sequence _ k => k.FramesOf P
  | .leaveScope _ k => k.FramesOf P
  | .loopBody _ _ k => k.FramesOf P
  | .endBody _ k => k.FramesOf P

/-- Whether all tokens of a task fulfil a predicate, those in code that it holds for later
apart. -/
def Task.FramesOf (P : Token → Prop) : Task goal → Prop
  | .eval e k => e.MadeOf P ∧ k.FramesOf P
  | .exec s k => s.MadeOf P ∧ k.FramesOf P
  | .value _ k => k.FramesOf P
  | .flow _ k => k.FramesOf P

/-- Whether a step goes on with frames of such tokens, or fails at one. -/
def Step.Blames (P : Token → Prop) : Step goal → Prop
  | .next task _ => task.FramesOf P
  | .done _ _ => True
  | .failed error _ => P error.token

/-! ## Steps -/

/-- A call is at the parenthesis that closes it. -/
theorem Task.Calls.framesOf {task : Task goal} {called : Value} {closing : Token}
    {arguments : List Value} {k : Cont goal .value} (hcalls : task.Calls called closing arguments k)
    (h : task.FramesOf P) : P closing ∧ k.FramesOf P := by
  cases hcalls <;> exact h

namespace Machine

/-- Whether all code in a machine is made of tokens that fulfil a predicate. -/
structure MadeOf (P : Token → Prop) (task : Task goal) (st : State) : Prop where
  store : st.store.All (Holding.MadeOf P)
  holdings : ∀ x ∈ task.holdings st.current, x.MadeOf P
  frames : task.FramesOf P

end Machine

/-- What a task is taken apart to has the frames of its parts. Code that a frame holds is run
with the tokens that it is made of. -/
theorem Task.Unfolds.framesOf {task task' : Task goal} (hunfolds : task.Unfolds st task')
    (h : Machine.MadeOf P task st) : task'.FramesOf P := by
  have hframes := h.frames
  cases hunfolds with
  | literal | «variable» | receiver | retNothing => exact hframes.2
  | unary op operator operand k | assign target value k | get object name k =>
    obtain ⟨⟨htoken, hoperand⟩, hk⟩ := hframes
    exact ⟨hoperand, htoken, hk⟩
  | binary op operator left right k | set object name value k | call callee closing arguments k =>
    obtain ⟨⟨htoken, hfirst, -⟩, hk⟩ := hframes
    exact ⟨hfirst, htoken, hk⟩
  | logical op operator left right k => exact ⟨hframes.1.2.1, hframes.2⟩
  | varDecl name initializer k =>
    obtain ⟨⟨hname, hinitializer⟩, hk⟩ := hframes
    exact ⟨hinitializer initializer rfl, hname, hk⟩
  | branch | loop => exact ⟨hframes.1.1, hframes.2⟩
  | ret keyword value k => exact ⟨hframes.1.2 value rfl, hframes.2⟩
  | operated | combined | field => exact hframes.2
  | left op operator right v k | undecided right k hdecided | object object name value k
  | callee v closing first rest k | yes yes no k htruthy =>
    obtain ⟨-, hcode⟩ := List.forall_mem_cons.mp h.holdings
    exact ⟨(List.forall_mem_cons.mp hcode).1, hframes⟩
  | argument v called closing done next rest k =>
    exact ⟨h.holdings (.code st.current (.expr next)) (by simp [Task.holdings, Cont.holdings]),
      hframes⟩
  | no yes no k htruthy =>
    exact ⟨h.holdings (.code st.current (.stmt no)) (by simp [Task.holdings, Cont.holdings]),
      hframes⟩
  | goesRound condition body k htruthy =>
    obtain ⟨-, hcode⟩ := List.forall_mem_cons.mp h.holdings
    exact ⟨(List.forall_mem_cons.mp hcode).1.2, hframes⟩
  | first s rest k => exact ⟨(List.forall_mem_cons.mp h.holdings).1, hframes⟩
  | tests condition body k => exact ⟨(List.forall_mem_cons.mp h.holdings).1.1, hframes⟩
  | _ => exact hframes

/-- A task fails at a token that it has itself, or that its first frame keeps. -/
theorem Task.Fails.blames {task : Task goal} {cause : RuntimeCause} {token : Token}
    (hfails : task.Fails limit st cause token) (h : task.FramesOf P) : P token := by
  cases hfails with
  | «variable» => exact h.1.of
  | receiver => exact h.1
  | inherited => exact h.1.1
  | inheritedMethod => exact h.1.2
  | unary | binary | property | get | set => exact h.1
  | assign => exact h.1.of
  | callable hcalls | arity hcalls | depth hcalls => exact (hcalls.framesOf h).1
  | superclass => exact h.1.2
  | derived => exact h.1.1.of

namespace Machine

theorem Rule.blames {task : Task goal} {step : Step goal} (hrule : Rule limit st task step)
    (h : MadeOf P task st) : step.Blames P := by
  have hframes := h.frames
  cases hrule with
  | halts => trivial
  | fails hfails => exact hfails.blames hframes
  | failsBase => exact hframes.1.1.of
  | unfolds hunfolds => exact hunfolds.framesOf h
  | subclass name reference methods k =>
    obtain ⟨⟨hname, hsuperclass, -⟩, hk⟩ := hframes
    have hreference := hsuperclass reference rfl
    exact ⟨hreference, ⟨hname, hreference.of⟩, hk⟩
  | function _ _ _ hcalls | newInstance _ _ hcalls | initializer _ _ _ _ hcalls =>
    exact (hcalls.framesOf hframes).2
  | leaveScope | endCall | print => exact hframes
  | _ => exact hframes.2

theorem step_blames (limit : Nat) {task : Task goal} (h : MadeOf P task st) :
    (step limit task st).Blames P :=
  (step_rule limit task st).blames h

/-- What comes into being is made of the code and the classes that are held. -/
theorem event_madeOf {task : Task goal} {event : Event} {s' : Store} (h : MadeOf P task st)
    (hevent : event.Arises task st s') : Holding.MadeOf P (.value event.value) := by
  have hfounded {c : Class} {superclass : Option Class} {ds : List FunctionDecl} {s' : Store}
      {st : State} (hmade : State.ClassMade st superclass ds c s')
      (hds : FunctionDecl.AllMadeOf P ds) (hsuper : ∀ d ∈ superclass, d.MadeOf P) :
      c.MadeOf P := by
    have hown : ∀ m ∈ c.methods, m.decl.MadeOf P := fun m hm =>
      FunctionDecl.allMadeOf_iff.mp hds _ (hmade.decls ▸ List.mem_map_of_mem hm)
    cases hparent : c.superclass with
    | none =>
      rw [Class.MadeOf, Class.chain_of_none hparent]
      exact List.forall_mem_singleton.mpr hown
    | some d =>
      rw [Class.MadeOf, Class.chain_of_some hparent]
      exact List.forall_mem_cons.mpr ⟨hown, hsuper d (hmade.parent ▸ hparent)⟩
  have hbound {m f : Closure} {object : InstanceRef} {s' : Store}
      (hevent : (Event.bound m object f).Arises task st s') : f.decl.MadeOf P := by
    obtain ⟨hbinds, c, hsource, d, hd, hm⟩ := hevent.binds
    rw [hbinds.decl]
    cases hsource with
    | inherited hlocal => exact h.store.value _ _ _ hlocal d hd m hm
    | got hclass => exact h.store.cls _ _ hclass d hd m hm
    | constructed hheld => exact h.holdings _ hheld d hd m hm
  cases event with
  | declared f =>
    cases hevent with
    | declared htask => subst htask; exact h.frames.1
  | founded stmt c =>
    cases hevent with
    | founded htask =>
      subst htask
      exact hfounded (State.newClass_made _ _ none _) h.frames.1.2.2 nofun
    | derived htask =>
      subst htask
      obtain ⟨hsuper, hrest⟩ := List.forall_mem_cons.mp h.holdings
      obtain ⟨hcode, -⟩ := List.forall_mem_cons.mp hrest
      exact hfounded (State.newClass_made _ _ (some _) _) hcode.2.2
        fun d hd => Option.mem_some.mp hd ▸ hsuper
  | bound m object f => exact hbound hevent

theorem step_all_madeOf (limit : Nat) {task : Task goal} (h : MadeOf P task st) :
    (step limit task st).All (Holding.MadeOf P) :=
  step_all h.store (Holding.MadeOf.carries P _)
    (fun hnext _ hevent => event_madeOf h (step_arises limit hevent hnext)) h.holdings

/-- A machine stays made of the tokens that it is made of. -/
theorem keeps_madeOf : Keeps limit fun step : Step goal =>
    step.All (Holding.MadeOf P) ∧ step.Blames P := by
  rintro task st ⟨⟨hstore, hholdings⟩, hframes⟩
  have h : MadeOf P task st := ⟨hstore, hholdings, hframes⟩
  exact ⟨step_all_madeOf limit h, step_blames limit h⟩

/-- A run leaves a store of such code behind, and if it fails, then at such a token. -/
theorem MadeOf.run {n : Nat} {task : Task goal} {st' : State}
    {r : Except RuntimeError goal.Outcome} (h : MadeOf P task st)
    (hrun : Machine.run limit n task st = some (r, st')) :
    st'.store.All (Holding.MadeOf P) ∧ ∀ e, r = .error e → P e.token := by
  obtain ⟨hall, hblames⟩ := keeps_madeOf.run ⟨⟨h.store, h.holdings⟩, h.frames⟩ hrun
  cases r with
  | ok outcome => exact ⟨hall, nofun⟩
  | error e => exact ⟨hall, fun _ he => Except.error.inj he ▸ hblames⟩

theorem madeOf_program {statements : List Stmt} (hstore : st.store.All (Holding.MadeOf P))
    (h : Stmt.AllMadeOf P statements) : MadeOf P (program statements) st where
  store := hstore
  holdings := by
    simp only [program, Task.holdings, Flow.holdings, Cont.holdings, List.nil_append,
      List.append_nil, List.forall_mem_map]
    exact Stmt.allMadeOf_iff.mp h
  frames := trivial

theorem madeOf_expression {e : Expr} (hstore : st.store.All (Holding.MadeOf P))
    (h : e.MadeOf P) : MadeOf P (expression e) st :=
  ⟨hstore, List.forall_mem_singleton.mpr h, h, trivial⟩

end Machine

end Lox
