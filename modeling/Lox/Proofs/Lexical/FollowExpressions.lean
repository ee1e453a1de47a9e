import Lox.Proofs.Lexical.Following

/-!
# Following expressions

The evaluator follows the machine through every expression, if only it does so for
all shorter runs. A call is over when the machine is back in the scope of the caller.
-/

namespace Lox

namespace Lexical

open World (Acts After Agrees)

variable {known : Known} {limit N n fuel depth : Nat} {goal : Yield} {res : Result goal}
  {w w' : World} {bound : ScopeRef} {Γ : Scopes} {env : Option Env} {k : Cont goal .value}

theorem Yields.mono {M : Nat} {v : Value} (h : Yields known limit M k res v w) (hle : M ≤ N) :
    Yields known limit N k res v w := by
  obtain ⟨u, n, hv, hu, hn, hrun⟩ := h
  exact ⟨u, n, hv, hu, Nat.lt_of_lt_of_le hn hle, hrun⟩

/-- The run goes on with a value at once. -/
theorem Follows.value {u : Value} (hw : w.Agrees known) (hu : u.Tracked known w) (hn : n < N)
    (hrun : Machine.run limit n (.value u k) w.machine = some res) :
    Follows known k.unwind res bound w (Pure.pure u.forget) (Yields known limit N k res) :=
  .pure hw ⟨u, n, rfl, hu, hn, hrun⟩

/-! ## Names and operators -/

/-- Machine and evaluator have the same value for a name. -/
theorem run_read {target : Reference} (hw : w.Agrees known) (hat : w.At Γ env depth)
    (hfound : target.Found known Γ) :
    (read env target.name).run w.lexical =
      some ((w.machine.read target).elim
        (.error ⟨.undefinedVariable target.name.lexeme, target.name⟩) (.ok ·.forget), w.lexical) := by
  obtain ⟨scope, hf, howner⟩ := hw.owner? hat hfound
  have hread : w.machine.read target = w.machine.store.local? scope target.name.lexeme := by
    rw [Lox.State.read, howner]
    cases h : w.machine.store.local? scope target.name.lexeme with
    | none => rfl
    | some v => exact h
  have hlookUp := hw.holds.lookUp hf
  rw [← hread] at hlookUp
  have hget (x : State → Eval Value) : (get >>= x).run w.lexical = (x w.lexical).run w.lexical := rfl
  rw [read, hget, hlookUp]
  cases w.machine.read target <;> rfl

theorem tracked_of_read {target : Reference} {v : Value} (hw : w.Agrees known)
    (h : w.machine.read target = some v) : v.Tracked known w := by
  obtain ⟨scope, hv⟩ := State.local?_of_read h
  exact hw.tracks.value scope _ v hv

theorem follow_read {target : Reference} (hw : w.Agrees known) (hat : w.At Γ env depth)
    (hfound : target.Found known Γ) (hn : n < N)
    (hrun : (Machine.yieldFound (w.machine.read target) target.name k w.machine).runFor limit n =
      some res) :
    Follows known k.unwind res bound w (read env target.name) (Yields known limit N k res) := by
  have hread := run_read hw hat hfound
  cases hv : w.machine.read target with
  | none =>
      rw [hv] at hrun hread
      exact .failed hw hread hrun
  | some u =>
      rw [hv] at hrun hread
      exact .act ⟨hread, hw, .refl bound w⟩ ⟨u, n, rfl, tracked_of_read hw hv, hn, hrun⟩

theorem follow_result {result result' : Except RuntimeCause Value} {operator : Token}
    (hw : w.Agrees known) (hresult : result' = result.map Value.forget)
    (htracked : ∀ u, result = .ok u → u.Tracked known w) (hn : n < N)
    (hrun : (Machine.yieldResult result operator k w.machine).runFor limit n = some res) :
    Follows known k.unwind res bound w (orFail result' operator) (Yields known limit N k res) := by
  subst hresult
  cases result with
  | error cause => exact .fail hw hrun
  | ok u => exact .value hw (htracked u rfl) hn hrun

theorem follow_assign {target : Reference} {u : Value} (hw : w.Agrees known)
    (hat : w.At Γ env depth) (hfound : target.Found known Γ) (hu : u.Tracked known w) (hn : n < N)
    (hrun : Machine.run limit n (.value u (.assign target k)) w.machine = some res) :
    Follows known k.unwind res bound w (do assign env target.name u.forget; return u.forget)
      (Yields known limit N k res) := by
  obtain ⟨scope, hf, howner⟩ := hw.owner? hat hfound
  obtain ⟨m, hm, hrun⟩ := Machine.runFor_of_run hrun
  rw [Machine.step, Machine.resume, howner] at hrun
  refine .bind (P := fun _ w' => u.Tracked known w' ∧
      Machine.run limit m (.value u k) w'.machine = some res) ?_ (Nat.le_refl bound)
    fun _ w' hw' _ h => .value hw' h.1 (Nat.lt_trans hm hn) h.2
  apply Follows.get_bind
  rw [hw.holds.lookUp hf]
  cases h : w.machine.store.local? scope target.name.lexeme with
  | none =>
      rw [h] at hrun
      exact .fail hw hrun
  | some old =>
      rw [h] at hrun
      have hdefine := hw.defineName bound hu hf (Store.lt_of_local? (by rw [h]; rfl))
      exact .act hdefine ⟨hu.grow hdefine.grows, hrun⟩

/-! ## Methods -/

/-- Machine and evaluator have the same superclass and receiver. -/
theorem run_inheritance {target : Reference} {method : Token} {strict : Prop}
    (hw : w.Agrees known) (hat : w.At Γ env depth)
    (he : (Expr.inherited target method).Scoped known strict Γ) (hstrict : strict ∨ Γ = []) :
    (inheritance env target).run w.lexical =
      some (((w.machine.inheritance target).map fun p => (p.1.forget, p.2)).mapError
        (⟨·, target.name⟩), w.lexical) := by
  obtain ⟨hfound, hname, hscopes⟩ := he
  have hdistance := hw.table _ _ hfound
  rw [hname] at hdistance
  have hrun (x : State → Eval (Class × InstanceRef)) :
      (get >>= x).run w.lexical = (x w.lexical).run w.lexical := rfl
  rw [inheritance, hrun, Lox.State.inheritance, hdistance]
  obtain hs | rfl := hstrict
  · obtain ⟨d, hsuper, hthis⟩ := hscopes hs
    obtain ⟨outer, houter, hheld⟩ := hw.holds.held_eq hat.fits hsuper
    obtain ⟨inner, hinner, hheld'⟩ := hw.holds.held_eq hat.fits hthis
    rw [hheld, hheld', hsuper]
    simp only [Store.getAt?_of_ancestor? houter, Store.getAt?_of_ancestor? hinner]
    cases w.machine.store.local? outer Keyword.super.text with
    | none => rfl
    | some v =>
        cases v with
        | cls c =>
            cases w.machine.store.local? inner Keyword.this.text with
            | none => rfl
            | some v => cases v <;> rfl
        | _ => rfl
  · have hheld : w.lexical.held (env.getD .empty) Keyword.super.text = none := by
      rw [State.held, show (env.getD .empty).get? Keyword.super.text = none from
        hat.fits Keyword.super.text]
      rfl
    rw [hheld]
    rfl

/-- A method is bound and is then a value. -/
theorem follow_method {m : Closure} (hw : w.Agrees known) (hm : m.TrackedMethod known w)
    (receiver : InstanceRef) (hle : bound ≤ w.size) (hn : n < N)
    (hrun : Machine.run limit n (.value (w.machine.bind m receiver).1 k)
      (w.machine.bind m receiver).2 = some res) :
    Follows known k.unwind res bound w (do return .function (← bindMethod m.forget receiver))
      (Yields known limit N k res) := by
  obtain ⟨w', hbind, hmachine, htracked⟩ := hw.bindMethod hm receiver
  refine .act_bind hbind hle (.value (u := .function _) hbind.agrees htracked hn ?_)
  rw [hmachine]
  exact hrun

/-! ## Leaving scopes and calls -/

theorem Flows.leave {outer : ScopeRef} {k : Cont goal .flow} {g : Flow}
    (h : Flows known limit N (.leaveScope outer k) res g w) :
    Flows known limit N k res g (w.go outer w.machine.calls) := by
  obtain ⟨f, n, hg, hf, hn, hrun⟩ := h
  obtain ⟨m, hm, hrun⟩ := Machine.runFor_of_run hrun
  exact ⟨f, m, hg, hf.grow (World.grows_go 0), Nat.lt_trans hm hn, hrun⟩

/-- What runs in a new scope leaves it at the end. -/
theorem Follows.leave {x : Eval Flow} {scope : ScopeRef} {k : Cont goal .flow}
    (h : Follows known (Cont.leaveScope w.machine.current k).unwind res bound (w.enter scope) x
      (Flows known limit N (.leaveScope w.machine.current k) res)) :
    Follows known k.unwind res bound w x (Flows known limit N k res) := by
  obtain ⟨r, w₁, hrun, hw₁, hafter, hok, herror⟩ := h
  refine ⟨r, w₁.go w.machine.current w₁.machine.calls, hrun, hw₁.go _ _,
    ⟨((World.grows_enter bound).trans hafter.toGrows).trans (World.grows_go bound), rfl,
      hafter.calls, hafter.table⟩, fun g hg => (hok g hg).leave, herror⟩

/-- What runs in a call ends the call. -/
theorem Follows.endCall {x : Eval Value}
    (h : Follows known (Cont.endCall k).unwind res bound
      (w.go w.machine.current (w.machine.calls + 1)) x (Yields known limit N (.endCall k) res)) :
    Follows known k.unwind res bound w x (Yields known limit N k res) := by
  obtain ⟨r, w₁, hrun, hw₁, hafter, hok, herror⟩ := h
  refine ⟨r, w₁.go w₁.machine.current (w₁.machine.calls - 1), hrun, hw₁.go _ _,
    ⟨((World.grows_go bound).trans hafter.toGrows).trans (World.grows_go bound), hafter.current, ?_,
      hafter.table⟩,
    fun v hv => ?_, herror⟩
  · exact (congrArg (· - 1) hafter.calls).trans (Nat.add_sub_cancel ..)
  · obtain ⟨u, n, hv, hu, hn, hrun⟩ := hok v hv
    obtain ⟨m, hm, hrun⟩ := Machine.runFor_of_run hrun
    exact ⟨u, m, hv, hu.grow (World.grows_go 0), Nat.lt_trans hm hn, hrun⟩

/-- A body that has ended results in a value. -/
theorem follow_bodyResult {closure : Closure} {g : Flow} (hw : w.Agrees known)
    (hclosure : closure.Tracked known w) (hg : Flows known limit N (.endBody closure k) res g w) :
    Follows known k.unwind res bound w (bodyResult closure.forget g)
      (Yields known limit N k res) := by
  obtain ⟨f, n, rfl, hf, hn, hrun⟩ := hg
  obtain ⟨m, hm, hrun⟩ := Machine.runFor_of_run hrun
  change Machine.run limit m (.value (Machine.bodyResult closure f w.machine) k) w.machine =
    some res at hrun
  obtain ⟨-, Γ, context, env, -, hfits, hcaptured, hthis⟩ := hclosure
  have henv : w.lexical.envOf closure.forget = env := World.envOf_forget hcaptured
  apply Follows.get_bind
  rw [henv]
  by_cases hinit : closure.isInitializer
  · obtain ⟨target, htarget, hheld⟩ := hw.holds.held_eq hfits (hthis hinit)
    obtain rfl : closure.scope = target := Option.some.inj htarget
    have hresult : Machine.bodyResult closure f w.machine =
      (w.machine.store.local? closure.scope Keyword.this.text).getD .nil := if_pos hinit
    rw [hresult] at hrun
    rw [if_pos (show closure.forget.isInitializer from hinit), hheld]
    cases h : w.machine.store.local? closure.scope Keyword.this.text with
    | none =>
        rw [h] at hrun
        exact .value (u := .nil) hw trivial (Nat.lt_trans hm hn) hrun
    | some u =>
        rw [h] at hrun
        exact .value hw (hw.tracks.value _ _ _ h) (Nat.lt_trans hm hn) hrun
  · rw [if_neg (show ¬closure.forget.isInitializer from hinit)]
    cases f with
    | normal =>
        have hresult : Machine.bodyResult closure .normal w.machine = .nil := if_neg hinit
        rw [hresult] at hrun
        exact .value (u := .nil) hw trivial (Nat.lt_trans hm hn) hrun
    | returned u =>
        have hresult : Machine.bodyResult closure (.returned u) w.machine = u := if_neg hinit
        rw [hresult] at hrun
        exact .value hw hf (Nat.lt_trans hm hn) hrun

/-! ## Arguments -/

/-- What the machine does once it has some arguments, the latest first. -/
def nextArgument (limit : Nat) (called : Value) (closing : Token) (done : List Value)
    (rest : List Expr) (k : Cont goal .value) (st : Lox.State) : Step goal :=
  match rest with
  | [] => Machine.call limit called closing done.reverse k st
  | e :: es => .next (.eval e (.argument called closing done es k)) st

theorem step_callee {v : Value} {closing : Token} {es : List Expr} {st : Lox.State} :
    Machine.step limit (.value v (.callee closing es k)) st =
      nextArgument limit v closing [] es k st := by
  cases es <;> rfl

theorem step_argument {v called : Value} {closing : Token} {done : List Value} {es : List Expr}
    {st : Lox.State} :
    Machine.step limit (.value v (.argument called closing done es k)) st =
      nextArgument limit called closing (v :: done) es k st := by
  cases es <;> rfl

/-! ## Shorter runs -/

section

variable (ih : ∀ m < N, Simulated known limit m) (hfuel : N ≤ fuel + 1)

include ih hfuel

theorem follow_eval {e : Expr} {strict : Prop} (hw : w.Agrees known) (hat : w.At Γ env depth)
    (he : e.Scoped known strict Γ) (hstrict : strict ∨ Γ = []) (hn : n < N)
    (hrun : Machine.run limit n (.eval e k) w.machine = some res) :
    Follows known k.unwind res w.size w (eval limit fuel depth env e)
      fun v w' => w'.At Γ env depth ∧ Yields known limit N k res v w' :=
  ((ih n hn).eval (Nat.le_of_lt_succ (Nat.lt_of_lt_of_le hn hfuel)) hw hat he hstrict hrun).mono
    fun _ _ hafter hv => ⟨hat.after hafter hat.lt, hv.mono (Nat.le_of_lt hn)⟩

theorem follow_exec {t : Stmt} {context : FunctionContext} {k : Cont goal .flow}
    (hw : w.Agrees known) (hat : w.At Γ env depth) (ht : t.Scoped known Γ context) (hn : n < N)
    (hrun : Machine.run limit n (.exec t k) w.machine = some res) :
    Follows known k.unwind res w.machine.current w (exec limit fuel depth env t)
      (Passes known limit N k res (t.after Γ) depth) :=
  ((ih n hn).exec (Nat.le_of_lt_succ (Nat.lt_of_lt_of_le hn hfuel)) hw hat ht hrun).mono
    fun _ _ _ ⟨f, m, hg, hf, hm, hrest⟩ => ⟨f, m, hg, hf, Nat.lt_trans hm hn, hrest⟩

/-- Statements follow one another until one returns. -/
theorem follow_sequence {ss : List Stmt} {context : FunctionContext} {k : Cont goal .flow}
    (hw : w.Agrees known) (hat : w.At Γ env depth) (hss : Stmt.AreScoped known Γ context ss)
    (hn : n < N)
    (hrun : Machine.run limit n (.flow .normal (.sequence ss k)) w.machine = some res) :
    Follows known k.unwind res w.machine.current w (execAll (exec limit fuel depth) env ss)
      (Flows known limit N k res) := by
  induction ss generalizing n w Γ env with
  | nil =>
      obtain ⟨m, hm, hrun⟩ := Machine.runFor_of_run hrun
      exact .pure hw ⟨.normal, m, rfl, trivial, Nat.lt_trans hm hn, hrun⟩
  | cons s ss ihs =>
      obtain ⟨m, hm, hrun⟩ := Machine.runFor_of_run hrun
      have hexec := follow_exec ih hfuel hw hat hss.1 (Nat.lt_trans hm hn) hrun
      apply hexec.bind (Nat.le_refl _)
      intro p w' hw' hafter hp
      obtain ⟨g, env'⟩ := p
      obtain ⟨f, m', rfl, hf, hm', hrun', hat'⟩ := hp
      cases f with
      | normal =>
          rw [← hafter.current]
          exact ihs hw' (hat' rfl) hss.2 hm' hrun'
      | returned u =>
          obtain ⟨m'', hm'', hrun''⟩ := Machine.runFor_of_run hrun'
          have hstep : Machine.step limit (.flow (.returned u) (.sequence ss k)) w'.machine =
              .next (.flow (.returned u) k) w'.machine := by cases ss <;> rfl
          rw [hstep] at hrun''
          exact .pure hw' ⟨.returned u, m'', rfl, hf, Nat.lt_trans hm'' hm', hrun''⟩

/-! ## Calls -/

/-- The body of a function runs in a scope that holds its parameters. -/
theorem follow_apply {closure : Closure} {arguments : List Value} (hw : w.Agrees known)
    (hclosure : closure.Tracked known w) (harguments : ∀ v ∈ arguments, v.Tracked known w)
    (hlen : arguments.length = closure.decl.parameters.length) (hn : n < N)
    (hrun : (Machine.enterBody closure arguments k w.machine).runFor limit n = some res) :
    Follows known k.unwind res w.size w
      (apply (fun env => execAll (exec limit fuel w.machine.calls) (some env)) closure.forget
        (arguments.map Value.forget))
      (Yields known limit N k res) := by
  have htracked := hclosure
  obtain ⟨-, Γ, context, env, hdecl, hfits, hcaptured, -⟩ := hclosure
  obtain ⟨hnew, -, hbody⟩ := hdecl.body
  obtain ⟨env', w₂, hbind, hat, hmachine⟩ := (hw.enter closure.scope).bindAll (hw.at_enter hfits)
    hnew hlen fun v hv => (harguments v hv).grow (World.grows_enter 0)
  have hmachine : w₂.machine =
      w.machine.enter (.ofArguments closure.decl.parameters arguments) closure.scope :=
    hmachine.trans (State.foldl_define_enter ..)
  have hrun : Machine.run limit n (.flow .normal (.sequence closure.decl.body
      (.leaveScope w.machine.current (.endBody closure k)))) w₂.machine = some res := by
    rw [hmachine]
    exact hrun
  have hsequence := follow_sequence ih hfuel hbind.agrees hat hbody hn hrun
  have hcurrent : w₂.machine.current = w.size := by rw [hmachine]; rfl
  rw [hcurrent] at hsequence
  have henv : (w.enter closure.scope).lexical.envOf closure.forget = env :=
    World.envOf_forget hcaptured
  have hrunBody : Follows known (Cont.leaveScope w.machine.current (.endBody closure k)).unwind res
      w.size (w.enter closure.scope)
      (runBody (fun env => execAll (exec limit fuel w.machine.calls) (some env)) closure.forget
        (arguments.map Value.forget))
      (Flows known limit N (.leaveScope w.machine.current (.endBody closure k)) res) := by
    apply Follows.get_bind
    rw [henv]
    exact .act_bind hbind (Nat.le_refl _) hsequence
  exact hrunBody.leave.bind (Nat.le_refl _) fun g w' hw' hafter hg =>
    follow_bodyResult hw' (htracked.grow hafter.toGrows) hg

/-- A new instance is initialized if its class says how. -/
theorem follow_instantiate {c : Class} {arguments : List Value} (hw : w.Agrees known)
    (hc : c.Tracked known w) (harguments : ∀ v ∈ arguments, v.Tracked known w)
    (hlen : arguments.length = (c.method? initializerName).elim 0 Closure.arity) (hn : n < N)
    (hrun : (Machine.instantiate c arguments k w.machine).runFor limit n = some res) :
    Follows known k.unwind res w.size w
      (instantiate (fun env => execAll (exec limit fuel w.machine.calls) (some env)) c.forget
        (arguments.map Value.forget))
      (Yields known limit N k res) := by
  have hinstance := hw.newInstance w.size hc
  apply Follows.act_bind hinstance (Nat.le_refl _)
  rw [Class.method?_forget]
  cases hmethod : c.method? initializerName with
  | none =>
      simp only [Machine.instantiate, hmethod] at hrun
      exact .value (u := .object _) hinstance.agrees trivial hn hrun
  | some m =>
      simp only [Machine.instantiate, hmethod] at hrun
      rw [hmethod] at hlen
      obtain ⟨w', hbind, hmachine, htracked⟩ := hinstance.agrees.bindMethod
        ((hc.method? hmethod).grow hinstance.grows) (w.machine.store.newInstance c).1
      have hrun : (Machine.enterBody (((w.newInstance c).machine.store.bindMethod m
          (w.machine.store.newInstance c).1).1) arguments
          (.construct (w.machine.store.newInstance c).1 k) w'.machine).runFor limit n =
          some res := by
        rw [hmachine]
        exact hrun
      have happly := follow_apply ih hfuel hbind.agrees htracked
        (fun v hv => ((harguments v hv).grow hinstance.grows).grow hbind.grows) hlen hn hrun
      rw [show w'.machine.calls = w.machine.calls from hbind.after.calls] at happly
      refine .act_bind hbind (Nat.le_refl _) (happly.bind hbind.grows.size ?_)
      intro v w'' hw'' hafter hv
      obtain ⟨u, m', rfl, hu, hm', hrun'⟩ := hv
      obtain ⟨m'', hm'', hrun''⟩ := Machine.runFor_of_run hrun'
      exact .value (u := .object _) hw'' trivial (Nat.lt_trans hm'' hm') hrun''

theorem follow_call {called : Value} {closing : Token} {arguments : List Value}
    (hw : w.Agrees known) (hdepth : w.machine.calls = depth) (hcalled : called.Tracked known w)
    (harguments : ∀ v ∈ arguments, v.Tracked known w) (hn : n < N)
    (hrun : (Machine.call limit called closing arguments k w.machine).runFor limit n = some res) :
    Follows known k.unwind res w.size w
      (call limit depth (fun env => execAll (exec limit fuel (depth + 1)) (some env))
        called.forget closing (arguments.map Value.forget))
      (Yields known limit N k res) := by
  subst hdepth
  unfold call
  rw [Machine.arity?_forget]
  unfold Machine.call at hrun
  cases harity : Machine.arity? called with
  | none =>
      rw [harity] at hrun
      exact .fail hw hrun
  | some arity =>
      simp only [harity] at hrun
      simp only [List.length_map]
      by_cases hlen : arguments.length = arity
      · rw [if_neg (not_not_intro hlen)] at hrun ⊢
        by_cases hlimit : limit ≤ w.machine.calls
        · rw [if_pos hlimit] at hrun ⊢
          exact .fail hw hrun
        · rw [if_neg hlimit] at hrun ⊢
          have hopen := hw.go w.machine.current (w.machine.calls + 1)
          have hgrows : World.Grows 0 w (w.go w.machine.current (w.machine.calls + 1)) :=
            World.grows_go 0
          have harguments' := fun v hv => (harguments v hv).grow hgrows
          cases called with
          | function closure =>
              cases harity
              exact (follow_apply ih hfuel hopen (Closure.Tracked.grow hcalled hgrows) harguments'
                hlen hn hrun).endCall
          | cls c =>
              cases harity
              exact (follow_instantiate ih hfuel hopen (Class.Tracked.grow hgrows hcalled)
                harguments' hlen hn hrun).endCall
          | _ => cases harity
      · rw [if_pos hlen] at hrun ⊢
        exact .fail hw hrun

/-! ## Expressions -/

/-- Arguments are evaluated in order, and then the call is made. -/
theorem follow_arguments {es : List Expr} {called : Value} {closing : Token} {done : List Value}
    {strict : Prop} (hw : w.Agrees known) (hat : w.At Γ env depth)
    (hes : Expr.AreScoped known strict Γ es) (hstrict : strict ∨ Γ = [])
    (hdone : ∀ v ∈ done, v.Tracked known w) (hn : n < N)
    (hrun : (nextArgument limit called closing done es k w.machine).runFor limit n = some res) :
    Follows known k.unwind res w.size w (evalAll (eval limit fuel depth env) es)
      fun values w' => w'.machine.calls = depth ∧ ∃ us m, values = us.map Value.forget ∧
        (∀ v ∈ done.reverse ++ us, v.Tracked known w') ∧ m < N ∧
        (Machine.call limit called closing (done.reverse ++ us) k w'.machine).runFor limit m =
          some res := by
  induction es generalizing n w done with
  | nil =>
      refine .pure hw ⟨hat.calls, [], n, rfl, fun v hv => ?_, hn, ?_⟩
      · rw [List.append_nil] at hv
        exact hdone v (List.mem_reverse.mp hv)
      · rw [List.append_nil]
        exact hrun
  | cons e es ihes =>
      apply (follow_eval ih hfuel hw hat hes.1 hstrict hn hrun).bind (Nat.le_refl _)
      intro v w₁ hw₁ hafter hv
      obtain ⟨hat₁, u, n₁, rfl, hu, hn₁, hrun⟩ := hv
      obtain ⟨n₂, hn₂, hrun⟩ := Machine.runFor_of_run hrun
      rw [step_argument] at hrun
      have hdone' : ∀ v ∈ u :: done, v.Tracked known w₁ :=
        List.forall_mem_cons.mpr ⟨hu, fun x hx => (hdone x hx).grow hafter.toGrows⟩
      apply (ihes hw₁ hat₁ hes.2 hdone' (Nat.lt_trans hn₂ hn₁) hrun).bind hafter.size
      intro values w₂ hw₂ _ hvalues
      obtain ⟨hcalls, us, m, rfl, hus, hm, hcall⟩ := hvalues
      rw [List.reverse_cons, List.append_assoc] at hus hcall
      exact .pure hw₂ ⟨hcalls, u :: us, m, rfl, hus, hm, hcall⟩

/-- The evaluator follows the machine through an expression. -/
theorem follow_expression {e : Expr} {strict : Prop} (hw : w.Agrees known)
    (hat : w.At Γ env depth) (he : e.Scoped known strict Γ) (hstrict : strict ∨ Γ = []) (hn : n < N)
    (hrun : (Machine.eval e k w.machine).runFor limit n = some res) :
    Follows known k.unwind res w.size w (eval limit (fuel + 1) depth env e)
      (Yields known limit N k res) := by
  cases e with
  | literal v =>
      rw [eval, ← Value.forget_ofLiteral]
      exact .value hw (by cases v <;> trivial) hn hrun
  | «variable» target => exact follow_read hw hat he.1 hn hrun
  | receiver target => exact follow_read hw hat he.1 hn hrun
  | inherited target method =>
      have hinherit := run_inheritance hw hat he hstrict
      rw [Machine.eval] at hrun
      cases hfound : w.machine.inheritance target with
      | error cause =>
          rw [hfound] at hrun hinherit
          exact (Follows.failed (Q := fun _ _ => False) hw hinherit hrun).bind (Nat.le_refl _)
            fun _ _ _ _ h => h.elim
      | ok found =>
          obtain ⟨c, receiver⟩ := found
          rw [hfound] at hrun hinherit
          obtain ⟨scope, hv⟩ := State.local?_of_inheritance hfound
          have hc : c.Tracked known w := hw.tracks.value scope _ _ hv
          apply Follows.act_bind ⟨hinherit, hw, .refl w.size w⟩ (Nat.le_refl _)
          simp only [Class.method?_forget]
          cases hmethod : c.method? method.lexeme with
          | none =>
              simp only [hmethod] at hrun
              exact .fail hw hrun
          | some m =>
              simp only [hmethod] at hrun
              exact follow_method hw (hc.method? hmethod) receiver (Nat.le_refl _) hn hrun
  | grouping inner =>
      exact (follow_eval ih hfuel hw hat (e := inner) he hstrict hn hrun).mono fun _ _ _ h => h.2
  | unary op operator operand =>
      apply (follow_eval ih hfuel hw hat he.2 hstrict hn hrun).bind (Nat.le_refl _)
      intro v w₁ hw₁ _ hv
      obtain ⟨-, u, n₁, rfl, hu, hn₁, hrun⟩ := hv
      obtain ⟨n₂, hn₂, hrun⟩ := Machine.runFor_of_run hrun
      exact follow_result hw₁ (op.apply_forget u)
        (fun x hx => UnaryOp.of_apply hx (fun _ => trivial) fun _ => trivial)
        (Nat.lt_trans hn₂ hn₁) hrun
  | binary op operator left right =>
      apply (follow_eval ih hfuel hw hat he.2.1 hstrict hn hrun).bind (Nat.le_refl _)
      intro v w₁ hw₁ hafter hv
      obtain ⟨hat₁, u, n₁, rfl, hu, hn₁, hrun⟩ := hv
      obtain ⟨n₂, hn₂, hrun⟩ := Machine.runFor_of_run hrun
      apply (follow_eval ih hfuel hw₁ hat₁ he.2.2 hstrict (Nat.lt_trans hn₂ hn₁) hrun).bind
        hafter.size
      intro v w₂ hw₂ _ hv
      obtain ⟨-, u', n₃, rfl, hu', hn₃, hrun⟩ := hv
      obtain ⟨n₄, hn₄, hrun⟩ := Machine.runFor_of_run hrun
      exact follow_result hw₂ (op.apply_forget u u')
        (fun x hx => BinaryOp.of_apply hx (fun _ => trivial) (fun _ => trivial) fun _ => trivial)
        (Nat.lt_trans hn₄ hn₃) hrun
  | logical op operator left right =>
      apply (follow_eval ih hfuel hw hat he.2.1 hstrict hn hrun).bind (Nat.le_refl _)
      intro v w₁ hw₁ hafter hv
      obtain ⟨hat₁, u, n₁, rfl, hu, hn₁, hrun⟩ := hv
      obtain ⟨n₂, hn₂, hrun⟩ := Machine.runFor_of_run hrun
      rw [Machine.step, Machine.resume] at hrun
      rw [LogicalOp.isDecidedBy_forget]
      by_cases hdecided : op.isDecidedBy u
      · rw [if_pos hdecided] at hrun ⊢
        exact .value hw₁ hu (Nat.lt_trans hn₂ hn₁) hrun
      · rw [if_neg hdecided] at hrun ⊢
        exact ((follow_eval ih hfuel hw₁ hat₁ he.2.2 hstrict (Nat.lt_trans hn₂ hn₁) hrun).mono
          fun _ _ _ h => h.2).weaken hafter.size
  | assign target value =>
      apply (follow_eval ih hfuel hw hat he.2.2 hstrict hn hrun).bind (Nat.le_refl _)
      intro v w₁ hw₁ _ hv
      obtain ⟨hat₁, u, n₁, rfl, hu, hn₁, hrun⟩ := hv
      exact follow_assign hw₁ hat₁ he.1 hu hn₁ hrun
  | get object name =>
      apply (follow_eval ih hfuel hw hat (e := object) he hstrict hn hrun).bind (Nat.le_refl _)
      intro v w₁ hw₁ hafter hv
      obtain ⟨hat₁, u, n₁, rfl, hu, hn₁, hrun⟩ := hv
      obtain ⟨n₂, hn₂, hrun⟩ := Machine.runFor_of_run hrun
      cases u with
      | object receiver =>
          rw [Machine.step, Machine.resume] at hrun
          apply Follows.get_bind
          rw [hw₁.objects, Store.property?_forget]
          cases hproperty : w₁.machine.store.property? receiver name.lexeme with
          | none =>
              simp only [hproperty] at hrun
              exact .fail hw₁ hrun
          | some property =>
              cases property with
              | field found =>
                  simp only [hproperty] at hrun
                  have htracked := hw₁.tracks.field _ _ _ (Store.field?_of_property? hproperty)
                  exact .value hw₁ htracked (Nat.lt_trans hn₂ hn₁) hrun
              | method m =>
                  simp only [hproperty] at hrun
                  obtain ⟨c, hc, hmethod⟩ := Store.method?_of_property? hproperty
                  exact follow_method hw₁ ((hw₁.tracks.cls _ c hc).method? hmethod) receiver
                    hafter.size (Nat.lt_trans hn₂ hn₁) hrun
      | _ => exact .fail hw₁ hrun
  | set object name value =>
      apply (follow_eval ih hfuel hw hat he.1 hstrict hn hrun).bind (Nat.le_refl _)
      intro v w₁ hw₁ hafter hv
      obtain ⟨hat₁, u, n₁, rfl, hu, hn₁, hrun⟩ := hv
      obtain ⟨n₂, hn₂, hrun⟩ := Machine.runFor_of_run hrun
      cases u with
      | object receiver =>
          apply (follow_eval ih hfuel hw₁ hat₁ he.2 hstrict (Nat.lt_trans hn₂ hn₁) hrun).bind
            hafter.size
          intro v w₂ hw₂ _ hv
          obtain ⟨-, u', n₃, rfl, hu', hn₃, hrun⟩ := hv
          obtain ⟨n₄, hn₄, hrun⟩ := Machine.runFor_of_run hrun
          have hset := hw₂.setField w.size receiver name.lexeme hu'
          exact .act_bind hset (Nat.le_refl _) (.value hset.agrees (hu'.grow hset.grows)
            (Nat.lt_trans hn₄ hn₃) hrun)
      | _ => exact .fail hw₁ hrun
  | call callee closing arguments =>
      apply (follow_eval ih hfuel hw hat he.1 hstrict hn hrun).bind (Nat.le_refl _)
      intro v w₁ hw₁ hafter hv
      obtain ⟨hat₁, u, n₁, rfl, hu, hn₁, hrun⟩ := hv
      obtain ⟨n₂, hn₂, hrun⟩ := Machine.runFor_of_run hrun
      rw [step_callee] at hrun
      apply (follow_arguments ih hfuel hw₁ hat₁ he.2 hstrict (by simp) (Nat.lt_trans hn₂ hn₁)
        hrun).bind hafter.size
      intro values w₂ hw₂ hafter₂ hvalues
      obtain ⟨hcalls, us, m, rfl, hus, hm, hcall⟩ := hvalues
      exact (follow_call ih hfuel hw₂ hcalls (hu.grow hafter₂.toGrows) hus hm hcall).weaken
        (Nat.le_trans hafter.size hafter₂.size)

end

end Lexical

end Lox
