import Lox.Proofs.Lexical.FollowExpressions

/-!
# Following statements

The evaluator follows the machine through every statement, and so, by induction on
the steps that a run takes, through every piece of program.
-/

namespace Lox

namespace Lexical

open World (Acts After Agrees)

variable {known : Known} {limit N n fuel depth : Nat} {goal : Yield} {res : Result goal}
  {w w' : World} {bound : ScopeRef} {Γ : Scopes} {env : Option Env} {k : Cont goal .flow}

/-- The run goes on behind a statement. -/
theorem Follows.normal (hw : w.Agrees known) (hat : w.At Γ env depth) (hn : n < N)
    (hrun : Machine.run limit n (.flow .normal k) w.machine = some res) :
    Follows known k.unwind res bound w (Pure.pure (Flow.normal, env))
      (Passes known limit N k res Γ depth) :=
  .pure hw ⟨.normal, n, rfl, trivial, hn, hrun, fun _ => hat⟩

/-- The run goes on with a value that returns. -/
theorem Follows.returned {u : Value} (hw : w.Agrees known) (hu : u.Tracked known w) (hn : n < N)
    (hrun : Machine.run limit n (.flow (.returned u) k) w.machine = some res) :
    Follows known k.unwind res bound w (Pure.pure (Flow.returned u.forget, env))
      (Passes known limit N k res Γ depth) :=
  .pure hw ⟨.returned u, n, rfl, hu, hn, hrun, fun h => by cases h⟩

/-! ## Declarations -/

theorem introduced {name : Token} (hat : w.At (Γ.mark name.lexeme false) env depth) :
    w.At (Γ.introduce name) env depth ∧
      (Γ.introduce name = [] ∨ (Γ.introduce name).depth? name.lexeme = some 0) := by
  refine ⟨hat.congr (fun _ => Scopes.depth?_introduce_eq name)
    (by simp [Scopes.introduce, Scopes.mark_eq_nil]), ?_⟩
  cases Γ with
  | nil => exact .inl rfl
  | cons names Γ =>
      rw [Scopes.depth?_introduce_eq]
      exact .inr (Scopes.depth?_mark_self (by simp) false)

/-- The name of a declaration gets its value. -/
theorem follow_define {name : Token} {u : Value} (hw : w.Agrees known)
    (hat : w.At (Γ.introduce name) env depth)
    (hname : Γ.introduce name = [] ∨ (Γ.introduce name).depth? name.lexeme = some 0)
    (hu : u.Tracked known w) (hn : n < N)
    (hrun : Machine.run limit n (.flow .normal k) (w.machine.define name u) = some res) :
    Follows known k.unwind res bound w
      (do define env name u.forget; return (.normal, env))
      (Passes known limit N k res (Γ.introduce name) depth) := by
  have hdefine := hw.defineName (max bound w.size) hu (hw.finds_current hat hname) hat.lt
  exact .act_bind hdefine (Nat.le_max_left ..) (.normal hdefine.agrees
    (hat.after hdefine.after (Nat.lt_of_lt_of_le hat.lt (Nat.le_max_right ..))) hn hrun)

/-- A class is made, and its name, which is bound already, gets it as its value. -/
theorem follow_defineClass {name : Token} (superclass : Option Class)
    {methods : List FunctionDecl} (hat : w.At (Γ.introduce name) env depth)
    (hname : Γ.introduce name = [] ∨ (Γ.introduce name).depth? name.lexeme = some 0)
    (hheld : (w.machine.store.local? w.machine.current name.lexeme).isSome)
    (hclass : ∃ w', Acts known w.size w
        (newClass (env.getD .empty) name (superclass.map Class.forget) methods)
        (w.machine.newClass name superclass methods).1.forget w' ∧
      w'.machine = (w.machine.newClass name superclass methods).2 ∧
      (w.machine.newClass name superclass methods).1.Tracked known w')
    (hle : bound ≤ w.size) (hn : n < N)
    (hrun : (Machine.defineClass name superclass methods k w.machine).runFor limit n = some res) :
    Follows known k.unwind res bound w
      (do
        let c ← newClass (env.getD .empty) name (superclass.map Class.forget) methods
        define env name (.cls c)
        return (.normal, env))
      (Passes known limit N k res (Γ.introduce name) depth) := by
  obtain ⟨w', hnew, hmachine, hc⟩ := hclass
  rw [Machine.defineClass, Store.owner?_of_local? hheld] at hrun
  have hcurrent : (w.machine.newClass name superclass methods).2.current = w.machine.current := by
    rw [← hmachine]
    exact hnew.after.current
  have hrun' : Machine.run limit n (.flow .normal k)
      (w'.machine.define name (.cls (w.machine.newClass name superclass methods).1)) =
      some res := by
    rw [hmachine, Lox.State.define, hcurrent]
    exact hrun
  exact .act_bind hnew hle (follow_define (u := .cls _) hnew.agrees (hat.after hnew.after hat.lt)
    hname hc hn hrun')

/-- A class with a superclass is made once that is found to be a class. -/
theorem follow_subclass {name : Token} {target : Reference} {methods : List FunctionDecl}
    (hw : w.Agrees known) (hat : w.At (Γ.introduce name) env depth)
    (hname : Γ.introduce name = [] ∨ (Γ.introduce name).depth? name.lexeme = some 0)
    (hheld : (w.machine.store.local? w.machine.current name.lexeme).isSome)
    (hfound : target.Found known (Γ.introduce name))
    (hmethods : FunctionDecl.AreScoped known (((Γ.introduce name).given .super).given .this) methods)
    (hle : bound ≤ w.size) (hn : n < N)
    (hrun : Machine.run limit n (.eval (.variable target) (.superclass name target methods k))
      w.machine = some res) :
    Follows known k.unwind res bound w
      (do
        let parent ← superclassOf env (some target)
        let c ← newClass (env.getD .empty) name parent methods
        define env name (.cls c)
        return (.normal, env))
      (Passes known limit N k res (Γ.introduce name) depth) := by
  obtain ⟨n₁, hn₁, hrun⟩ := Machine.runFor_of_run hrun
  have hread := run_read hw hat hfound
  have hstop {cause : RuntimeCause} {n : Nat}
      (hx : (superclassOf env (some target)).run w.lexical =
        some (.error ⟨cause, target.name⟩, w.lexical))
      (hrun : (Machine.fail cause target.name k w.machine).runFor limit n = some res) :=
    (Follows.failed (Q := fun _ _ => False) hw hx hrun).bind (f := fun parent => do
      let c ← newClass (env.getD .empty) name parent methods
      define env name (.cls c)
      return (Flow.normal, env)) (Q := Passes known limit N k res (Γ.introduce name) depth)
      (Nat.le_refl bound) fun _ _ _ _ h => h.elim
  change (Machine.yieldFound (w.machine.read target) target.name _ w.machine).runFor limit n₁ = _
    at hrun
  cases hv : w.machine.read target with
  | none =>
      rw [hv] at hrun hread
      exact hstop (by rw [superclassOf, run_bind, hread]; rfl) hrun
  | some u =>
      rw [hv] at hrun hread
      obtain ⟨n₂, hn₂, hrun⟩ := Machine.runFor_of_run hrun
      cases u with
      | cls c =>
          have hparent : (superclassOf env (some target)).run w.lexical =
              some (.ok (some c.forget), w.lexical) := by
            rw [superclassOf, run_bind, hread]
            rfl
          have hc : c.Tracked known w := tracked_of_read hw hv
          exact .act_bind ⟨hparent, hw, .refl bound w⟩ (Nat.le_refl _)
            (follow_defineClass (some c) hat hname hheld
              (hw.newSubclass hat.fits hc name hmethods) hle
              (Nat.lt_trans hn₂ (Nat.lt_trans hn₁ hn)) hrun)
      | _ => exact hstop (by rw [superclassOf, run_bind, hread]; rfl) hrun

section

variable (ih : ∀ m < N, Simulated known limit m) (hfuel : N ≤ fuel + 1)

include ih hfuel

theorem follow_varDecl {name : Token} {initializer : Option Expr} (hw : w.Agrees known)
    (hat : w.At Γ env depth) {context : FunctionContext}
    (ht : (Stmt.varDecl name initializer).Scoped known Γ context) (hn : n < N)
    (hrun : (Machine.exec (.varDecl name initializer) k w.machine).runFor limit n = some res) :
    Follows known k.unwind res w.machine.current w
      (exec limit (fuel + 1) depth env (.varDecl name initializer))
      (Passes known limit N k res (Γ.introduce name) depth) := by
  obtain ⟨hnew, -, hinitializer⟩ := ht
  obtain ⟨inner, w₁, hdeclare, hat₁, hmachine⟩ := hw.declareName hat hnew
  obtain ⟨hat₂, hname⟩ := introduced hat₁
  rw [← hmachine] at hrun
  apply Follows.act_bind hdeclare (Nat.le_refl _)
  cases initializer with
  | none =>
      exact follow_define (u := .nil) hdeclare.agrees hat₂ hname trivial hn hrun
  | some e =>
      refine (follow_eval ih hfuel hdeclare.agrees hat₁ (hinitializer e rfl) (.inl trivial) hn
        hrun).bind ?_ fun v w₂ hw₂ hafter hv => ?_
      · exact Nat.le_of_lt (Nat.lt_of_lt_of_le hat.lt hdeclare.after.size)
      · obtain ⟨hat₃, u, n₁, rfl, hu, hn₁, hrun⟩ := hv
        obtain ⟨n₂, hn₂, hrun⟩ := Machine.runFor_of_run hrun
        exact follow_define hw₂ (introduced hat₃).1 hname hu (Nat.lt_trans hn₂ hn₁) hrun

omit ih hfuel in
theorem follow_funDecl {function : FunctionDecl} (hw : w.Agrees known)
    (hat : w.At Γ env depth) {context : FunctionContext}
    (ht : (Stmt.funDecl function).Scoped known Γ context) (hn : n < N)
    (hrun : (Machine.exec (.funDecl function) k w.machine).runFor limit n = some res) :
    Follows known k.unwind res w.machine.current w
      (exec limit (fuel + 1) depth env (.funDecl function))
      (Passes known limit N k res (Γ.introduce function.name) depth) := by
  obtain ⟨hnew, -, hfunction⟩ := ht
  obtain ⟨inner, w₁, hdeclare, hat₁, hmachine⟩ := hw.declareName hat hnew
  obtain ⟨hat₁, hname⟩ := introduced hat₁
  rw [← hmachine] at hrun
  have hcapture := hdeclare.agrees.capture w₁.size function w₁.machine.current
    (inner.getD .empty) false
  have htracked := hdeclare.agrees.tracked_capture false hfunction hat₁.fits fun h => by cases h
  refine .act_bind hdeclare (Nat.le_refl _) (.act_bind hcapture
    (Nat.le_of_lt (Nat.lt_of_lt_of_le hat.lt hdeclare.after.size)) ?_)
  exact follow_define (u := .function _) hcapture.agrees (hat₁.after hcapture.after hat₁.lt) hname
    htracked hn hrun

omit ih hfuel in
theorem follow_classDecl {name : Token} {superclass : Option Reference}
    {methods : List FunctionDecl} (hw : w.Agrees known) (hat : w.At Γ env depth)
    {context : FunctionContext}
    (ht : (Stmt.classDecl name superclass methods).Scoped known Γ context) (hn : n < N)
    (hrun : (Machine.exec (.classDecl name superclass methods) k w.machine).runFor limit n =
      some res) :
    Follows known k.unwind res w.machine.current w
      (exec limit (fuel + 1) depth env (.classDecl name superclass methods))
      (Passes known limit N k res (Γ.introduce name) depth) := by
  have hnew : Γ.IsNew name := by
    cases superclass with
    | none => exact ht.1
    | some target => exact ht.1
  obtain ⟨inner, w₁, hdeclare, hat₁, hmachine⟩ := hw.declareName hat hnew
  obtain ⟨hat₁, hname⟩ := introduced hat₁
  have hnil := hdeclare.agrees.defineName w₁.size (v := .nil) trivial
    (hdeclare.agrees.finds_current hat₁ hname) hat₁.lt
  have hat₂ := hat₁.after hnil.after hat₁.lt
  have hheld : ((w₁.write w₁.machine.current name.lexeme .nil).machine.store.local?
      w₁.machine.current name.lexeme).isSome :=
    Option.isSome_iff_exists.mpr ⟨.nil, Store.local?_define_self hat₁.lt⟩
  have hsize : (w₁.write w₁.machine.current name.lexeme .nil).size = w₁.size := Store.size_define
  have hle : w.machine.current ≤ w₁.size :=
    Nat.le_of_lt (Nat.lt_of_lt_of_le hat.lt hdeclare.after.size)
  rw [← hmachine] at hrun
  refine .act_bind hdeclare (Nat.le_refl _) (.act_bind hnil hle ?_)
  cases superclass with
  | none =>
      apply Follows.act_bind (.pure hnil.agrees none) (Nat.le_refl _)
      exact follow_defineClass none hat₂ hname hheld
        (hnil.agrees.newClass hat₂.fits name ht.2.2) (hsize ▸ hle) hn hrun
  | some target =>
      exact follow_subclass hnil.agrees hat₂ hname hheld ht.2.2.1.1 ht.2.2.2 (hsize ▸ hle) hn hrun

/-! ## Statements -/

/-- The evaluator follows the machine through a statement. -/
theorem follow_statement {t : Stmt} {context : FunctionContext} (hw : w.Agrees known)
    (hat : w.At Γ env depth) (ht : t.Scoped known Γ context) (hn : n < N)
    (hrun : (Machine.exec t k w.machine).runFor limit n = some res) :
    Follows known k.unwind res w.machine.current w (exec limit (fuel + 1) depth env t)
      (Passes known limit N k res (t.after Γ) depth) := by
  have hlt : w.machine.current ≤ w.size := Nat.le_of_lt hat.lt
  cases t with
  | expression value =>
      apply (follow_eval ih hfuel hw hat (e := value) ht (.inl trivial) hn hrun).bind hlt
      intro v w₁ hw₁ _ hv
      obtain ⟨hat₁, u, n₁, rfl, -, hn₁, hrun⟩ := hv
      obtain ⟨n₂, hn₂, hrun⟩ := Machine.runFor_of_run hrun
      exact .normal hw₁ hat₁ (Nat.lt_trans hn₂ hn₁) hrun
  | print value =>
      apply (follow_eval ih hfuel hw hat (e := value) ht (.inl trivial) hn hrun).bind hlt
      intro v w₁ hw₁ _ hv
      obtain ⟨hat₁, u, n₁, rfl, -, hn₁, hrun⟩ := hv
      obtain ⟨n₂, hn₂, hrun⟩ := Machine.runFor_of_run hrun
      have hprint := hw₁.print (max w.machine.current w₁.size) u
      exact .act_bind hprint (Nat.le_max_left ..) (.normal hprint.agrees
        (hat₁.after hprint.after (Nat.lt_of_lt_of_le hat₁.lt (Nat.le_max_right ..)))
        (Nat.lt_trans hn₂ hn₁) hrun)
  | varDecl name initializer => exact follow_varDecl ih hfuel hw hat ht hn hrun
  | funDecl function => exact follow_funDecl hw hat ht hn hrun
  | classDecl name superclass methods => exact follow_classDecl hw hat ht hn hrun
  | block body =>
      have hsequence := follow_sequence ih hfuel (hw.enter w.machine.current) (hw.at_enter hat.fits)
        ht hn hrun
      rw [hat.calls] at hsequence
      apply (Follows.leave hsequence).bind hlt
      intro g w₁ hw₁ hafter hg
      obtain ⟨f, n₁, rfl, hf, hn₁, hrun⟩ := hg
      exact .pure hw₁ ⟨f, n₁, rfl, hf, hn₁, hrun, fun _ => hat.after hafter hat.lt⟩
  | branch condition yes no =>
      obtain ⟨hcondition, ⟨hyes, hplain⟩, hno⟩ := ht
      apply (follow_eval ih hfuel hw hat hcondition (.inl trivial) hn hrun).bind hlt
      intro v w₁ hw₁ hafter hv
      obtain ⟨hat₁, u, n₁, rfl, -, hn₁, hrun⟩ := hv
      obtain ⟨n₂, hn₂, hrun⟩ := Machine.runFor_of_run hrun
      have hbranch {t : Stmt} (ht : t.Scoped known Γ context) (hplain : t.IsPlain)
          (hrun : Machine.run limit n₂ (.exec t k) w₁.machine = some res) :
          Follows known k.unwind res w.machine.current w₁ (exec limit fuel depth env t)
            (Passes known limit N k res Γ depth) := by
        have h := follow_exec ih hfuel hw₁ hat₁ ht (Nat.lt_trans hn₂ hn₁) hrun
        rwa [Stmt.after_of_isPlain hplain, hafter.current] at h
      rw [Value.isTruthy_forget]
      by_cases htrue : u.isTruthy
      · have hstep : Machine.step limit (.value u (.branch yes no k)) w₁.machine =
          .next (.exec yes k) w₁.machine := if_pos htrue
        rw [hstep] at hrun
        rw [if_pos htrue]
        exact hbranch hyes hplain hrun
      · have hstep : Machine.step limit (.value u (.branch yes no k)) w₁.machine =
          no.elim (.next (.flow .normal k) w₁.machine) fun t => .next (.exec t k) w₁.machine := by
          cases no <;> exact if_neg htrue
        rw [hstep] at hrun
        rw [if_neg htrue]
        cases no with
        | none => exact .normal hw₁ hat₁ (Nat.lt_trans hn₂ hn₁) hrun
        | some no => exact hbranch hno.1 hno.2 hrun
  | loop condition body =>
      obtain ⟨hcondition, hbody, hplain⟩ := ht
      apply (follow_eval ih hfuel hw hat hcondition (.inl trivial) hn hrun).bind hlt
      intro v w₁ hw₁ hafter hv
      obtain ⟨hat₁, u, n₁, rfl, -, hn₁, hrun⟩ := hv
      obtain ⟨n₂, hn₂, hrun⟩ := Machine.runFor_of_run hrun
      rw [Machine.step, Machine.resume] at hrun
      rw [Value.isTruthy_forget]
      by_cases htrue : u.isTruthy
      · rw [if_pos htrue] at hrun ⊢
        have hexec := follow_exec ih hfuel hw₁ hat₁ hbody (Nat.lt_trans hn₂ hn₁) hrun
        rw [Stmt.after_of_isPlain hplain, hafter.current] at hexec
        apply hexec.bind (Nat.le_refl _)
        intro p w₂ hw₂ hafter₂ hp
        obtain ⟨g, env₂⟩ := p
        obtain ⟨f, n₃, rfl, hf, hn₃, hrun, hat₂⟩ := hp
        cases f with
        | normal =>
            -- The machine tests the condition again as if the loop were only beginning.
            have hagain : Machine.run limit n₃ (.exec (.loop condition body) k) w₂.machine =
                some res := by
              cases n₃ <;> exact hrun
            have hloop := follow_exec ih hfuel hw₂ (hat₂ rfl) (t := .loop condition body)
              ⟨hcondition, hbody, hplain⟩ hn₃ hagain
            rwa [hafter₂.current, hafter.current] at hloop
        | returned u =>
            obtain ⟨n₄, hn₄, hrun⟩ := Machine.runFor_of_run hrun
            exact .returned hw₂ hf (Nat.lt_trans hn₄ hn₃) hrun
      · rw [if_neg htrue] at hrun ⊢
        exact .normal hw₁ hat₁ (Nat.lt_trans hn₂ hn₁) hrun
  | ret keyword value =>
      cases value with
      | none => exact .returned (u := .nil) hw trivial hn hrun
      | some e =>
          apply (follow_eval ih hfuel hw hat (ht.2 e rfl) (.inl trivial) hn hrun).bind hlt
          intro v w₁ hw₁ _ hv
          obtain ⟨-, u, n₁, rfl, hu, hn₁, hrun⟩ := hv
          obtain ⟨n₂, hn₂, hrun⟩ := Machine.runFor_of_run hrun
          exact .returned hw₁ hu (Nat.lt_trans hn₂ hn₁) hrun

end

/-- The evaluator follows the machine, however many steps a run takes. -/
theorem simulated (known : Known) (limit N : Nat) : Simulated known limit N := by
  induction N using Nat.strongRecOn with
  | ind N ih =>
      refine ⟨fun {goal res fuel depth e k w Γ env strict} hfuel hw hat he hstrict hrun => ?_,
        fun {goal res fuel depth t k w Γ env context} hfuel hw hat ht hrun => ?_⟩ <;>
        obtain ⟨n, hn, hrun⟩ := Machine.runFor_of_run hrun
      · obtain ⟨fuel, rfl⟩ := Nat.exists_eq_succ_of_ne_zero
          (Nat.ne_of_gt (Nat.lt_of_lt_of_le (Nat.zero_lt_of_lt hn) hfuel))
        exact follow_expression ih hfuel hw hat he hstrict hn hrun
      · obtain ⟨fuel, rfl⟩ := Nat.exists_eq_succ_of_ne_zero
          (Nat.ne_of_gt (Nat.lt_of_lt_of_le (Nat.zero_lt_of_lt hn) hfuel))
        exact follow_statement ih hfuel hw hat ht hn hrun

end Lexical

end Lox
