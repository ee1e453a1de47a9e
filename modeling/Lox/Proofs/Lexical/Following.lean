import Lox.Proofs.Activation.Runs
import Lox.Proofs.Lexical.Objects

/-!
# Following the machine

What it means that a computation of the evaluator follows a run of the machine: from
worlds that agree it comes to worlds that agree, and ends either as the rest of the
run goes on or with the error that ends the run.

## Implementation notes

The machine's run is given as a whole, with its result, and a number of steps that
are left of it. A piece of program takes some of them and leaves the others to its
continuation.
-/

namespace Lox

namespace Lexical

open World (Acts After Agrees)

variable {known : Known} {limit N n : Nat} {goal : Yield} {res : Result goal} {w w' : World}
  {bound lower : ScopeRef} {α β : Type} {x : Eval α} {P Q : α → World → Prop}
  {out : Lox.State → Lox.State}

/-- Whether a computation leads to worlds that agree, and either to a result that the
rest needs, or to the error that is the result of the run. -/
def Follows (known : Known) (out : Lox.State → Lox.State) (res : Result goal) (bound : ScopeRef)
    (w : World) (x : Eval α) (Q : α → World → Prop) : Prop :=
  ∃ r w', x.run w.lexical = some (r, w'.lexical) ∧ w'.Agrees known ∧ After bound w w' ∧
    (∀ a, r = .ok a → Q a w') ∧ ∀ e, r = .error e → res = (.error e, out w'.machine)

/-- Whether the run goes on with a value. -/
def Yields (known : Known) (limit N : Nat) (k : Cont goal .value) (res : Result goal) (v : Value)
    (w : World) : Prop :=
  ∃ u n, v = u.forget ∧ u.Tracked known w ∧ n < N ∧
    Machine.run limit n (.value u k) w.machine = some res

/-- Whether the run goes on with a flow. -/
def Flows (known : Known) (limit N : Nat) (k : Cont goal .flow) (res : Result goal) (g : Flow)
    (w : World) : Prop :=
  ∃ f n, g = f.forget ∧ f.Tracked known w ∧ n < N ∧
    Machine.run limit n (.flow f k) w.machine = some res

/-- Whether the run goes on with a flow and, if that falls through, at a place. -/
def Passes (known : Known) (limit N : Nat) (k : Cont goal .flow) (res : Result goal) (Γ : Scopes)
    (depth : Nat) (p : Flow × Option Env) (w : World) : Prop :=
  ∃ f n, p.1 = f.forget ∧ f.Tracked known w ∧ n < N ∧
    Machine.run limit n (.flow f k) w.machine = some res ∧ (f = .normal → w.At Γ p.2 depth)

/-- Whether the evaluator follows every piece of program from which the machine takes
so many steps. -/
structure Simulated (known : Known) (limit N : Nat) : Prop where
  eval : ∀ {goal : Yield} {res : Result goal} {fuel depth : Nat} {e : Expr}
    {k : Cont goal .value} {w : World} {Γ : Scopes} {env : Option Env} {strict : Prop},
    N ≤ fuel → w.Agrees known → w.At Γ env depth → e.Scoped known strict Γ → (strict ∨ Γ = []) →
    Machine.run limit N (.eval e k) w.machine = some res →
    Follows known k.unwind res w.size w (eval limit fuel depth env e) (Yields known limit N k res)
  exec : ∀ {goal : Yield} {res : Result goal} {fuel depth : Nat} {t : Stmt}
    {k : Cont goal .flow} {w : World} {Γ : Scopes} {env : Option Env} {context : FunctionContext},
    N ≤ fuel → w.Agrees known → w.At Γ env depth → t.Scoped known Γ context →
    Machine.run limit N (.exec t k) w.machine = some res →
    Follows known k.unwind res w.machine.current w (exec limit fuel depth env t)
      (Passes known limit N k res (t.after Γ) depth)

/-! ## Rules -/

namespace Follows

theorem act {a : α} (h : Acts known bound w x a w') (hQ : Q a w') :
    Follows known out res bound w x Q := by
  refine ⟨.ok a, w', h.run, h.agrees, h.after, fun b hb => ?_, by simp⟩
  rwa [← Except.ok.inj hb]

theorem pure {a : α} (h : w.Agrees known) (hQ : Q a w) :
    Follows known out res bound w (pure a) Q :=
  act (.pure h a) hQ

theorem failed {y : Yield} {k : Cont goal y} {cause : RuntimeCause} {token : Token}
    (h : w.Agrees known) (hx : x.run w.lexical = some (.error ⟨cause, token⟩, w.lexical))
    (hrun : (Machine.fail cause token k w.machine).runFor limit n = some res) :
    Follows known k.unwind res bound w x Q := by
  refine ⟨.error ⟨cause, token⟩, w, hx, h, .refl bound w, by simp, fun e he => ?_⟩
  rw [← Except.error.inj he]
  exact (Option.some.inj hrun).symm

theorem fail {y : Yield} {k : Cont goal y} {cause : RuntimeCause} {token : Token}
    (h : w.Agrees known)
    (hrun : (Machine.fail cause token k w.machine).runFor limit n = some res) :
    Follows known k.unwind res bound w (fail cause token) Q :=
  failed h rfl hrun

theorem bind {f : α → Eval β} {Q : β → World → Prop} (h : Follows known out res bound w x P)
    (hle : lower ≤ bound)
    (hf : ∀ a w', w'.Agrees known → After bound w w' → P a w' →
      Follows known out res lower w' (f a) Q) :
    Follows known out res lower w (x >>= f) Q := by
  obtain ⟨r, w', hrun, hw', hafter, hok, herror⟩ := h
  have hbind : (x >>= f).run w.lexical = (ExceptT.bindCont f r).run w'.lexical := by
    rw [run_bind, hrun]
    rfl
  cases r with
  | error e => exact ⟨.error e, w', hbind, hw', hafter.weaken hle, by simp, by simpa using herror e rfl⟩
  | ok a =>
      obtain ⟨r, w'', hrest, hw'', hafter', hends⟩ := hf a w' hw' hafter (hok a rfl)
      exact ⟨r, w'', hbind.trans hrest, hw'', (hafter.weaken hle).trans hafter', hends⟩

/-- An action and what comes after it. -/
theorem act_bind {f : α → Eval β} {Q : β → World → Prop} {a : α} (h : Acts known bound w x a w')
    (hle : lower ≤ bound) (hf : Follows known out res lower w' (f a) Q) : Follows known out res lower w (x >>= f) Q :=
  (act (Q := fun b w₁ => b = a ∧ w₁ = w') h ⟨rfl, rfl⟩).bind hle
    fun _ _ _ _ ⟨hb, hw₁⟩ => hb ▸ hw₁ ▸ hf

theorem get_bind {f : State → Eval β} {Q : β → World → Prop}
    (h : Follows known out res bound w (f w.lexical) Q) :
    Follows known out res bound w (get >>= f) Q :=
  h

theorem mono (h : Follows known out res bound w x P) (hPQ : ∀ a w', After bound w w' → P a w' → Q a w') :
    Follows known out res bound w x Q := by
  obtain ⟨r, w', hrun, hw', hafter, hok, herror⟩ := h
  exact ⟨r, w', hrun, hw', hafter, fun a ha => hPQ a w' hafter (hok a ha), herror⟩

theorem weaken (h : Follows known out res bound w x Q) (hle : lower ≤ bound) :
    Follows known out res lower w x Q := by
  obtain ⟨r, w', hrun, hw', hafter, hends⟩ := h
  exact ⟨r, w', hrun, hw', hafter.weaken hle, hends⟩

end Follows

end Lexical

end Lox
