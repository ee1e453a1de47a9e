import Lox.Proofs.Rejection.RenumberedSessions
import Mathlib

/-!
# Steps that are rejected

A session takes one step after the other: it runs a source or evaluates an expression,
and replies with what was printed and how it ended. A step that one of the stages
before it runs rejects has no effect but that it uses up numbers. So it can be left
out: all other steps get the same replies.

## Implementation notes

The log of a session holds the steps that ended. What is asked next need not end, and
then it does not end in the session without the rejected steps either.
-/

namespace Lox

/-- What a session can be asked for. -/
inductive Request where
  | run (limits : Limits) (source : String)
  | evaluate (limits : Limits) (source : String)

/-- What was printed, and how the step ended. A value is shown as `print` shows it. -/
@[ext]
structure Reply where
  printed : String
  outcome : Except Failure (Option String)

/-- Whether a stage before it runs rejected what was asked for. -/
def Reply.isRejection (r : Reply) : Bool :=
  match r.outcome with
  | .ok _ => false
  | .error failure => failure.isStatic

/-- What has been printed since an earlier state. -/
def State.printedSince (st earlier : State) : String :=
  String.ofList (st.output.toList.drop earlier.output.toList.length)

theorem State.printedSince_of_append {st earlier : State} {text : String}
    (h : st.output = earlier.output ++ text) : st.printedSince earlier = text := by
  rw [printedSince, h, String.toList_append, List.drop_left, String.ofList_toList]

theorem rel_option_map {α β γ δ : Type} {R : α → β → Prop} {R' : γ → δ → Prop} {f : α → γ}
    {g : β → δ} {a : Option α} {b : Option β} (h : Option.Rel R a b)
    (hfg : ∀ a b, R a b → R' (f a) (g b)) : Option.Rel R' (a.map f) (b.map g) := by
  cases h with
  | none => exact .none
  | some hab => exact .some (hfg _ _ hab)

/-- The steps of a session, each with its reply. -/
abbrev Log := List (Request × Reply)

/-- Whether some of the rejected steps of a log are left out, and no others. -/
inductive Log.Omits : Log → Log → Prop
  | nil : Omits [] []
  | keep {log rest : Log} (entry : Request × Reply) (h : Omits log rest) :
      Omits (entry :: log) (entry :: rest)
  | leave {log rest : Log} {entry : Request × Reply} (hentry : entry.2.isRejection = true)
      (h : Omits log rest) : Omits (entry :: log) rest

namespace Session

/-- Take a step, unless it takes too long. -/
def serve (s : Session) : Request → Option (Reply × Session)
  | .run limits source =>
      (s.run limits source).map fun (result, s') =>
        (⟨s'.state.printedSince s.state, result.map fun _ => none⟩, s')
  | .evaluate limits source =>
      (s.evaluate limits source).map fun (result, s') =>
        (⟨s'.state.printedSince s.state, result.map fun v => some (s'.state.store.display v)⟩, s')

/-- Whether the steps of a log lead from one session to another. -/
inductive Logs : Session → Log → Session → Prop
  | nil (s : Session) : Logs s [] s
  | cons {s s' s'' : Session} {q : Request} {r : Reply} {log : Log}
      (hserve : s.serve q = some (r, s')) (h : Logs s' log s'') : Logs s ((q, r) :: log) s''

variable {s s' t : Session} {q : Request} {r : Reply}

/-! ## Single steps -/

/-- A step is either rejected, which uses up numbers at most, or adds to the output. -/
theorem serve_cases (h : s.serve q = some (r, s')) :
    (∃ nextId, @LE.le Nat _ s.nextId nextId ∧ s' = { s with nextId }) ∨
      r.isRejection = false ∧ ∃ text, s'.state.output = s.state.output ++ text := by
  cases q with
  | run limits source =>
    obtain ⟨⟨result, s₁⟩, hrun, hend⟩ := Option.map_eq_some_iff.mp h
    cases hend
    obtain hskip | ⟨program, table, nextId, outcome, -, hmachine, -, rfl⟩ := run_cases hrun
    · exact .inl hskip
    · have hrestores : (s.state.learn table).Restores s'.state := Machine.run_restores hmachine
      refine .inr ⟨?_, hrestores.output⟩
      cases outcome <;> rfl
  | evaluate limits source =>
    obtain ⟨⟨result, s₁⟩, heval, hend⟩ := Option.map_eq_some_iff.mp h
    cases hend
    obtain hskip | ⟨tokens, e, nextId, outcome, -, -, hmachine, -, rfl⟩ := evaluate_cases heval
    · exact .inl hskip
    · have hrestores : s.state.Restores s'.state := Machine.run_restores hmachine
      refine .inr ⟨?_, hrestores.output⟩
      cases outcome <;> rfl

theorem printed_of_serve (h : s.serve q = some (r, s')) :
    r.printed = s'.state.printedSince s.state := by
  cases q <;>
    obtain ⟨_, _, hend⟩ := Option.map_eq_some_iff.mp h <;> cases hend <;> rfl

/-- The reply to a step holds what the step printed. -/
theorem output_of_serve (h : s.serve q = some (r, s')) :
    s'.state.output = s.state.output ++ r.printed := by
  have houtput : ∃ text, s'.state.output = s.state.output ++ text := by
    obtain ⟨nextId, -, rfl⟩ | ⟨-, houtput⟩ := serve_cases h
    · exact ⟨"", String.append_empty.symm⟩
    · exact houtput
  obtain ⟨text, htext⟩ := houtput
  rw [printed_of_serve h, State.printedSince_of_append htext, htext]

/-- A step that is rejected uses up numbers at most. -/
theorem serve_rejection (h : s.serve q = some (r, s')) (hr : r.isRejection = true) :
    ∃ nextId, @LE.le Nat _ s.nextId nextId ∧ s' = { s with nextId } := by
  obtain hskip | ⟨hr', -⟩ := serve_cases h
  · exact hskip
  · rw [hr'] at hr
    cases hr

theorem Sound.serve (hs : s.Sound) (h : s.serve q = some (r, s')) : s'.Sound := by
  cases q with
  | run limits source =>
    obtain ⟨_, hrun, hend⟩ := Option.map_eq_some_iff.mp h
    cases hend
    exact hs.run hrun
  | evaluate limits source =>
    obtain ⟨_, heval, hend⟩ := Option.map_eq_some_iff.mp h
    cases hend
    exact hs.evaluate heval

namespace Renumbers

variable {φ₀ : Nat → Nat}

theorem output_eq (h : Renumbers φ₀ t s) : t.state.output = s.state.output := by
  obtain ⟨shift, hshift⟩ : ∃ shift, s.nextId = t.nextId + shift := Nat.exists_eq_add_of_le h.le
  have hextends : Extends t.nextId s.nextId φ₀ (shiftFrom t.nextId shift φ₀) :=
    hshift ▸ (extends_shiftFrom (Nat.le_refl _)).of_shiftFrom (Nat.le_refl _)
  exact (congrArg State.output (h.state _ hextends)).symm

/-- Sessions that are the same up to numbers give the same reply. -/
theorem serve (h : Renumbers φ₀ t s) (ht : t.Sound) (hs : s.Sound) (q : Request) :
    Option.Rel (fun a b => a.1 = b.1 ∧ ∃ φ, Renumbers φ a.2 b.2) (t.serve q) (s.serve q) := by
  have hprinted {φ : Nat → Nat} {t' s' : Session} (hnext : Renumbers φ t' s') :
      t'.state.printedSince t.state = s'.state.printedSince s.state := by
    rw [State.printedSince, State.printedSince, h.output_eq, hnext.output_eq]
  cases q with
  | run limits source =>
    apply rel_option_map (h.run ht hs limits source)
    rintro ⟨result, t'⟩ ⟨_, s'⟩ ⟨rfl, φ, hnext⟩
    exact ⟨Reply.ext (hprinted hnext) rfl, φ, hnext⟩
  | evaluate limits source =>
    apply rel_option_map (h.evaluate limits source)
    rintro ⟨result, t'⟩ ⟨result', s'⟩ ⟨hshown, φ, hnext⟩
    refine ⟨Reply.ext (hprinted hnext) ?_, φ, hnext⟩
    have hsome := congrArg (Except.map some) hshown
    cases result <;> cases result' <;> exact hsome

end Renumbers

/-! ## Logs -/

/-- Leaving out rejected steps of a log changes numbers only. -/
theorem Logs.omit_rejections {φ₀ : Nat → Nat} {log rest : Log} (hlog : Logs s log s')
    (homits : Log.Omits log rest) (h : Renumbers φ₀ t s) (ht : t.Sound) (hs : s.Sound) :
    ∃ t' φ, Logs t rest t' ∧ Renumbers φ t' s' ∧ t'.Sound ∧ s'.Sound := by
  induction homits generalizing φ₀ s t with
  | nil =>
    cases hlog
    exact ⟨t, φ₀, .nil t, h, ht, hs⟩
  | keep entry _ ih =>
    cases hlog with
    | @cons _ s₁ _ q r _ hserve hlog =>
      have hreplies := h.serve ht hs q
      rw [hserve] at hreplies
      cases hserve' : t.serve q with
      | none =>
        rw [hserve'] at hreplies
        cases hreplies
      | some a =>
        obtain ⟨r', t₁⟩ := a
        rw [hserve'] at hreplies
        cases hreplies with
        | some hends =>
          obtain ⟨rfl, φ, hnext⟩ := hends
          obtain ⟨t', φ', hrest, hlast⟩ := ih hlog hnext (ht.serve hserve') (hs.serve hserve)
          exact ⟨t', φ', .cons hserve' hrest, hlast⟩
  | leave hentry _ ih =>
    cases hlog with
    | cons hserve hlog =>
      have hs₁ := hs.serve hserve
      obtain ⟨nextId, hid, rfl⟩ := serve_rejection hserve hentry
      exact ih hlog (h.skip hid) ht hs₁

/-- Rejected steps are invisible at the end of a log. A rejected step prints nothing and
leaves the state as it was. If any of the rejected steps before are left out, the other
steps have the same replies, and so has whatever is asked for next, if it ends. -/
structure IgnoresRejections (log : Log) (s : Session) : Prop where
  printed (q : Request) (r : Reply) (s' : Session) (h : s.serve q = some (r, s')) :
    s'.state.output = s.state.output ++ r.printed
  rejected (q : Request) (r : Reply) (s' : Session) (h : s.serve q = some (r, s'))
    (hr : r.isRejection = true) : r.printed = "" ∧ s'.state = s.state
  omitted (rest : Log) (h : log.Omits rest) : ∃ t, Logs fresh rest t ∧
    ∀ q, (t.serve q).map Prod.fst = (s.serve q).map Prod.fst

theorem rejections_are_invisible {log : Log} (h : Logs fresh log s) : s.IgnoresRejections log where
  printed _ _ _ hserve := output_of_serve hserve
  rejected q r s' hserve hr := by
    obtain ⟨nextId, -, rfl⟩ := serve_rejection hserve hr
    refine ⟨?_, rfl⟩
    rw [printed_of_serve hserve]
    exact State.printedSince_of_append String.append_empty.symm
  omitted rest homits := by
    obtain ⟨t, φ, hrest, hlast, ht, hs⟩ :=
      h.omit_rejections homits renumbers_fresh sound_fresh sound_fresh
    refine ⟨t, hrest, fun q => ?_⟩
    have hreplies := hlast.serve ht hs q
    generalize t.serve q = first, s.serve q = second at hreplies
    cases hreplies with
    | none => rfl
    | some hends => exact congrArg some hends.1

/-- Between the declaration of a function and its call, a source that breaks off may be
left out. -/
theorem rejections_are_invisible_call : ∃ rejection s t,
    rejection.isRejection = true ∧ rejection.printed = "" ∧
    Logs fresh
      [(.run ⟨1, 9⟩ "fun f(x) \x7b return x; \x7d", ⟨"", .ok none⟩), (.run ⟨1, 9⟩ "f; f", rejection),
        (.evaluate ⟨1, 99⟩ "f(nil)", ⟨"", .ok (some "nil")⟩)] s ∧
    Logs fresh
      [(.run ⟨1, 9⟩ "fun f(x) \x7b return x; \x7d", ⟨"", .ok none⟩),
        (.evaluate ⟨1, 99⟩ "f(nil)", ⟨"", .ok (some "nil")⟩)] t := by
  obtain ⟨s₁, s₂, s, rejection, hdeclare, hreject, hcall, hrejection⟩ :
      ∃ s₁ s₂ s rejection,
        fresh.serve (.run ⟨1, 9⟩ "fun f(x) \x7b return x; \x7d") = some (⟨"", .ok none⟩, s₁) ∧
        s₁.serve (.run ⟨1, 9⟩ "f; f") = some (rejection, s₂) ∧
        s₂.serve (.evaluate ⟨1, 99⟩ "f(nil)") = some (⟨"", .ok (some "nil")⟩, s) ∧
        rejection.isRejection = true :=
    ⟨_, _, _, _, by cbv, by cbv, by cbv, by cbv⟩
  have hdeclared : Logs fresh _ s₁ := .cons hdeclare (.nil s₁)
  have hlog : Logs fresh _ s := .cons hdeclare (.cons hreject (.cons hcall (.nil s)))
  obtain ⟨t, hrest, -⟩ :=
    (rejections_are_invisible hlog).omitted _ (.keep _ (.leave hrejection (.keep _ .nil)))
  exact ⟨rejection, s, t, hrejection,
    ((rejections_are_invisible hdeclared).rejected _ _ _ hreject hrejection).1, hlog, hrest⟩

end Session

end Lox
