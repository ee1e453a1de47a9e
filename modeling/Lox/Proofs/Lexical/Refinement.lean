import Lox.Proofs.Lexical.FollowStatements
import Lox.Proofs.Scoping.Tables
import Mathlib

/-!
# The machine refines the evaluator

Given the same sources, a session of the machine prints what a session of the
evaluator prints, and each source ends alike in both.

## Implementation notes

The evaluator is given at least as much depth as the machine is given steps. No more
is needed: it goes deeper by one only where the machine takes a step.
-/

namespace Lox

namespace Lexical

open World (Agrees After)

/-! ## Runs -/

section

variable {known : Known} {limit n fuel : Nat} {w : World} {st : Lox.State}

/-- Outside of all scopes the evaluator has no map. -/
theorem World.Agrees.at_globals (h : w.Agrees known)
    (hcurrent : w.machine.current = Store.globals) : w.At [] none w.machine.calls where
  fits _ := rfl
  exact name := by
    rw [hcurrent, h.holds.cellOf_globals]
    simp [Scopes.depth?]
  outside := by simp
  global := by simp [hcurrent]
  lt := hcurrent ▸ h.holds.size
  calls := rfl

/-- The evaluator follows the machine through a program. -/
theorem follow_program {program : List Stmt} {outcome : Except RuntimeError Flow}
    (hw : w.Agrees known) (hcurrent : w.machine.current = Store.globals)
    (hcalls : w.machine.calls = 0) (hprogram : Stmt.AreScoped known [] .none program)
    (hfuel : n ≤ fuel)
    (hrun : Machine.run limit n (Machine.program program) w.machine = some (outcome, st)) :
    ∃ result w', (execAll (exec limit fuel 0) none program).run w.lexical =
        some (result, w'.lexical) ∧
      result = outcome.map Flow.forget ∧ w'.machine = st ∧ w'.Agrees known ∧
      After Store.globals w w' := by
  have hat := hw.at_globals hcurrent
  rw [hcalls] at hat
  have hfollows := follow_sequence (fun m _ => simulated known limit m) (Nat.succ_le_succ hfuel) hw
    hat hprogram (Nat.lt_succ_self n) hrun
  obtain ⟨result, w', hexec, hw', hafter, hok, herror⟩ := hfollows
  rw [hcurrent] at hafter
  cases result with
  | error e =>
      obtain ⟨rfl, rfl⟩ := Prod.mk.inj (herror e rfl)
      exact ⟨_, w', hexec, rfl, rfl, hw', hafter⟩
  | ok g =>
      obtain ⟨f, m, rfl, -, -, hrest⟩ := hok g rfl
      obtain ⟨m', -, hdone⟩ := Machine.runFor_of_run hrest
      obtain ⟨rfl, rfl⟩ := Prod.mk.inj (Option.some.inj hdone)
      exact ⟨_, w', hexec, rfl, rfl, hw', hafter⟩

/-- The evaluator follows the machine through an expression outside of all scopes. -/
theorem follow_global {e : Expr} {outcome : Except RuntimeError Value}
    (hw : w.Agrees known) (hcurrent : w.machine.current = Store.globals)
    (hcalls : w.machine.calls = 0) (he : e.Scoped known False []) (hfuel : n ≤ fuel)
    (hrun : Machine.run limit n (Machine.expression e) w.machine = some (outcome, st)) :
    ∃ result w', (eval limit fuel 0 none e).run w.lexical = some (result, w'.lexical) ∧
      result = outcome.map Value.forget ∧ w'.machine = st ∧ w'.Agrees known ∧
      After Store.globals w w' := by
  have hat := hw.at_globals hcurrent
  rw [hcalls] at hat
  have hfollows := ((simulated known limit n).eval hfuel hw hat he (.inr rfl) hrun).weaken
    (Nat.zero_le w.size)
  obtain ⟨result, w', heval, hw', hafter, hok, herror⟩ := hfollows
  cases result with
  | error e =>
      obtain ⟨rfl, rfl⟩ := Prod.mk.inj (herror e rfl)
      exact ⟨_, w', heval, rfl, rfl, hw', hafter⟩
  | ok v =>
      obtain ⟨u, m, rfl, -, -, hrest⟩ := hok v rfl
      obtain ⟨m', -, hdone⟩ := Machine.runFor_of_run hrest
      obtain ⟨rfl, rfl⟩ := Prod.mk.inj (Option.some.inj hdone)
      exact ⟨_, w', heval, rfl, rfl, hw', hafter⟩

end

/-! ## Sessions -/

/-- The state learns a table. -/
theorem World.Agrees.learn {known known' : Known} {w : World} {table : BindingTable}
    (h : w.Agrees known) (hk : known.Grows known')
    (htable : ∀ id d, known' id = some d → table.distance? id = d) :
    ({ w with machine := { w.machine with table } } : World).Agrees known' := by
  have hgrows : World.Grows 0 w { w with machine := { w.machine with table } } :=
    .of_eq rfl rfl (Nat.le_refl _) fun _ _ => rfl
  exact ⟨h.holds.of_eq rfl rfl rfl rfl,
    ⟨fun scope name v hv => ((h.tracks.value scope name v hv).mono hk).grow hgrows,
      fun object name v hv => ((h.tracks.field object name v hv).mono hk).grow hgrows,
      fun object c hc => ((h.tracks.cls object c hc).mono hk).grow hgrows⟩,
    h.objects, h.output, htable⟩

namespace Session

/-- Whether a session of the machine and one of the evaluator are at the same point. -/
structure Matches (s : Lox.Session) (r : Session) : Prop where
  nextId : r.nextId = s.nextId
  silent : s.state.table.SilentFrom s.nextId
  current : s.state.current = Store.globals
  calls : s.state.calls = 0
  agrees : ∃ w : World, w.machine = s.state ∧ w.lexical = r.state ∧
    w.Agrees (s.state.table.known s.nextId)

theorem matches_fresh : Matches .fresh fresh where
  nextId := rfl
  silent _ _ := rfl
  current := rfl
  calls := rfl
  agrees := by
    have hlocal (scope : ScopeRef) (name : String) : Store.initial.local? scope name = none := by
      cases scope <;> rfl
    refine ⟨⟨fun _ _ => none, .initial, .initial⟩, rfl, rfl,
      ⟨Nat.zero_lt_one, rfl, fun name => ?_, by simp, by simp, fun scope name _ hs => ?_⟩,
      ⟨fun scope name v hv => ?_, fun object name v hv => ?_, fun object c hc => ?_⟩, ?_, rfl,
      fun _ _ => BindingTable.distance?_of_known⟩
    · rfl
    · change (Store.initial.local? scope name).isSome at hs
      rw [hlocal] at hs
      cases hs
    · cases (hlocal scope name).symm.trans hv
    · cases hv
    · cases hc
    · simp [State.initial, Lox.State.initial, Store.initial, Store.forget]

namespace Matches

variable {s : Lox.Session} {r : Session} {table : BindingTable} {nextId : NodeId}

theorem accept (h : Matches s r) (ha : s.state.table.Accepts table s.nextId nextId) :
    ∃ w : World, w.machine = { s.state with table } ∧ w.lexical = r.state ∧
      w.Agrees (table.known nextId) := by
  obtain ⟨w, hmachine, hlexical, hw⟩ := h.agrees
  exact ⟨{ w with machine := { w.machine with table } }, by rw [hmachine], hlexical,
    hw.learn ha.grows fun _ _ => BindingTable.distance?_of_known⟩

/-- A run leads from one point to another. -/
theorem of_after (h : Matches s r) {w w' : World} (hw' : w'.Agrees (table.known nextId))
    (hafter : After Store.globals w w') (hmachine : w.machine = { s.state with table })
    (hsilent : table.SilentFrom nextId) :
    Matches ⟨w'.machine, nextId⟩ ⟨w'.lexical, nextId⟩ := by
  have htable : w'.machine.table = table := by rw [hafter.table, hmachine]
  refine ⟨rfl, htable ▸ hsilent, ?_, ?_, w', rfl, rfl, htable ▸ hw'⟩
  · rw [hafter.current, hmachine]
    exact h.current
  · rw [hafter.calls, hmachine]
    exact h.calls

theorem advance (h : Matches s r) (hid : @LE.le Nat _ s.nextId nextId) :
    Matches { s with nextId } { r with nextId } := by
  have haccepts := h.silent.advance hid
  obtain ⟨w, hmachine, hlexical, hw⟩ := h.accept haccepts
  exact ⟨rfl, haccepts.silent, h.current, h.calls, w, hmachine, hlexical, hw⟩

end Matches

variable {s s' : Lox.Session} {r : Session} {limits : Limits} {fuel : Nat} {source : String}

/-- A source is run with the same result, the same output and from one point to
another. -/
theorem Matches.run {result : Except Failure Unit} (h : Matches s r)
    (hrun : s.run limits source = some (result, s')) (hfuel : limits.steps ≤ fuel) :
    ∃ r', r.run ⟨limits.calls, fuel⟩ source = some (result, r') ∧ Matches s' r' := by
  unfold Lox.Session.run at hrun
  unfold Session.run
  rw [h.nextId]
  cases hlex : (lex source).toExcept with
  | error e =>
      rw [hlex] at hrun
      cases hrun
      exact ⟨r, rfl, h⟩
  | ok tokens =>
      rw [hlex] at hrun
      have hid := (Parser.program_reads (Parser.fuelFor tokens)).le_nextId tokens s.nextId
      change @LE.le Nat _ s.nextId (parseProgram tokens s.nextId).2 at hid
      cases hparse : parseProgram tokens s.nextId with
      | mk parsed nextId =>
          rw [hparse] at hid
          cases parsed with
          | error failure =>
              simp only [hparse] at hrun ⊢
              cases hrun
              exact ⟨_, rfl, h.advance hid⟩
          | ok program =>
              cases hresolve : resolve program with
              | error failure =>
                  simp only [hparse, hresolve] at hrun ⊢
                  cases hrun
                  exact ⟨_, rfl, h.advance hid⟩
              | ok table =>
                  simp only [hparse, hresolve, Lox.State.interpret, Option.map_map,
                    Option.map_eq_some_iff] at hrun
                  obtain ⟨⟨outcome, st⟩, hmachine, heq⟩ := hrun
                  obtain ⟨haccepts, hscoped⟩ := h.silent.program hlex hparse hresolve
                  obtain ⟨w, hw, hlexical, hagrees⟩ := h.accept haccepts
                  rw [show s.state.learn table = w.machine from hw.symm] at hmachine
                  obtain ⟨_, w', hexec, rfl, rfl, hagrees', hafter⟩ := follow_program hagrees
                    (by rw [hw]; exact h.current) (by rw [hw]; exact h.calls) hscoped hfuel hmachine
                  have hmatches := h.of_after hagrees' hafter hw haccepts.silent
                  rw [hlexical] at hexec
                  simp only [hparse, hresolve, State.interpret, hexec]
                  cases outcome <;> cases heq <;> exact ⟨_, rfl, hmatches⟩

/-- An expression is evaluated with the same result, the same output and from one point
to another. -/
theorem Matches.evaluate {result : Except Failure Value} (h : Matches s r)
    (hrun : s.evaluate limits source = some (result, s')) (hfuel : limits.steps ≤ fuel) :
    ∃ r', r.evaluate ⟨limits.calls, fuel⟩ source = some (result.map Value.forget, r') ∧
      Matches s' r' := by
  unfold Lox.Session.evaluate at hrun
  unfold Session.evaluate
  rw [h.nextId]
  cases hlex : (lex source).toExcept with
  | error e =>
      rw [hlex] at hrun
      cases hrun
      exact ⟨r, rfl, h⟩
  | ok tokens =>
      rw [hlex] at hrun
      have hid := (Parser.wholeExpression_reads (Parser.fuelFor tokens)).le_nextId tokens s.nextId
      change @LE.le Nat _ s.nextId (parseExpression tokens s.nextId).2 at hid
      cases hparse : parseExpression tokens s.nextId with
      | mk parsed nextId =>
          rw [hparse] at hid
          cases parsed with
          | error failure =>
              simp only [hparse] at hrun ⊢
              cases hrun
              exact ⟨_, rfl, h.advance hid⟩
          | ok e =>
              simp only [hparse, Lox.State.evaluate, Option.map_eq_some_iff] at hrun
              obtain ⟨⟨outcome, st⟩, hmachine, heq⟩ := hrun
              obtain ⟨haccepts, hscoped⟩ := h.silent.expression hlex hparse
              obtain ⟨w, hw, hlexical, hagrees⟩ := h.accept haccepts
              rw [show s.state = w.machine from hw.symm] at hmachine
              obtain ⟨_, w', heval, rfl, rfl, hagrees', hafter⟩ := follow_global hagrees
                (by rw [hw]; exact h.current) (by rw [hw]; exact h.calls) hscoped hfuel hmachine
              have hmatches := h.of_after hagrees' hafter hw haccepts.silent
              rw [hlexical] at heval
              simp only [hparse, State.evaluate, heval]
              cases outcome <;> cases heq <;> exact ⟨_, rfl, hmatches⟩

theorem Matches.output_eq (h : Matches s r) : r.state.output = s.state.output := by
  obtain ⟨w, hmachine, hlexical, hw⟩ := h.agrees
  rw [← hmachine, ← hlexical]
  exact hw.output

/-- Whether two sessions have been given the same sources, the evaluator with as much
depth as the machine with steps, or more. -/
inductive SameSources : Lox.Session → Session → Prop
  | fresh : SameSources .fresh fresh
  | run {s s' : Lox.Session} {r r' : Session} {limits : Limits} {fuel : Nat} {source : String}
      {result result' : Except Failure Unit} :
      SameSources s r → s.run limits source = some (result, s') → limits.steps ≤ fuel →
      r.run ⟨limits.calls, fuel⟩ source = some (result', r') → SameSources s' r'
  | evaluate {s s' : Lox.Session} {r r' : Session} {limits : Limits} {fuel : Nat}
      {source : String} {result result' : Except Failure Value} :
      SameSources s r → s.evaluate limits source = some (result, s') → limits.steps ≤ fuel →
      r.evaluate ⟨limits.calls, fuel⟩ source = some (result', r') → SameSources s' r'

theorem SameSources.matches (h : SameSources s r) : Matches s r := by
  induction h with
  | fresh => exact matches_fresh
  | run _ hrun hfuel hrun' ih =>
      obtain ⟨r'', hrun'', hmatches⟩ := ih.run hrun hfuel
      obtain ⟨-, rfl⟩ := Prod.mk.inj (Option.some.inj (hrun'.symm.trans hrun''))
      exact hmatches
  | evaluate _ hrun hfuel hrun' ih =>
      obtain ⟨r'', hrun'', hmatches⟩ := ih.evaluate hrun hfuel
      obtain ⟨-, rfl⟩ := Prod.mk.inj (Option.some.inj (hrun'.symm.trans hrun''))
      exact hmatches

/-- A source that the machine runs to an end, the evaluator runs to the same end, and both
have printed the same. -/
theorem runs_end_alike {result : Except Failure Unit} (h : SameSources s r)
    (hrun : s.run limits source = some (result, s')) (hfuel : limits.steps ≤ fuel) :
    ∃ r', r.run ⟨limits.calls, fuel⟩ source = some (result, r') ∧
      r'.state.output = s'.state.output := by
  obtain ⟨r', hrun', hmatches⟩ := h.matches.run hrun hfuel
  exact ⟨r', hrun', hmatches.output_eq⟩

/-- A function sees the variable of its scope and not a later one that shadows it. -/
theorem runs_end_alike_shadowed : ∃ r',
    fresh.run ⟨2, 64⟩ "var a = \"x\"; \x7b fun f() \x7b print a; \x7d var a = \"y\"; f(); \x7d" =
        some (.ok (), r') ∧ r'.state.output = "x\n" := by
  obtain ⟨s', hrun, hout⟩ : ∃ s', Lox.Session.fresh.run ⟨2, 64⟩
      "var a = \"x\"; \x7b fun f() \x7b print a; \x7d var a = \"y\"; f(); \x7d" =
        some (.ok (), s') ∧ s'.state.output = "x\n" :=
    ⟨_, by cbv, by cbv⟩
  rw [← hout]
  exact runs_end_alike .fresh hrun (Nat.le_refl 64)

end Session

end Lexical

end Lox
