import Mathlib
import Lox.Proofs.Guise.Braces
import Lox.Proofs.Guise.Plain
import Lox.Proofs.Guise.Runs
import Lox.Proofs.Incremental.Batches

/-!
# Programs as blocks

A program that stands in braces has in a scope what it would have among the globals. If
each of its variables is found in some scope, that makes no difference: the program
prints the same and ends in the same way, only that its block is entered and left.
-/

namespace Lox

/-- A program and the same program in braces, with what is known of the references of
each. No name is told by another. -/
def Guise.ofBlock (table table' : BindingTable) : Guise where
  old := ""
  new := ""
  distance := table.distance?
  distance' := table'.distance?
  wrapped := true
  old_ne k := by cases k <;> decide
  new_ne k := by cases k <;> decide

namespace Guise

variable {table table' : BindingTable}

theorem eq_of_ofBlock_spells {t t' : Token} (h : (ofBlock table table').Spells t t') : t' = t := by
  cases h with
  | same => rfl
  | changed h =>
    obtain ⟨kind, lexeme, line⟩ := t
    obtain rfl : lexeme = "" := h
    rfl

theorem eq_of_ofBlock_errs {e e' : RuntimeError} (h : (ofBlock table table').Errs e e') :
    e' = e := by
  cases h with
  | undefined h => rw [eq_of_ofBlock_spells h]
  | blamed cause h => rw [eq_of_ofBlock_spells h]

/-- Before anything has run, being in an empty scope is like being among the globals. -/
theorem ofBlock_initial :
    State.Alike (ofBlock table table') (fun _ => false) [] { State.initial with table }
      (State.enter { State.initial with table := table' } .empty Store.globals) where
  store := by
    refine ⟨rfl, fun scope => ?_, fun _ => .none, rfl, rfl, Nat.zero_lt_one, rfl, rfl, nofun⟩
    cases scope with
    | zero => exact .some ⟨fun _ => .none, nofun⟩
    | succ scope => exact .none
  current := rfl
  marked := rfl
  table _ := rfl
  table' _ := rfl
  calls := rfl
  output := rfl

end Guise

namespace Session

variable {source : String} {program braced : List Stmt} {table table' : BindingTable}
  {nextId nextId' : NodeId}

/-- What is read in braces is one block, and what the block holds is like the program. -/
theorem block_alike (h : fresh.Accepts source program table nextId)
    (h' : fresh.Accepts (inBraces source) braced table' nextId')
    (hbound : ∀ r ∈ Stmt.variablesAll braced, (table'.distance? r.id).isSome) :
    ∃ body, braced = [.block body] ∧
      Stmt.AreAlike (.ofBlock (BindingTable.merge ∅ table) (BindingTable.merge ∅ table')) []
        program body := by
  obtain ⟨⟨tokens, hlex, hparse⟩, hresolve⟩ := h
  obtain ⟨⟨tokens', hlex', hparse'⟩, hresolve'⟩ := h'
  obtain ⟨body, rfl, hbody⟩ := eq_block_of_inBraces hlex hparse hlex' hparse'
  have hsilent : State.initial.table.SilentFrom 0 := sound_fresh.silent
  obtain ⟨-, hscoped⟩ := hsilent.program hlex hparse hresolve
  obtain ⟨-, hscoped'⟩ := hsilent.program hlex' hparse' hresolve'
  let G := Guise.ofBlock (BindingTable.merge ∅ table) (BindingTable.merge ∅ table')
  have hknows : G.Knows ((BindingTable.merge ∅ table).known nextId)
      ((BindingTable.merge ∅ table').known nextId') :=
    ⟨fun _ _ => BindingTable.distance?_of_known, fun _ _ => BindingTable.distance?_of_known⟩
  have hwithin : G.Within [] [.empty] := ⟨List.nil_prefix, rfl⟩
  refine ⟨body, rfl, Stmt.areAlike_of_unnumbered hknows hwithin hbody hscoped hscoped'.1
    fun _ r hr => ?_⟩
  have hmerged : (BindingTable.merge ∅ table').distance? r.id = table'.distance? r.id :=
    BindingTable.distance?_merge_of_none_left rfl
  change ((BindingTable.merge ∅ table').distance? r.id).isSome
  rw [hmerged]
  exact hbound r (List.mem_append_left _ hr)

/-- The machines of both programs are alike as soon as the block is entered. -/
theorem block_machines_alike (h : fresh.Accepts source program table nextId)
    (h' : fresh.Accepts (inBraces source) braced table' nextId')
    (hbound : ∀ r ∈ Stmt.variablesAll braced, (table'.distance? r.id).isSome) :
    ∃ (G : Guise) (task' : Task .flow) (st' : State), G.delay = 2 ∧
      (∀ e e', G.Errs e e' → e' = e) ∧
      Machine.Alike G (Machine.program program) (fresh.state.learn table) task' st' ∧
      ∀ calls n, Machine.stepFor calls (n + 2) (Machine.program braced) (fresh.state.learn table') =
          Machine.stepFor calls n task' st' ∧
        Machine.run calls (n + 2) (Machine.program braced) (fresh.state.learn table') =
          Machine.run calls n task' st' := by
  obtain ⟨body, rfl, halike⟩ := block_alike h h' hbound
  exact ⟨_, _, _, rfl, fun _ _ => Guise.eq_of_ofBlock_errs,
    Machine.program_alike Guise.ofBlock_initial halike, fun _ _ => ⟨rfl, rfl⟩⟩

/-- A program that is accepted and, in braces, is accepted and has all its variables
declared there does the same in both ways, each in a session of its own: the one ends if
the other ends, and in the same way, and whether they end or not they print the same. -/
theorem blocks_run_as_programs (h : fresh.Accepts source program table nextId)
    (h' : fresh.Accepts (inBraces source) braced table' nextId')
    (hbound : ∀ r ∈ Stmt.variablesAll braced, (table'.distance? r.id).isSome) (calls : Nat) :
    (∀ steps result last, fresh.run ⟨calls, steps⟩ source = some (result, last) →
      ∃ last', fresh.run ⟨calls, steps + 4⟩ (inBraces source) = some (result, last') ∧
        last'.state.output = last.state.output) ∧
    (∀ steps result last', fresh.run ⟨calls, steps⟩ (inBraces source) = some (result, last') →
      ∃ last, fresh.run ⟨calls, steps⟩ source = some (result, last) ∧
        last'.state.output = last.state.output) ∧
    ∀ n task st, Machine.stepFor calls n (Machine.program program) (fresh.state.learn table) =
        some (task, st) →
      ∃ task' st', Machine.stepFor calls (n + 2) (Machine.program braced)
          (fresh.state.learn table') = some (task', st') ∧ st'.output = st.output := by
  obtain ⟨-, hsound⟩ := sound_fresh.program h
  obtain ⟨G, task', st', hdelay, herrs, halike, henter⟩ := block_machines_alike h h' hbound
  -- What the machines end with is what the sessions end with.
  have hresult {result result' : Except RuntimeError Flow} (hends : G.Ends result result') :
      (result'.map fun _ => ()).mapError Failure.ofRuntime =
        (result.map fun _ => ()).mapError Failure.ofRuntime := by
    cases hends with
    | ok => rfl
    | error he => rw [herrs _ _ he]
  have hrun (steps : Nat) := h.run_eq_machine ⟨calls, steps⟩
  have hrun' (steps : Nat) := h'.run_eq_machine ⟨calls, steps⟩
  refine ⟨fun steps result last hends => ?_, fun steps result last' hends => ?_,
    fun n task st hsteps => ?_⟩
  · rw [hrun, Option.map_eq_some_iff] at hends
    obtain ⟨⟨outcome, st⟩, hmachine, hends⟩ := hends
    obtain ⟨outcome', st'', hmachine', hends', houtput⟩ :=
      Machine.run_alike hsound halike hmachine
    rw [hdelay, ← (henter calls (steps + 2)).2] at hmachine'
    cases hends
    refine ⟨⟨st'', nextId'⟩, ?_, houtput⟩
    rw [hrun', hmachine', Option.map_some, hresult hends']
  · rw [hrun', Option.map_eq_some_iff] at hends
    obtain ⟨⟨outcome', st''⟩, hmachine', hends⟩ := hends
    have hinside : Machine.run calls steps task' st' = some (outcome', st'') := by
      rw [← (henter calls steps).2]
      exact Machine.run_add hmachine' 2
    obtain ⟨outcome, st, hmachine⟩ := Machine.alike_run hsound halike hinside
    obtain ⟨_, _, hlater, hends', houtput⟩ := Machine.run_alike hsound halike hmachine
    cases (Machine.run_add hinside G.delay).symm.trans hlater
    cases hends
    refine ⟨⟨st, nextId⟩, ?_, houtput⟩
    rw [hrun, hmachine, Option.map_some, hresult hends']
  · obtain ⟨⟨task'', st''⟩, hsteps', M, K, hstate, -⟩ :=
      Machine.stepFor_alike hsound halike hsteps
    exact ⟨task'', st'', (henter calls n).1.trans hsteps', hstate.output⟩

/-- A function finds in the block what it would find among the globals. -/
theorem blocks_run_as_programs_function :
    ∃ program braced table table' nextId nextId',
      fresh.Accepts "var a; fun f() \x7b print a; \x7d f();" program table nextId ∧
      fresh.Accepts (inBraces "var a; fun f() \x7b print a; \x7d f();") braced table' nextId' ∧
      (∀ r ∈ Stmt.variablesAll braced, (table'.distance? r.id).isSome) ∧
      ∀ steps result last,
        fresh.run ⟨5, steps⟩ "var a; fun f() \x7b print a; \x7d f();" = some (result, last) →
          ∃ last', fresh.run ⟨5, steps + 4⟩ (inBraces "var a; fun f() \x7b print a; \x7d f();") =
              some (result, last') ∧
            last'.state.output = last.state.output := by
  obtain ⟨program, table, nextId, h⟩ : ∃ program table nextId,
      fresh.Accepts "var a; fun f() \x7b print a; \x7d f();" program table nextId :=
    ⟨_, _, _, ⟨_, by cbv, by cbv⟩, rfl⟩
  obtain ⟨braced, table', nextId', h', hbound⟩ : ∃ braced table' nextId',
      fresh.Accepts (inBraces "var a; fun f() \x7b print a; \x7d f();") braced table' nextId' ∧
        ∀ r ∈ Stmt.variablesAll braced, (table'.distance? r.id).isSome :=
    ⟨_, _, _, ⟨⟨_, by cbv, by cbv⟩, rfl⟩, by decide⟩
  exact ⟨program, braced, table, table', nextId, nextId', h, h', hbound,
    (blocks_run_as_programs h h' hbound 5).1⟩

end Session

end Lox
