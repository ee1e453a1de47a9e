import Lox.Proofs.Incremental.Lexing
import Lox.Proofs.Incremental.MovedWalk
import Lox.Proofs.Incremental.Runs
import Lox.Proofs.Mirror.Sessions
import Mathlib

/-!
# One source after another, or both at once

Two sources that a session runs one after the other can be run as one, with a line
end between them. If the first is accepted, the second is rejected behind it as it is
rejected alone, further down; and if both are accepted and the first runs to its end,
the joint source runs as the second does after the first, up to the lines of the
second.

## Implementation notes

What is further down after a joint run are the tokens of the second source, wherever
they have come to be. To tell them from the others in one store, the second source is
run once more with its tokens on odd lines, and all that was there before on even
lines (`interpretMarked`). Either of the other two runs is this run with the marks
taken off.
-/

namespace Lox

/-! ## Marks -/

namespace Move

/-- To put a token on the even line that stands for its line. -/
def keep : Move :=
  ⟨fun line => 2 * line, 0⟩

/-- To put a token on the odd line that stands for its line. -/
def mark : Move :=
  ⟨fun line => 2 * line + 1, 0⟩

/-- To put a token on the line that its line stands for, and those on odd lines so many
lines further down. -/
def settle (lines : Nat) : Move :=
  ⟨fun line => if line % 2 = 0 then line / 2 else line / 2 + lines, 0⟩

theorem settle_comp_keep (lines : Nat) : (settle lines).comp keep = still := by
  ext line
  · simp [comp, settle, keep, still]
  · rfl

theorem settle_comp_mark (lines : Nat) : (settle lines).comp mark = down lines := by
  ext line
  · have hodd : (2 * line + 1) % 2 ≠ 0 := by omega
    have hhalf : (2 * line + 1) / 2 = line := by omega
    simp only [comp, settle, mark, down, if_neg hodd, hhalf]
  · rfl

end Move

namespace State

/-- Run a program with its tokens on odd lines in a state with its tokens on even
lines. -/
def interpretMarked (st : State) (limits : Limits) (program : List Stmt) :
    Option (Except RuntimeError Unit × State) :=
  { st with store := st.store.map (Closure.move .keep) }.interpret limits
    (program.map (Stmt.move .mark))

/-- What a marked run ends in, with the tokens of its program so many lines further
down, and with another table. -/
def settle (lines : Nat) (table : BindingTable) (r : Except RuntimeError Unit × State) :
    Except RuntimeError Unit × State :=
  (r.1.mapError (Blame.move (.settle lines)),
    { r.2 with store := r.2.store.map (Closure.move (.settle lines)), table })

theorem output_settle (lines : Nat) (table : BindingTable)
    (r : Except RuntimeError Unit × State) : (settle lines table r).2.output = r.2.output :=
  rfl

end State

/-- Whether a table says the same as another one, of references numbered from `firstId`
on so many lines further down. -/
def BindingTable.DownFrom (table : BindingTable) (firstId : NodeId) (lines : Nat)
    (table' : BindingTable) : Prop :=
  ∀ id : NodeId, table'[id]? =
    if @LE.le Nat _ firstId id then table[id]?.map (Binding.move (.down lines)) else table[id]?

theorem BindingTable.DownFrom.distance? {older newer : BindingTable} {firstId : NodeId} {lines : Nat}
    (h : older.DownFrom firstId lines newer) (id : NodeId) :
    newer.distance? id = older.distance? id := by
  rw [BindingTable.distance?, BindingTable.distance?, h id]
  split
  · rw [Option.map_map]
    rfl
  · rfl

/-! ## Running the second source -/

/-- A program runs further down as its marked run says. -/
theorem State.interpret_down (st : State) (limits : Limits) (program : List Stmt) (lines : Nat)
    {table : BindingTable} (h : ∀ id : Nat, table.distance? id = st.table.distance? id) :
    { st with table }.interpret limits (program.map (Stmt.move (.down lines))) =
      (st.interpretMarked limits program).map (settle lines table) := by
  let ρ : Recast := ⟨.settle lines, none, table⟩
  have htask : (Machine.program (program.map (Stmt.move .mark))).recast ρ =
      Machine.program (program.map (Stmt.move (.down lines))) := by
    rw [Machine.program, Task.recast, Machine.recast_sequence ρ rfl, Stmt.map_move_map_move,
      Move.settle_comp_mark]
    rfl
  have hstate : State.recast ρ { st with store := st.store.map (Closure.move .keep) } =
      { st with table } := by
    rw [State.recast, Store.map_map, Closure.move_comp_move, Move.settle_comp_keep,
      Closure.move_still, Store.map_id]
  have hrun : Machine.run limits.calls limits.steps
      ((Machine.program (program.map (Stmt.move .mark))).recast ρ)
      (State.recast ρ { st with store := st.store.map (Closure.move .keep) }) = _ :=
    Machine.run_recast rfl limits.steps fun r => h r.id
  rw [htask, hstate] at hrun
  rw [interpretMarked, interpret, interpret, hrun, Option.map_map, Option.map_map]
  congr 1
  funext r
  obtain ⟨result, st'⟩ := r
  cases result <;> rfl

namespace Session

variable {s s' : Session} {first second : String} {program program' : List Stmt}
  {table table' : BindingTable} {nextId nextId' : NodeId}

/-- What a session comes to when a run ends. -/
def after (nextId : NodeId) (r : Except RuntimeError Unit × State) : Except Failure Unit × Session :=
  (r.1.mapError Failure.ofRuntime, ⟨r.2, nextId⟩)

theorem Accepts.run_eq {source : String} (h : s.Accepts source program table nextId)
    (limits : Limits) :
    s.run limits source =
      ((s.state.learn table).interpret limits program).map (after nextId) := by
  obtain ⟨⟨tokens, hlex, hparse⟩, hresolve⟩ := h
  simp only [Session.run, hlex, hparse, hresolve]
  congr 1
  funext r
  obtain ⟨result, st⟩ := r
  cases result <;> rfl

theorem Accepts.of_run_ok {source : String} {limits : Limits}
    (h : s.Accepts source program table nextId)
    (hrun : s.run limits source = some (.ok (), s')) :
    s'.nextId = nextId ∧ ∃ f, Machine.run limits.calls limits.steps (Machine.program program)
      (s.state.learn table) = some (.ok f, s'.state) := by
  rw [h.run_eq, State.interpret, Option.map_map, Option.map_eq_some_iff] at hrun
  obtain ⟨⟨result, st⟩, hmachine, hend⟩ := hrun
  cases result with
  | ok f =>
    cases hend
    exact ⟨rfl, f, hmachine⟩
  | error e => cases hend

/-- A source that is accepted runs as its marked run says. -/
theorem Accepts.run_eq_settle {source : String} (h : s.Accepts source program table nextId)
    (limits : Limits) :
    s.run limits source = ((s.state.learn table).interpretMarked limits program).map
      (after nextId ∘ State.settle 0 (s.state.table.merge table)) := by
  have hstill : program.map (Stmt.move (.down 0)) = program := Stmt.map_move_still program
  have hrun : (s.state.learn table).interpret limits (program.map (Stmt.move (.down 0))) = _ :=
    State.interpret_down (s.state.learn table) limits program 0 fun _ => rfl
  rw [h.run_eq, ← Option.map_map, ← hstill, hrun, hstill]

/-- A table is about the references of its own program only. -/
theorem Accepts.silent {source : String} (h : s.Accepts source program table nextId)
    (hs : s.Sound) {id : NodeId} (hid : @LT.lt Nat _ id s.nextId ∨ @LE.le Nat _ nextId id) :
    table[id]? = none := by
  obtain ⟨hfresh, -, -, hsilent⟩ := h.visited hs
  refine hsilent id fun hmem => ?_
  obtain ⟨hle, hlt⟩ := hfresh.bounds id hmem
  rcases hid with hid | hid
  · exact Nat.not_lt_of_le hle hid
  · exact Nat.not_lt_of_le hid hlt

/-! ## Rejected sources -/

/-- Whether a stage before it runs rejects a source whose references are numbered from
`firstId` on, and why. -/
inductive Rejects (firstId : NodeId) (source : String) : Failure → Prop
  | lexing {error : LexicalError} (h : (lex source).toExcept = .error error) :
      Rejects firstId source (.ofLexical error)
  | parsing {tokens : List Token} {failure : Failure} {nextId : NodeId}
      (hlex : (lex source).toExcept = .ok tokens)
      (h : parseProgram tokens firstId = (.error failure, nextId)) : Rejects firstId source failure
  | resolving {tokens : List Token} {program : List Stmt} {failure : Failure} {nextId : NodeId}
      (hlex : (lex source).toExcept = .ok tokens)
      (hparse : parseProgram tokens firstId = (.ok program, nextId))
      (h : resolve program = .error failure) : Rejects firstId source failure

theorem Rejects.run_eq {source : String} {failure : Failure}
    (h : Rejects s.nextId source failure) (limits : Limits) :
    ∃ nextId, s.run limits source = some (.error failure, { s with nextId := nextId }) := by
  cases h with
  | lexing h =>
    refine ⟨s.nextId, ?_⟩
    simp only [Session.run, h]
  | @parsing _ _ nextId hlex h =>
    refine ⟨nextId, ?_⟩
    simp only [Session.run, hlex, h]
  | @resolving _ _ _ nextId hlex hparse h =>
    refine ⟨nextId, ?_⟩
    simp only [Session.run, hlex, hparse, h]

/-- Nothing but a running program fails otherwise than by being rejected. -/
theorem rejects_of_isStatic {source : String} {limits : Limits} {failure : Failure}
    (h : s.run limits source = some (.error failure, s')) (hstatic : failure.isStatic = true) :
    Rejects s.nextId source failure := by
  unfold Session.run at h
  split at h
  · rename_i e hlex
    cases h
    exact .lexing hlex
  rename_i tokens hlex
  split at h
  rename_i parsed nextId hparse
  split at h
  · cases h
    exact .parsing hlex hparse
  rename_i program
  split at h
  · rename_i failure' hresolve
    cases h
    exact .resolving hlex hparse hresolve
  · rw [Option.map_eq_some_iff] at h
    obtain ⟨⟨result, st⟩, -, hend⟩ := h
    cases result with
    | ok _ => cases hend
    | error e =>
      cases hend
      cases hstatic

/-- A program breaks the same rules whatever its references are numbered. -/
theorem resolve_renumber {failure : Failure} {shift : Nat}
    (h : resolve (program.map (Stmt.move (.renumber shift))) = .error failure) :
    resolve program = .error failure := by
  have hempty : resolve [] = .ok (BindingTable.addAll ∅ []) := rfl
  cases hresolve : resolve program with
  | ok table =>
    obtain ⟨joint, hjoint, -⟩ :=
      resolve_behind_ok (μ := .renumber shift) hempty trivial List.nodup_nil hresolve
    rw [List.nil_append, h] at hjoint
    cases hjoint
  | error failure' =>
    have herror := resolve_behind_error (μ := .renumber shift) hempty trivial List.nodup_nil hresolve
    rwa [List.nil_append, h, Failure.move_renumber, eq_comm] at herror

/-- A source is rejected for the same reason whatever its references are numbered. -/
theorem Rejects.renumber {firstId : NodeId} {source : String} {failure : Failure}
    (h : Rejects firstId source failure) : Rejects 0 source failure := by
  cases h with
  | lexing h => exact .lexing h
  | @parsing tokens _ nextId hlex h =>
    rw [parseProgram_renumber (ends_of_lex hlex)] at h
    cases hparse : parseProgram tokens 0 with
    | mk parsed last =>
      rw [hparse] at h
      cases parsed with
      | ok program => cases h
      | error failure' =>
        obtain rfl : failure'.move _ = failure := Except.error.inj (Prod.mk.inj h).1
        rw [Failure.move_renumber]
        exact .parsing hlex hparse
  | @resolving tokens program _ nextId hlex hparse h =>
    rw [parseProgram_renumber (ends_of_lex hlex)] at hparse
    cases hparse' : parseProgram tokens 0 with
    | mk parsed last =>
      rw [hparse'] at hparse
      cases parsed with
      | error failure' => cases hparse
      | ok program' =>
        obtain rfl : program'.map _ = program := Except.ok.inj (Prod.mk.inj hparse).1
        exact .resolving hlex hparse' (resolve_renumber h)

/-! ## Both sources at once -/

/-- A source behind another one that is accepted is accepted as it is alone. -/
theorem Accepts.join (h : s.Accepts first program table nextId)
    (h' : Accepts ⟨s'.state, nextId⟩ second program' table' nextId')
    (helse : next (lex second).tokens ≠ .keyword .else) :
    ∃ joint, s.Accepts (first ++ "\n" ++ second)
        (program ++ program'.map (Stmt.move (.down (linesOf first)))) joint nextId' ∧
      ∀ id : Nat, joint[id]? =
        (table'[id]?.map (Binding.move (.down (linesOf first)))).or table[id]? := by
  obtain ⟨⟨tokens, hlex, hparse⟩, hresolve⟩ := h
  obtain ⟨⟨tokens', hlex', hparse'⟩, hresolve'⟩ := h'
  have hspelled := isSpelled_of_parseProgram hlex hparse
  have hnodup := (fresh_of_parseProgram hparse).nodup
  obtain ⟨joint, hjoint, hlookup⟩ :=
    resolve_behind_ok (μ := .down (linesOf first)) hresolve hspelled hnodup hresolve'
  obtain ⟨ts, line, rfl, hbody, hboth⟩ := lex_append hlex second
  refine ⟨joint, ⟨⟨ts ++ tokens'.map (Token.move (.down (linesOf first))), ?_, ?_⟩, hjoint⟩, hlookup⟩
  · rw [hboth, Lexing.toExcept_after_move, hlex']
    rfl
  · have hend : (Token.endOfInput line).isEnd = true := rfl
    rw [Lexing.toExcept_eq_ok hlex'] at helse
    rw [parseProgram_append (μ := .down (linesOf first)) hend hbody hparse (ends_of_lex hlex')
      helse, hparse']
    rfl

/-- A source behind another one that is accepted is rejected as it is alone. -/
theorem Accepts.reject {firstId : NodeId} {failure : Failure}
    (h : s.Accepts first program table nextId)
    (h' : Rejects firstId second failure)
    (helse : next (lex second).tokens ≠ .keyword .else) :
    Rejects s.nextId (first ++ "\n" ++ second) (failure.move (.down (linesOf first))) := by
  obtain ⟨⟨tokens, hlex, hparse⟩, hresolve⟩ := h
  obtain ⟨ts, line, rfl, hbody, hboth⟩ := lex_append hlex second
  -- Alone, the references of the second source are numbered from the start.
  let μ : Move := ⟨fun line => line + linesOf first, nextId⟩
  have hend : (Token.endOfInput line).isEnd = true := rfl
  have hnext : parseProgram (ts ++ [.endOfInput line]) s.nextId = (.ok program, 0 + μ.shift) := by
    rw [hparse, Nat.zero_add]
  have hcut {tokens : List Token} (hlex' : (lex second).toExcept = .ok tokens) :
      (lex (first ++ "\n" ++ second)).toExcept = .ok (ts ++ tokens.map (Token.move μ)) := by
    rw [hboth, Lexing.toExcept_after_move, hlex']
    rfl
  have hread {tokens : List Token} (hlex' : (lex second).toExcept = .ok tokens) :
      parseProgram (ts ++ tokens.map (Token.move μ)) s.nextId =
        (((parseProgram tokens 0).1.map fun ss => program ++ ss.map (Stmt.move μ)).mapError
          (Failure.move μ), (parseProgram tokens 0).2 + μ.shift) := by
    rw [Lexing.toExcept_eq_ok hlex'] at helse
    exact parseProgram_append hend hbody hnext (ends_of_lex hlex') helse
  rw [Failure.move_congr (μ := .down (linesOf first)) (ν := μ) rfl]
  cases h'.renumber with
  | lexing herror =>
    refine .lexing ?_
    rw [hboth, Lexing.toExcept_after_move, herror]
    rfl
  | parsing hlex' herror =>
    apply Rejects.parsing (hcut hlex')
    rw [hread hlex', herror]
    rfl
  | resolving hlex' hparse' herror =>
    refine .resolving (hcut hlex') (by rw [hread hlex', hparse']; rfl)
      (resolve_behind_error hresolve (isSpelled_of_parseProgram hlex hparse)
        (fresh_of_parseProgram hparse).nodup herror)

/-- What is known once both sources are accepted at once is what is known when they are
accepted one after the other, with the second further down. -/
theorem Accepts.downFrom {joint : BindingTable} (hs : s.Sound) (hs' : s'.Sound)
    (h : s.Accepts first program table nextId)
    (h' : s'.Accepts second program' table' nextId') (hnext : s'.nextId = nextId)
    (htable : s'.state.table = s.state.table.merge table) {lines : Nat}
    (hjoint : ∀ id : Nat, joint[id]? =
      (table'[id]?.map (Binding.move (.down lines))).or table[id]?) :
    (s'.state.table.merge table').DownFrom nextId lines (s.state.table.merge joint) := by
  subst hnext
  intro id
  rw [BindingTable.getElem?_merge, BindingTable.getElem?_merge, htable,
    BindingTable.getElem?_merge, hjoint]
  split
  · rename_i hid
    have hold : s.state.table[id]? = none := by
      have hle := (h.visited hs).2.1
      exact Option.map_eq_none_iff.mp (hs.silent id (Nat.le_trans hle hid))
    rw [hold, h.silent hs (.inr hid)]
    simp only [Option.or_none]
  · rename_i hid
    rw [h'.silent hs' (.inl (Nat.lt_of_not_le hid))]
    simp

/-- A program that runs to its end does so in front of other statements, and then these
run in the state that it leaves. -/
theorem Accepts.interpret_append (h : s.Accepts first program table nextId) (hs : s.Sound)
    {calls steps : Nat} {f : Flow} {st : State}
    (hrun : Machine.run calls steps (Machine.program program) (s.state.learn table) =
      some (.ok f, st)) {joint : BindingTable}
    (hjoint : ∀ id : Nat, @LT.lt Nat _ id nextId →
      joint.distance? id = (s.state.table.merge table).distance? id) (tail : List Stmt) :
    ∃ n, ∀ m, { s.state with table := joint }.interpret ⟨calls, n + m⟩ (program ++ tail) =
      { st with table := joint }.interpret ⟨calls, m⟩ tail := by
  let ρ : Recast := ⟨.still, some tail, joint⟩
  have hstate (st : State) : st.recast ρ = { st with table := joint } := by
    have hclosure : ρ.closure = id := Closure.move_still
    rw [State.recast, hclosure, Store.map_id]
  have htask : (Machine.program program).recast ρ = Machine.program (program ++ tail) := by
    have hstill : program.map (Stmt.move .still) = program := Stmt.map_move_still program
    rw [Machine.program, Task.recast, Cont.recast, Recast.sequence, hstill]
    rfl
  have hagrees (id : NodeId) (d : Option Nat)
      (hd : (s.state.table.merge table).known nextId id = some d) : joint.distance? id = d := by
    rw [← BindingTable.distance?_of_known hd]
    apply hjoint
    by_contra hid
    rw [BindingTable.known, if_neg hid] at hd
    cases hd
  obtain ⟨n, hn⟩ := Machine.run_behind (ρ := ρ) rfl (fun _ _ => BindingTable.distance?_of_known)
    hagrees (hs.program h).2 hrun
  refine ⟨n, fun m => ?_⟩
  rw [State.interpret, State.interpret, ← htask, ← hstate st, ← hn m, hstate]
  rfl

/-- Two sources at once, with a line end between them, run as one after the other. If
the second is rejected, be it in another session, then so are both, for the same
reasons further down, and nothing runs. If it is accepted after the first has run to
its end, it does the same in both runs: it ends or goes on for ever, prints, fails, and
leaves behind the same values and numbers, with its own tokens further down when both
sources ran at once. -/
structure RunsAtOnce (s : Session) (first second : String) : Prop where
  rejected (t t' : Session) (limits limits' : Limits) (failure : Failure)
    (h : t.run limits second = some (.error failure, t')) (hstatic : failure.isStatic = true) :
    ∃ nextId, s.run limits' (first ++ "\n" ++ second) =
      some (.error (failure.move (.down (linesOf first))), { s with nextId := nextId })
  accepted (calls steps : Nat) (s' : Session) (program : List Stmt) (table : BindingTable)
    (nextId : NodeId) (h : s.run ⟨calls, steps⟩ first = some (.ok (), s'))
    (haccepts : s'.Accepts second program table nextId) :
    ∃ joint earlier,
      (s'.state.table.merge table).DownFrom s'.nextId (linesOf first) joint ∧
      ∀ later,
        s'.run ⟨calls, later⟩ second =
          ((s'.state.learn table).interpretMarked ⟨calls, later⟩ program).map
            (after nextId ∘ State.settle 0 (s'.state.table.merge table)) ∧
        s.run ⟨calls, earlier + later⟩ (first ++ "\n" ++ second) =
          ((s'.state.learn table).interpretMarked ⟨calls, later⟩ program).map
            (after nextId ∘ State.settle (linesOf first) joint)

theorem batch_runs_as_its_parts (hs : Reachable s) (hfirst : s.Accepts first program table nextId)
    (helse : next (lex second).tokens ≠ .keyword .else) : s.RunsAtOnce first second := by
  constructor
  · intro t t' limits limits' failure ht hstatic
    exact (hfirst.reject (rejects_of_isStatic ht hstatic) helse).run_eq limits'
  · intro calls steps s' program' table' nextId' hrun hsecond
    have hs₁ : s.Sound := hs.sound
    have hs₂ : s'.Sound := hs₁.run hrun
    obtain ⟨rfl, f, hmachine⟩ := hfirst.of_run_ok hrun
    have htable : s'.state.table = s.state.table.merge table :=
      (Machine.run_sound (hs₁.program hfirst).2 hmachine).table
    obtain ⟨joint, hboth, hlookup⟩ := hfirst.join hsecond helse
    have hdown := hfirst.downFrom hs₁ hs₂ hsecond rfl htable hlookup
    have hold (id : Nat) (hid : @LT.lt Nat _ id s'.nextId) :
        (s.state.table.merge joint).distance? id = (s.state.table.merge table).distance? id := by
      have hnone : table'.distance? id = none := by
        rw [BindingTable.distance?, hsecond.silent hs₂ (.inl hid)]
        rfl
      rw [hdown.distance?, htable, BindingTable.distance?_merge_of_none hnone]
    obtain ⟨earlier, hearlier⟩ := hfirst.interpret_append hs₁ hmachine hold
      (program'.map (Stmt.move (.down (linesOf first))))
    refine ⟨s.state.table.merge joint, earlier, hdown, fun later => ⟨?_, ?_⟩⟩
    · exact hsecond.run_eq_settle ⟨calls, later⟩
    · rw [hboth.run_eq, ← Option.map_map]
      apply congrArg (Option.map (after nextId'))
      rw [← State.interpret_down (s'.state.learn table') ⟨calls, later⟩ program' (linesOf first)
        hdown.distance?]
      exact hearlier later

/-- Behind a line that prints, a call of what is no function fails on the second line
and not on the first, and what is no program is rejected on the second line. -/
theorem batch_runs_as_its_parts_print :
    (∃ failure nextId, failure.line? = some 2 ∧
      fresh.run ⟨1, 9⟩ ("print nil;" ++ "\n" ++ "print") =
        some (.error failure, { fresh with nextId := nextId })) ∧
    ∃ s later joint earlier, fresh.run ⟨1, 9⟩ "print nil;" = some (.ok (), s) ∧
      s.run ⟨1, 9⟩ "nil();" =
        some (.error (.ofRuntime ⟨.notCallable, ⟨.symbol .rightParen, ")", 1⟩⟩), later) ∧
      fresh.run ⟨1, earlier + 9⟩ ("print nil;" ++ "\n" ++ "nil();") =
        some (.error (.ofRuntime ⟨.notCallable, ⟨.symbol .rightParen, ")", 2⟩⟩), joint) ∧
      joint.state.output = later.state.output := by
  obtain ⟨first, known, lastId, s, program, table, nextId, st, failure, rejected, hfirst, hrun,
      hsecond, hmarked, hrejected, hstatic, hfailure⟩ :
      ∃ first known lastId s program table nextId st failure rejected,
        fresh.Accepts "print nil;" first known lastId ∧
        fresh.run ⟨1, 9⟩ "print nil;" = some (.ok (), s) ∧
        s.Accepts "nil();" program table nextId ∧
        (s.state.learn table).interpretMarked ⟨1, 9⟩ program =
          some (.error ⟨.notCallable, ⟨.symbol .rightParen, ")", 3⟩⟩, st) ∧
        fresh.run ⟨1, 9⟩ "print" = some (.error failure, rejected) ∧ failure.isStatic = true ∧
        (failure.move (.down (linesOf "print nil;"))).line? = some 2 :=
    ⟨_, _, _, _, _, _, _, _, _, _, ⟨⟨_, by cbv, by cbv⟩, rfl⟩, by cbv, ⟨⟨_, by cbv, by cbv⟩, rfl⟩,
      by cbv, by cbv, by cbv, by cbv⟩
  constructor
  · have hbatch : fresh.RunsAtOnce "print nil;" "print" :=
      batch_runs_as_its_parts .fresh hfirst (by cbv; simp)
    obtain ⟨nextId, h⟩ := hbatch.rejected _ _ _ ⟨1, 9⟩ _ hrejected hstatic
    exact ⟨_, nextId, hfailure, h⟩
  · have hbatch : fresh.RunsAtOnce "print nil;" "nil();" :=
      batch_runs_as_its_parts .fresh hfirst (by cbv; simp)
    obtain ⟨joint, earlier, -, h⟩ := hbatch.accepted 1 9 s program table nextId hrun hsecond
    obtain ⟨hlater, hjoint⟩ := h 9
    have hlines : linesOf "print nil;" = 1 := by cbv
    rw [hmarked] at hlater hjoint
    rw [hlines] at hjoint
    have houtput (lines : Nat) (table : BindingTable) := State.output_settle lines table
      (.error ⟨.notCallable, ⟨.symbol .rightParen, ")", 3⟩⟩, st)
    exact ⟨s, _, _, earlier, hrun, hlater, hjoint, (houtput 1 _).trans (houtput 0 _).symm⟩

end Session

end Lox
