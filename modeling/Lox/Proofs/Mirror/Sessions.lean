import Lox.Proofs.Mirror.Steps
import Lox.Proofs.Scoping.Sessions
import Mathlib

/-!
# Scopes of a run mirror the scopes of the walk

Whenever a machine starts on a node, in whatever run of a session, it is in a
chain of scopes like the one that the walk had open when it visited the node. All
programs that a session has run count, since their functions live on.

## Implementation notes

`Ran` keeps the programs that ran, the latest first. A program that was rejected,
or an expression that was evaluated, leaves no node behind.
-/

namespace Lox

/-! ## States like a visit -/

/-- The scopes around a state are those that were open at a visit: there are as
many of them, the outermost being around none but the globals; each holds the
names that were ready, and only names that its text declares. -/
structure State.Mirrors (st : State) (v : Visit) : Prop where
  depth : st.store.ancestor? st.current v.scopes.length = some Store.globals
  top : st.store.enclosing? Store.globals = none
  texts : v.texts.length = v.scopes.length
  ready (k : Nat) (names : NameMap Bool) (h : v.scopes[k]? = some names) :
    ∃ scope, st.store.ancestor? st.current k = some scope ∧
      ∀ name, names.get? name = some true → (st.store.local? scope name).isSome
  declared (k : Nat) (text : List String) (h : v.texts[k]? = some text) :
    ∃ scope, st.store.ancestor? st.current k = some scope ∧
      ∀ name, (st.store.local? scope name).isSome → name ∈ text

/-- The scopes around a state are those that were open at a visit at this node. If
the node mentions a reference, there is no other visit at it. -/
def State.MirrorsVisit (st : State) (vs : List Visit) (n : Node) : Prop :=
  ∃ v ∈ vs, v.node = n ∧ st.Mirrors v ∧ (n.ids ≠ [] → ∀ v' ∈ vs, v'.node = n → v' = v)

/-- A task that starts on a node does so in scopes like those of a visit at it. -/
def Task.MirrorsVisit {goal : Yield} (vs : List Visit) (st : State) : Task goal → Prop
  | .eval e _ => st.MirrorsVisit vs (.expr e)
  | .exec t _ => st.MirrorsVisit vs (.stmt t)
  | .value _ _ => True
  | .flow _ _ => True

namespace Store

variable {s : Store} {L : Labels} {scope : ScopeRef} {Γ : Scopes} {T : Texts}

/-- The chain of scopes that models a walk has as many links as there are scopes. -/
theorem Models.ancestor? (h : s.Models scope Γ) : s.ancestor? scope Γ.length = some globals := by
  induction Γ generalizing scope with
  | nil =>
    obtain ⟨rfl, -⟩ := h
    rfl
  | cons names Γ ih =>
    obtain ⟨-, outer, houter, hΓ⟩ := h
    rw [List.length_cons, Store.ancestor?, houter]
    exact ih hΓ

theorem Models.ready (h : s.Models scope Γ) {k : Nat} {names : NameMap Bool}
    (hk : Γ[k]? = some names) : ∃ target, s.ancestor? scope k = some target ∧
      ∀ name, names.get? name = some true → (s.local? target name).isSome := by
  induction Γ generalizing scope k with
  | nil => cases hk
  | cons first Γ ih =>
    obtain ⟨hready, outer, houter, hΓ⟩ := h
    cases k with
    | zero =>
      obtain rfl : first = names := Option.some.inj hk
      exact ⟨scope, rfl, hready⟩
    | succ k =>
      obtain ⟨target, htarget, hnames⟩ := ih hΓ hk
      refine ⟨target, ?_, hnames⟩
      rw [Store.ancestor?, houter]
      exact htarget

theorem Labelled.label (h : s.Labelled L scope T) {k : Nat} {text : List String}
    (hk : T[k]? = some text) :
    ∃ target, s.ancestor? scope k = some target ∧ target ≠ globals ∧ L target = text := by
  induction T generalizing scope k with
  | nil => cases hk
  | cons first T ih =>
    obtain ⟨hne, hlabel, outer, houter, hT⟩ := h
    cases k with
    | zero =>
      obtain rfl : first = text := Option.some.inj hk
      exact ⟨scope, rfl, hne, hlabel⟩
    | succ k =>
      obtain ⟨target, htarget, hrest⟩ := ih hT hk
      refine ⟨target, ?_, hrest⟩
      rw [Store.ancestor?, houter]
      exact htarget

/-- There are as many texts as scopes, since nothing is around the globals. -/
theorem Labelled.length_eq (h : s.Labelled L scope T) (hΓ : s.Models scope Γ)
    (htop : s.enclosing? globals = none) : T.length = Γ.length := by
  induction Γ generalizing scope T with
  | nil =>
    obtain ⟨rfl, -⟩ := hΓ
    cases T with
    | nil => rfl
    | cons text T => exact absurd rfl h.1
  | cons names Γ ih =>
    obtain ⟨-, outer, houter, hΓ⟩ := hΓ
    cases T with
    | nil =>
      obtain rfl : scope = globals := h
      rw [htop] at houter
      cases houter
    | cons text T =>
      obtain ⟨-, -, outer', houter', hT⟩ := h
      obtain rfl : outer = outer' := Option.some.inj (houter.symm.trans houter')
      exact congrArg (· + 1) (ih hT hΓ)

end Store

theorem State.AtSpot.mirrors {V : Visit → Prop} {L : Labels} {st : State} {p : Spot}
    (h : st.AtSpot V L p) (n : Node) : st.Mirrors ⟨n, p.names, p.texts⟩ := by
  have hmodels : st.store.Models st.current p.names := h.scope ▸ h.stands.models
  have hlabelled : st.store.Labelled L st.current p.texts := h.scope ▸ h.stands.labelled
  constructor
  · exact hmodels.ancestor?
  · exact h.store.top
  · exact hlabelled.length_eq hmodels h.store.top
  · intro k names hk
    exact hmodels.ready hk
  · intro k text hk
    obtain ⟨scope, hscope, hne, rfl⟩ := hlabelled.label hk
    exact ⟨scope, hscope, fun name => h.store.labelled scope name hne⟩

/-! ## Runs -/

namespace Machine

variable {U V : Visit → Prop} {goal : Yield} {limit : Nat}

theorem keeps_mirrored (hU : ∀ v, V v → U v) :
    Keeps limit (Step.Mirrored U V : Step goal → Prop) :=
  fun _ _ h => step_mirrored hU limit h

/-- A machine that mirrors the walk does so at every moment. -/
theorem Reaches.mirrored (hU : ∀ v, V v → U v) {a b : Task goal × State} (h : Reaches limit a b)
    (ha : Mirrored U V a.1 a.2) : Mirrored U V b.1 b.2 :=
  (keeps_mirrored hU).reaches h ha

/-- A machine that mirrors the walk leaves a mirrored store behind. -/
theorem run_mirrored (hU : ∀ v, V v → U v) {fuel : Nat} {task : Task goal} {st st' : State}
    {result : Except RuntimeError goal.Outcome} (h : Mirrored U V task st)
    (hrun : run limit fuel task st = some (result, st')) : ∃ L, st'.store.Mirrored V L := by
  have hend := (keeps_mirrored hU).run h hrun
  cases result <;> exact hend

/-- A task of a machine that mirrors the walk starts on visited nodes only. -/
theorem Mirrored.mirrorsVisit {vs : List Visit} {task : Task goal} {st : State}
    (h : Mirrored (· ∈ vs) V task st) (hV : ∀ v, V v → v ∈ vs) (hvs : Apart vs) :
    task.MirrorsVisit vs st := by
  obtain ⟨L, p, hspot, htask⟩ := h
  have hstarts {n : Node} (hroot : ⟨n, p.names, p.texts⟩ ∈ vs) : st.MirrorsVisit vs n :=
    ⟨_, hroot, rfl, hspot.mirrors n, fun hids v' hv' heq =>
      (hvs.eq_of_node hroot hv' heq.symm hids).symm⟩
  cases task with
  | eval e k =>
    have hvisited := htask.1
    unfold Expr.Visited at hvisited
    exact hstarts hvisited.1
  | exec t k =>
    have hvisited := htask.1
    unfold Stmt.Visited at hvisited
    exact hstarts (hV _ hvisited.1)
  | value v k => trivial
  | flow f k => trivial

/-- A state between two runs is at the spot that is outside of all scopes. -/
theorem atSpot_globals {L : Labels} {st : State} (h : st.store.Mirrored V L)
    (hscope : st.current = Store.globals) : st.AtSpot V L ⟨Store.globals, [], []⟩ :=
  ⟨h, hscope.symm, ⟨rfl, h.pos⟩, rfl⟩

end Machine

/-! ## Sessions -/

/-- A program that has run, and what was found out about its references. -/
structure Accepted where
  program : List Stmt
  table : BindingTable

namespace Accepted

/-- The numbers of the references in programs. -/
def ids (past : List Accepted) : List NodeId :=
  past.flatMap fun a => Stmt.idsAll a.program

/-- The visits of the walks that bound the references of programs. -/
def visits (past : List Accepted) : List Visit :=
  past.flatMap fun a => programVisits a.program

theorem in_visits (past : List Accepted) :
    ∃ size, AreIn size (ids past) (visits past) := by
  induction past with
  | nil => exact ⟨0, .nil⟩
  | cons a past ih =>
    obtain ⟨size, hpast⟩ := ih
    exact ⟨_, (Stmt.in_visitsAll [] a.program .start).append hpast⟩

end Accepted

namespace Session

/-- The sessions that sources can lead to, with the programs that have run, the
latest first. -/
inductive Ran : List Accepted → Session → Prop
  | fresh : Ran [] .fresh
  | run {past : List Accepted} {s s' : Session} {limits : Limits} {source : String}
      {program : List Stmt} {table : BindingTable} {nextId : NodeId}
      {result : Except Failure Unit} (h : Ran past s)
      (haccepts : s.Accepts source program table nextId)
      (hrun : s.run limits source = some (result, s')) : Ran (⟨program, table⟩ :: past) s'
  | reject {past : List Accepted} {s s' : Session} {limits : Limits} {source : String}
      {result : Except Failure Unit} (h : Ran past s)
      (hrejects : ∀ program table nextId, ¬ s.Accepts source program table nextId)
      (hrun : s.run limits source = some (result, s')) : Ran past s'
  | evaluate {past : List Accepted} {s s' : Session} {limits : Limits} {source : String}
      {result : Except Failure Value} (h : Ran past s)
      (hrun : s.evaluate limits source = some (result, s')) : Ran past s'

/-- Every session that sources can lead to has a past. -/
theorem Reachable.ran {s : Session} (h : Reachable s) : ∃ past, Ran past s := by
  induction h with
  | fresh => exact ⟨[], .fresh⟩
  | @run s s' limits source result _ hrun ih =>
    obtain ⟨past, ih⟩ := ih
    by_cases haccepts : ∃ program table nextId, s.Accepts source program table nextId
    · obtain ⟨program, table, nextId, haccepts⟩ := haccepts
      exact ⟨_, ih.run haccepts hrun⟩
    · exact ⟨past, ih.reject (fun program table nextId h => haccepts ⟨_, _, _, h⟩) hrun⟩
  | evaluate _ hrun ih =>
    obtain ⟨past, ih⟩ := ih
    exact ⟨past, ih.evaluate hrun⟩

variable {past : List Accepted} {s s' : Session} {limits : Limits} {source : String}
  {program : List Stmt} {table : BindingTable} {nextId : NodeId}

theorem Ran.reachable (h : Ran past s) : Reachable s := by
  induction h with
  | fresh => exact .fresh
  | run _ _ hrun ih => exact ih.run hrun
  | reject _ _ hrun ih => exact ih.run hrun
  | evaluate _ hrun ih => exact ih.evaluate hrun

/-- A source that is accepted runs. -/
theorem Accepts.run {result : Except Failure Unit} (h : s.Accepts source program table nextId)
    (hrun : s.run limits source = some (result, s')) :
    ∃ outcome, Machine.run limits.calls limits.steps (Machine.program program)
      (s.state.learn table) = some (outcome, s'.state) ∧ s'.nextId = nextId := by
  obtain ⟨⟨tokens, hlex, hparse⟩, hresolve⟩ := h
  simp only [Session.run, hlex, hparse, hresolve, State.interpret, Option.map_map,
    Option.map_eq_some_iff] at hrun
  obtain ⟨⟨outcome, st⟩, hmachine, hend⟩ := hrun
  refine ⟨outcome, ?_⟩
  cases outcome <;> cases hend <;> exact ⟨hmachine, rfl⟩

/-- What a session keeps of the programs that it has run: their functions are
where they were visited, and their references have numbers of their own, of which
it knows what was found out when they ran. -/
structure Recalls (past : List Accepted) (s : Session) : Prop where
  mirrored : ∃ L, s.state.store.Mirrored (· ∈ Accepted.visits past) L
  fresh : Fresh 0 s.nextId (Accepted.ids past)
  table (a : Accepted) (ha : a ∈ past) (id : NodeId) (hid : id ∈ Stmt.idsAll a.program) :
    s.state.table[id]? = a.table[id]?

/-- The numbers of an accepted program are those given out for it, and the program
was visited outside of all scopes. -/
theorem Accepts.visited (haccepts : s.Accepts source program table nextId) (hs : s.Sound) :
    Fresh s.nextId nextId (Stmt.idsAll program) ∧ @LE.le Nat _ s.nextId nextId ∧
      Stmt.AreVisited (· ∈ programVisits program) [] [] program ∧
      ∀ id, id ∉ Stmt.idsAll program → table[id]? = none := by
  obtain ⟨⟨tokens, hlex, hparse⟩, hresolve⟩ := haccepts
  have hle : @LE.le Nat _ s.nextId nextId := le_of_parseProgram hparse
  have hscoped := (hs.silent.program hlex hparse hresolve).2
  have hfresh := fresh_of_parseProgram hparse
  refine ⟨hfresh, hle, ?_, fun id hid => ?_⟩
  · exact Stmt.areVisited_of_visits program (w := .start) hscoped (by simp [Texts.Has])
      fun v hv => hv
  · have hnone := (Stmt.areScoped_of_resolve hresolve (isSpelled_of_parseProgram hlex hparse)
      hfresh.nodup).2 id hid
    simpa [BindingTable.distance?] using hnone

namespace Recalls

theorem of_fresh : Recalls [] Session.fresh where
  mirrored := by
    have hlocal (scope : ScopeRef) (name : String) : Store.initial.local? scope name = none := by
      cases scope <;> rfl
    refine ⟨fun _ => [], ?_⟩
    constructor
    · intro scope name v hv
      cases (hlocal scope name).symm.trans hv
    · intro object name v hv
      cases hv
    · intro object c hc
      cases hc
    · intro scope name _ hv
      change (Store.initial.local? scope name).isSome at hv
      rw [hlocal] at hv
      cases hv
    · rfl
    · exact Nat.zero_lt_one
  fresh := .nil
  table a ha := by cases ha

/-- Numbers may be given out without a use. -/
theorem advance (h : Recalls past s) (hid : @LE.le Nat _ s.nextId nextId) :
    Recalls past { s with nextId } :=
  ⟨h.mirrored, h.fresh.weaken (Nat.le_refl _) hid, h.table⟩

/-- The state may become another with the same table. -/
theorem change {st : State} (h : Recalls past s)
    (hstore : ∃ L, st.store.Mirrored (· ∈ Accepted.visits past) L)
    (htable : st.table = s.state.table) : Recalls past { s with state := st } :=
  ⟨hstore, h.fresh, htable ▸ h.table⟩

/-- The state learns the table of an accepted program. -/
theorem accept (h : Recalls past s) (hs : s.Sound)
    (haccepts : s.Accepts source program table nextId) :
    Recalls (⟨program, table⟩ :: past) ⟨s.state.learn table, nextId⟩ := by
  obtain ⟨hfresh, hle, -, hsilent⟩ := haccepts.visited hs
  constructor
  · obtain ⟨L, hstore⟩ := h.mirrored
    exact ⟨L, hstore.mono fun v hv => List.mem_append_right _ hv⟩
  · exact (h.fresh.append hfresh (Nat.zero_le _) hle).append_comm
  · intro a ha id hid
    change (s.state.table.merge table)[id]? = a.table[id]?
    rw [BindingTable.getElem?_merge]
    rcases List.mem_cons.mp ha with rfl | ha
    · have hold : s.state.table[id]? = none :=
        Option.map_eq_none_iff.mp (hs.silent id (hfresh.bounds id hid).1)
      rw [hold, Option.or_none]
    · have hlt : id < s.nextId := (h.fresh.bounds id (List.mem_flatMap.mpr ⟨a, ha, hid⟩)).2
      have hnew : id ∉ Stmt.idsAll program :=
        fun hmem => Nat.not_lt_of_le (hfresh.bounds id hmem).1 hlt
      rw [hsilent id hnew, Option.none_or, h.table a ha id hid]

/-- Where a program starts, nothing mirrors the walk but its own statements. -/
theorem mirrored_program {a : Accepted} (h : Recalls (a :: past) s)
    (hscope : s.state.current = Store.globals)
    (hvisited : Stmt.AreVisited (· ∈ programVisits a.program) [] [] a.program) :
    Machine.Mirrored (· ∈ Accepted.visits (a :: past)) (· ∈ Accepted.visits (a :: past))
      (Machine.program a.program) s.state := by
  obtain ⟨L, hstore⟩ := h.mirrored
  exact ⟨L, _, Machine.atSpot_globals hstore hscope, trivial,
    hvisited.mono fun v hv => List.mem_append_left _ hv, fun _ => trivial⟩

/-- The machine that evaluates an expression mirrors the walk, if the expression
counts as visited outside of all scopes. -/
theorem mirrored_expression (h : Recalls past s) (hscope : s.state.current = Store.globals)
    (e : Expr) :
    Machine.Mirrored (· ∈ Accepted.visits past ++ e.visits [] .start)
      (· ∈ Accepted.visits past) (Machine.expression e) s.state := by
  obtain ⟨L, hstore⟩ := h.mirrored
  have hvisited : e.Visited (· ∈ Accepted.visits past ++ e.visits [] .start) [] [] :=
    Expr.visited_of_visits (T := []) (w := .start) e fun v hv => List.mem_append_right _ hv
  exact ⟨L, _, Machine.atSpot_globals hstore hscope, hvisited, trivial⟩

end Recalls

theorem Recalls.accepted (h : Recalls past s) (hs : s.Sound)
    (haccepts : s.Accepts source program table nextId) :
    Machine.Mirrored (· ∈ Accepted.visits (⟨program, table⟩ :: past))
      (· ∈ Accepted.visits (⟨program, table⟩ :: past)) (Machine.program program)
      (s.state.learn table) :=
  (h.accept hs haccepts).mirrored_program hs.state.scope (haccepts.visited hs).2.2.1

/-- Every session recalls its past. -/
theorem Ran.recalls (h : Ran past s) : Recalls past s := by
  induction h with
  | fresh => exact .of_fresh
  | @run past s s' limits source program table nextId result hran haccepts hrun ih =>
    have hs : s.Sound := hran.reachable.sound
    obtain ⟨outcome, hmachine, rfl⟩ := haccepts.run hrun
    have hend := Machine.run_sound (hs.program haccepts).2 hmachine
    exact (ih.accept hs haccepts).change
      (Machine.run_mirrored (fun _ => id) (ih.accepted hs haccepts) hmachine) hend.table
  | @reject past s s' limits source result hran hrejects hrun ih =>
    obtain ⟨nextId, hid, rfl⟩ | ⟨program, table, nextId, outcome, haccepts, -⟩ := run_cases hrun
    · exact ih.advance hid
    · exact absurd haccepts (hrejects _ _ _)
  | @evaluate past s s' limits source result hran hrun ih =>
    have hs : s.Sound := hran.reachable.sound
    obtain ⟨nextId, hid, rfl⟩ | ⟨tokens, e, nextId, outcome, hlex, hparse, hmachine, rfl, -⟩ :=
      evaluate_cases hrun
    · exact ih.advance hid
    · obtain ⟨haccepts, hscoped⟩ := hs.silent.expression hlex hparse
      have hend := Machine.run_sound
        (Machine.expression_sound (hs.accept haccepts) hscoped) hmachine
      have hle : @LE.le Nat _ s.nextId s'.nextId := le_of_parseExpression hparse
      exact (ih.advance hle).change
        (Machine.run_mirrored (fun v hv => List.mem_append_left _ hv)
          (ih.mirrored_expression hs.state.scope e) hmachine) hend.table

theorem Recalls.apart (h : Recalls past s) : Apart (Accepted.visits past) := by
  obtain ⟨_, hvisits⟩ := Accepted.in_visits past
  exact hvisits.apart h.fresh.nodup

/-- An expression that a session evaluates has references of its own. -/
theorem Recalls.apart_expression {tokens : List Token} {e : Expr} (h : Recalls past s)
    (hparse : parseExpression tokens s.nextId = (.ok e, nextId)) :
    Apart (Accepted.visits past ++ e.visits [] .start) := by
  obtain ⟨_, hvisits⟩ := Accepted.in_visits past
  have hfresh := h.fresh.append (fresh_of_parseExpression hparse) (Nat.zero_le _)
    (le_of_parseExpression hparse)
  exact (hvisits.append (Expr.in_visits [] e .start)).apart hfresh.nodup

/-- Whenever a program starts on a node, be it of its own or of a function of an
earlier program, it does so in a chain of scopes like the one that the walk had
open at that node. So does an expression that is evaluated, whose own nodes are
outside of all scopes. -/
theorem nodes_start_in_their_scopes (h : Ran past s) (limit : Nat) :
    (∀ source program table nextId task st, s.Accepts source program table nextId →
      Machine.Reaches limit (Machine.program program, s.state.learn table) (task, st) →
      task.MirrorsVisit (Accepted.visits (⟨program, table⟩ :: past)) st) ∧
    ∀ source tokens e nextId task st, (lex source).toExcept = .ok tokens →
      parseExpression tokens s.nextId = (.ok e, nextId) →
      Machine.Reaches limit (Machine.expression e, s.state) (task, st) →
      task.MirrorsVisit (Accepted.visits past ++ e.visits [] .start) st := by
  have hs : s.Sound := h.reachable.sound
  constructor
  · intro source program table nextId task st haccepts hreaches
    have hmirrored := hreaches.mirrored (fun _ => id) (h.recalls.accepted hs haccepts)
    exact hmirrored.mirrorsVisit (fun _ => id) (h.recalls.accept hs haccepts).apart
  · intro source tokens e nextId task st _ hparse hreaches
    have hmirrored := hreaches.mirrored (fun v hv => List.mem_append_left _ hv)
      (h.recalls.mirrored_expression hs.state.scope e)
    exact hmirrored.mirrorsVisit (fun v hv => List.mem_append_left _ hv)
      (h.recalls.apart_expression hparse)

/-- A function of an earlier source prints its parameter. -/
theorem nodes_start_in_their_scopes_parameter : ∃ past s program table nextId target k st,
    Ran past s ∧ past.length = 1 ∧ s.Accepts "f(nil);" program table nextId ∧
      Machine.Reaches 1 (Machine.program program, s.state.learn table)
        (.eval (.variable target) k, st) ∧
      st.table.distance? target.id = some 0 ∧
      (Task.eval (.variable target) k).MirrorsVisit
        (Accepted.visits (⟨program, table⟩ :: past)) st := by
  obtain ⟨function, known, lastId, s, program, table, nextId, target, k, st, hfunction, hrun,
      haccepts, hreaches, hdistance⟩ :
      ∃ function known lastId s program table nextId target k st,
        fresh.Accepts "fun f(a) \x7b print a; \x7d" function known lastId ∧
        fresh.run ⟨1, 9⟩ "fun f(a) \x7b print a; \x7d" = some (.ok (), s) ∧
        s.Accepts "f(nil);" program table nextId ∧
        Machine.Reaches 1 (Machine.program program, s.state.learn table)
          (.eval (.variable target) k, st) ∧ st.table.distance? target.id = some 0 :=
    ⟨_, _, _, _, _, _, _, _, _, _, ⟨⟨_, by cbv, by cbv⟩, rfl⟩, by cbv, ⟨⟨_, by cbv, by cbv⟩, rfl⟩,
      .of_stepFor (n := 9) rfl, by decide⟩
  have hran : Ran [⟨function, known⟩] s := .run .fresh hfunction hrun
  exact ⟨_, s, program, table, nextId, target, k, st, hran, rfl, haccepts, hreaches, hdistance,
    (nodes_start_in_their_scopes hran 1).1 _ _ _ _ _ _ haccepts hreaches⟩

end Session

end Lox
