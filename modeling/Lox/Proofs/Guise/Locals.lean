import Mathlib
import Lox.Proofs.Guise.Renamed
import Lox.Proofs.Guise.Runs
import Lox.Proofs.Guise.Walks

/-!
# Local variables may be renamed

What a local variable or a parameter is called makes no difference. Under another name,
which is nowhere else in the program, its references are bound as before, and the program
does in every session what it would have done, except that it names the variable by its
new name if it finds it undefined.
-/

namespace Lox

/-- Whether two runs have printed the same, and have both ended well or for the same cause
on the same line, where the second may find `y` undefined if the first does so of `x`. -/
inductive EndsAlike (x y : String) :
    Except RuntimeError Unit × State → Except RuntimeError Unit × State → Prop
  | ok {st st' : State} (houtput : st'.output = st.output) :
      EndsAlike x y (.ok (), st) (.ok (), st')
  | error {e e' : RuntimeError} {st st' : State} (hline : e'.token.line = e.token.line)
      (hcause : e'.cause = e.cause ∨
        e.cause = .undefinedVariable x ∧ e'.cause = .undefinedVariable y)
      (houtput : st'.output = st.output) : EndsAlike x y (.error e, st) (.error e', st')

namespace Guise

variable {G : Guise}

theorem Spells.line {t t' : Token} (h : G.Spells t t') : t'.line = t.line := by
  cases h <;> rfl

theorem Ends.endsAlike {result result' : Except RuntimeError Flow} {st st' : State}
    (h : G.Ends result result') (houtput : st'.output = st.output) :
    EndsAlike G.old G.new (result.map fun _ => (), st) (result'.map fun _ => (), st') := by
  cases h with
  | ok => exact .ok houtput
  | error he =>
    cases he with
    | blamed cause ht => exact .error ht.line (.inl rfl) houtput
    | undefined ht =>
      refine .error ht.line ?_ houtput
      cases ht with
      | same => exact .inl rfl
      | changed hold => exact .inr ⟨congrArg RuntimeCause.undefinedVariable hold, rfl⟩

end Guise

namespace BindingTable

theorem distance?_merge {older newer : BindingTable} {id : NodeId} :
    (older.merge newer).distance? id = (newer.distance? id).or (older.distance? id) := by
  rw [distance?, getElem?_merge, distance?, distance?]
  cases newer[id]? <;> rfl

/-- What is known from a table of some references, whatever their numbers are. -/
def knownOf (table : BindingTable) (ids : List NodeId) : Known := fun id =>
  if id ∈ ids then some (table.distance? id) else none

theorem of_knownOf {table : BindingTable} {ids : List NodeId} {id : NodeId} {d : Option Nat}
    (h : table.knownOf ids id = some d) : id ∈ ids ∧ table.distance? id = d := by
  unfold knownOf at h
  split at h
  next hid => exact ⟨hid, Option.some.inj h⟩
  · cases h

end BindingTable

/-- A program that runs alike ends alike. -/
theorem State.interpret_rel {G : Guise} {st st' : State} {program program' : List Stmt}
    {limits : Limits}
    (h : Option.Rel (fun r r' => G.Ends r.1 r'.1 ∧ r'.2.output = r.2.output)
      (Machine.run limits.calls limits.steps (Machine.program program) st)
      (Machine.run limits.calls limits.steps (Machine.program program') st')) :
    Option.Rel (EndsAlike G.old G.new) (st.interpret limits program)
      (st'.interpret limits program') := by
  rw [st.interpret_eq_run, st'.interpret_eq_run]
  generalize Machine.run _ _ _ st = r at h ⊢
  generalize Machine.run _ _ _ st' = r' at h ⊢
  cases h with
  | none => exact .none
  | some h => exact .some (h.1.endsAlike h.2)

namespace Session

variable {s : Session} {source : String} {program program' : List Stmt} {table : BindingTable}
  {nextId : NodeId} {x y : String}

/-- The names that a program has been found to be bound to, by its own references alone. -/
theorem Accepts.scoped (h : s.Accepts source program table nextId) :
    Stmt.AreScoped (table.knownOf (Stmt.idsAll program)) [] .none program ∧
      ∀ id, id ∉ Stmt.idsAll program → table.distance? id = none := by
  obtain ⟨⟨tokens, hlex, hparse⟩, hresolve⟩ := h
  obtain ⟨hscoped, hsilent⟩ := Stmt.areScoped_of_resolve hresolve
    (isSpelled_of_parseProgram hlex hparse) (fresh_of_parseProgram hparse).nodup
  exact ⟨hscoped _ fun id hid => if_pos hid, hsilent⟩

/-- A renamed program is accepted, with the same distances. -/
theorem Accepts.renamed (h : s.Accepts source program table nextId)
    (hrenames : Stmt.RenamesOne table x y program program') (hy : ∀ k : Keyword, k.text ≠ y)
    (hfresh : Avoids y (Stmt.variablesAll program) (Stmt.declarationsAll program)) :
    ∃ table', resolve program' = .ok table' ∧
      ∀ id, table'.distance? id = table.distance? id := by
  obtain ⟨hscoped, hsilent⟩ := h.scoped
  have hx := hrenames.isName hscoped
  let G : Guise := ⟨x, y, table.distance?, table.distance?, false, hx, hy⟩
  have hknown (id : NodeId) (d : Option Nat)
      (hd : table.knownOf (Stmt.idsAll program) id = some d) : table.distance? id = d :=
    (BindingTable.of_knownOf hd).2
  have hrebinds : G.Rebinds table _ := ⟨hknown, hknown, hknown, rfl⟩
  obtain ⟨table', hresolve', hsome, hids⟩ := resolve_alike ⟨hknown, rfl⟩ h.resolved
    (hrenames.alike hrebinds hscoped hfresh) hscoped hfresh
  refine ⟨table', hresolve', fun id => ?_⟩
  by_cases hid : id ∈ Stmt.idsAll program
  · exact hids id (hrenames.idsAll ▸ hid)
  · rw [hsilent id hid]
    cases hd : table'.distance? id with
    | none => rfl
    | some d => exact absurd ((hsome id d hd).symm.trans (hsilent id hid)) nofun

/-- In every session the machines of both programs are alike. -/
theorem renamed_machines_alike (hs : s.Reachable) (h : s.Accepts source program table nextId)
    (hrenames : Stmt.RenamesOne table x y program program') (hy : ∀ k : Keyword, k.text ≠ y)
    (hfresh : Avoids y (Stmt.variablesAll program) (Stmt.declarationsAll program))
    {table' : BindingTable} (htable : ∀ id, table'.distance? id = table.distance? id) :
    ∃ G : Guise, G.old = x ∧ G.new = y ∧ G.wrapped = false ∧
      Machine.Alike G (Machine.program program) (s.state.learn table)
        (Machine.program program') (s.state.learn table') := by
  obtain ⟨hscoped, hsilent⟩ := h.scoped
  have hx := hrenames.isName hscoped
  obtain ⟨⟨tokens, hlex, hparse⟩, hresolve⟩ := h
  have hgrows := (hs.sound.silent.program hlex hparse hresolve).1.grows
  let G : Guise := ⟨x, y, (s.state.table.merge table).distance?,
    (s.state.table.merge table).distance?, false, hx, hy⟩
  -- The session knew nothing of the references of the program.
  have hknown (id : NodeId) (d : Option Nat)
      (hd : table.knownOf (Stmt.idsAll program) id = some d) :
      (s.state.table.merge table).distance? id = d := by
    obtain ⟨hid, hd⟩ := BindingTable.of_knownOf hd
    have hsilent := hs.sound.silent id ((fresh_of_parseProgram hparse).bounds id hid).1
    rw [BindingTable.distance?_merge_of_none_left hsilent, hd]
  have hold (id : NodeId) (d : Option Nat) (hd : s.state.table.known s.nextId id = some d) :
      (s.state.table.merge table).distance? id = d :=
    BindingTable.distance?_of_known (hgrows id d hd)
  have hrebinds : G.Rebinds table _ :=
    ⟨hknown, hknown, fun _ _ hd => (BindingTable.of_knownOf hd).2, rfl⟩
  have hmerged (id : NodeId) :
      (s.state.table.merge table').distance? id = (s.state.table.merge table).distance? id := by
    rw [BindingTable.distance?_merge, BindingTable.distance?_merge, htable]
  exact ⟨G, rfl, rfl, rfl, Machine.program_alike
    (hs.alike (G := G) rfl ⟨hold, hold⟩ (fun _ => rfl) hmerged)
    (hrenames.alike hrebinds hscoped hfresh)⟩

/-- A local variable or a parameter may get any name that is no keyword and nowhere in the
program. The program is accepted under the same numbers and with the same distances, and
in every session it prints the same and ends in the same way, if it ends. -/
theorem locals_may_be_renamed (hs : s.Reachable) (h : s.Accepts source program table nextId)
    (hrenames : Stmt.RenamesOne table x y program program') (hy : ∀ k : Keyword, k.text ≠ y)
    (hfresh : Avoids y (Stmt.variablesAll program) (Stmt.declarationsAll program)) :
    Stmt.idsAll program' = Stmt.idsAll program ∧
    ∃ table', resolve program' = .ok table' ∧ (∀ id, table'.distance? id = table.distance? id) ∧
      (∀ limits, Option.Rel (EndsAlike x y) ((s.state.learn table).interpret limits program)
        ((s.state.learn table').interpret limits program')) ∧
      ∀ calls n task st, Machine.stepFor calls n (Machine.program program)
          (s.state.learn table) = some (task, st) →
        ∃ task' st', Machine.stepFor calls n (Machine.program program')
            (s.state.learn table') = some (task', st') ∧ st'.output = st.output := by
  obtain ⟨table', hresolve', htable⟩ := h.renamed hrenames hy hfresh
  obtain ⟨G, rfl, rfl, hwrapped, halike⟩ :=
    renamed_machines_alike hs h hrenames hy hfresh htable
  obtain ⟨-, hsound⟩ := hs.sound.program h
  refine ⟨hrenames.idsAll, table', hresolve', htable, fun limits => ?_,
    fun calls n task st hsteps => ?_⟩
  · exact State.interpret_rel (Machine.run_rel hwrapped hsound halike)
  · obtain ⟨⟨task', st'⟩, hsteps', M, K, hstate, -⟩ :=
      Machine.stepFor_alike hsound halike hsteps
    exact ⟨task', st', hsteps', hstate.output⟩

/-- A function finds the variable that it has captured by the new name, and the variable
that it declares itself keeps its name. -/
theorem locals_may_be_renamed_captured :
    ∃ program program' table table' nextId,
      fresh.Accepts "\x7b var a; fun f(b) \x7b print a; var a; \x7d f(a); \x7d"
        program table nextId ∧
      fresh.Accepts "\x7b var c; fun f(b) \x7b print c; var a; \x7d f(c); \x7d"
        program' table' nextId ∧
      (∀ id, table'.distance? id = table.distance? id) ∧
      ∀ limits, Option.Rel (EndsAlike "a" "c") ((fresh.state.learn table).interpret limits program)
        ((fresh.state.learn table').interpret limits program') := by
  obtain ⟨program, program', table, table', nextId, h, hrenames, hfresh, h'⟩ :
      ∃ program program' table table' nextId,
        fresh.Accepts "\x7b var a; fun f(b) \x7b print a; var a; \x7d f(a); \x7d"
          program table nextId ∧
        Stmt.RenamesOne table "a" "c" program program' ∧
        Avoids "c" (Stmt.variablesAll program) (Stmt.declarationsAll program) ∧
        fresh.Accepts "\x7b var c; fun f(b) \x7b print c; var a; \x7d f(c); \x7d"
          program' table' nextId :=
    ⟨_, _, _, _, _, ⟨⟨_, by cbv, by cbv⟩, rfl⟩,
      .head (.block (@Stmt.RenamesVariable.of _ _ _ [] ⟨.identifier, "a", 1⟩ rfl none _)) [],
      ⟨by decide, by decide⟩, ⟨_, by cbv, by cbv⟩, rfl⟩
  obtain ⟨-, table'', hresolve', hdistance, hrun, -⟩ :=
    locals_may_be_renamed .fresh h hrenames (fun k => by cases k <;> decide) hfresh
  cases h'.resolved.symm.trans hresolve'
  exact ⟨program, program', table, table', nextId, h, h', hdistance, hrun⟩

end Session

end Lox
