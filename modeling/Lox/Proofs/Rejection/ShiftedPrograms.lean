import Lox.Proofs.Recursion.Termination
import Lox.Proofs.Rejection.RenumberedSessions

/-!
# Numbers are only names

The number that the first reference of a source gets decides the numbers of all others
and nothing else: what is read, why it is rejected, how names are bound, and what a
run prints and how it ends are the same from any number on.

## Implementation notes

A list of tokens need not have an end here. It is read as if it had one, so what is
known of sources, which always have one, carries over.
-/

namespace Lox

/-! ## Reading -/

section

variable (tokens : List Token) (firstId : NodeId)

theorem exists_isEnd_upToEnd : ∃ t ∈ upToEnd tokens, t.isEnd = true := by
  induction tokens with
  | nil => exact ⟨.endOfInput 0, List.mem_singleton_self _, rfl⟩
  | cons t ts ih =>
    rw [upToEnd]
    split
    · rename_i ht
      exact ⟨t, List.mem_singleton_self t, ht⟩
    · obtain ⟨t', ht', hend⟩ := ih
      exact ⟨t', List.mem_cons_of_mem t ht', hend⟩

/-- What is read does not depend on the first number, but for the numbers in it. -/
theorem parseProgram_from : parseProgram tokens firstId =
    ((parseProgram tokens 0).1.map (List.map (Stmt.renumber (· + firstId))),
      (parseProgram tokens 0).2 + firstId) := by
  have hends (k : NodeId) : parseProgram tokens k = parseProgram (upToEnd tokens) k :=
    Traced.program_readsAll.run_eq (upToEnd_upToEnd tokens).symm k
  rw [hends, hends, parseProgram_renumber (exists_isEnd_upToEnd tokens), Parser.moveAnswer]
  cases (parseProgram (upToEnd tokens) 0).1 with
  | error failure =>
    simp only [Except.map, Except.mapError, Failure.move_renumber]
    rfl
  | ok program =>
    simp only [Except.map, Except.mapError, ← Stmt.moveAll_eq_map, ← Stmt.renumberAll_eq_map,
      Stmt.renumberAll_eq_moveAll (φ := (· + firstId)) fun _ _ => rfl]
    rfl

theorem parseExpression_from : parseExpression tokens firstId =
    ((parseExpression tokens 0).1.map (Expr.renumber (· + firstId)),
      (parseExpression tokens 0).2 + firstId) := by
  have hends (k : NodeId) : parseExpression tokens k = parseExpression (upToEnd tokens) k :=
    Traced.wholeExpression_readsAll.run_eq (upToEnd_upToEnd tokens).symm k
  have hshift := parseExpression_shift (exists_isEnd_upToEnd tokens) 0 firstId
  rw [Nat.zero_add] at hshift
  rw [hends, hends, hshift, Parser.moveAnswer]
  cases (parseExpression (upToEnd tokens) 0).1 with
  | error failure =>
    simp only [Except.map, Except.mapError, Failure.move_renumber]
    rfl
  | ok e =>
    simp only [Except.map, Except.mapError,
      Expr.renumber_eq_move (φ := (· + firstId)) fun _ _ => rfl]
    rfl

end

/-! ## Binding names -/

/-- Whether a table has the entries of another one under greater numbers, and no other
entries. -/
def BindingTable.IsShifted (shift : Nat) (table table' : BindingTable) : Prop :=
  ∀ id : Nat, table'[id]? = if shift ≤ id then table[id - shift]? else none

section

variable {shift : Nat} {program : List Stmt} {table table' : BindingTable}

theorem lookup_map_entry_of_lt {id : Nat} (h : id < shift) (entries : List (NodeId × Binding)) :
    (entries.map (Move.renumber shift).entry).lookup id = none := by
  rw [List.lookup_eq_none_iff]
  intro e he
  obtain ⟨e', -, rfl⟩ := List.mem_map.mp he
  rw [bne_iff_ne]
  exact Nat.ne_of_lt (Nat.lt_of_lt_of_le h (Nat.le_add_left shift e'.1))

theorem Stmt.map_renumber_shift (program : List Stmt) (shift : Nat) :
    program.map (Stmt.renumber (· + shift)) = program.map (Stmt.move (.renumber shift)) := by
  rw [← Stmt.moveAll_eq_map, ← Stmt.renumberAll_eq_map,
    Stmt.renumberAll_eq_moveAll fun _ _ => rfl]

/-- A program with greater numbers is bound in the same way, with greater numbers. -/
theorem resolve_renumber (h : resolve program = .ok table) :
    ∃ table', resolve (program.map (Stmt.renumber (· + shift))) = .ok table' ∧
      table.IsShifted shift table' := by
  have hempty : resolve [] = .ok ∅ := rfl
  rw [Stmt.map_renumber_shift]
  obtain ⟨table', htable', hlookup⟩ :=
    resolve_behind_ok (μ := .renumber shift) hempty trivial List.nodup_nil h
  refine ⟨table', htable', fun id => ?_⟩
  split
  · rename_i hle
    have hid := hlookup (id - shift)
    change table'[id - shift + shift]? = _ at hid
    rw [Nat.sub_add_cancel hle] at hid
    rw [hid]
    cases table[id - shift]? with
    | none => exact Std.TreeMap.getElem?_emptyc
    | some b => rfl
  · rename_i hlt
    obtain ⟨-, rfl⟩ := walkAll_of_resolve htable'
    rw [BindingTable.getElem?_addAll, walkAll_behind hempty trivial List.nodup_nil,
      List.reverse_reverse]
    change (((Stmt.walkAll program .start).found.map _ ++ []).lookup id).or _ = none
    rw [List.append_nil, lookup_map_entry_of_lt (Nat.lt_of_not_le hlt)]
    exact Std.TreeMap.getElem?_emptyc

/-- What is known of references does not depend on their numbers. -/
theorem BindingTable.IsShifted.agrees (h : table.IsShifted shift table') :
    Renumbering.Agrees ⟨(· + shift), (State.initial.learn table').table⟩
      (State.initial.learn table).table := by
  intro id
  have hid := h (id + shift)
  rw [if_pos (Nat.le_add_left shift id), Nat.add_sub_cancel] at hid
  have hlearn (table : BindingTable) (id : Nat) :
      (State.initial.learn table).table.distance? id = table.distance? id :=
    BindingTable.distance?_merge_of_none_left rfl
  change (State.initial.learn table').table.distance? (id + shift) = _
  rw [hlearn, hlearn, BindingTable.distance?, hid, BindingTable.distance?]

/-! ## Runs -/

/-- A state without functions has no numbers but those of its table. -/
theorem State.renumber_initial_learn (φ : NodeId → NodeId) (table table' : BindingTable) :
    (State.initial.learn table).renumber ⟨φ, (State.initial.learn table').table⟩ =
      State.initial.learn table' := by
  have hstore : Store.initial.map (Closure.renumber φ) = Store.initial := by
    simp [Store.initial, Store.map, Scope.map, NameMap.map_empty]
  rw [State.renumber]
  exact congrArg (fun store => { State.initial.learn table' with store }) hstore

/-- Whether a program means the same with greater numbers: it breaks the same rules, or
its names are bound alike and it prints and ends alike. -/
structure MeansAlike (shift : Nat) (program : List Stmt) : Prop where
  rejected (failure : Failure) (h : resolve program = .error failure) :
    resolve (program.map (Stmt.renumber (· + shift))) = .error failure
  accepted (table : BindingTable) (h : resolve program = .ok table) :
    ∃ table', resolve (program.map (Stmt.renumber (· + shift))) = .ok table' ∧
      table.IsShifted shift table' ∧ ∀ limits : Limits,
        ((State.initial.learn table').interpret limits
            (program.map (Stmt.renumber (· + shift)))).map (fun r => (r.1, r.2.output)) =
          ((State.initial.learn table).interpret limits program).map fun r => (r.1, r.2.output)

theorem meansAlike (shift : Nat) (program : List Stmt) : MeansAlike shift program := by
  constructor
  · intro failure h
    rw [Stmt.map_renumber_shift]
    exact resolve_shift_error shift h
  · intro table h
    obtain ⟨table', htable', hshifted⟩ :
        ∃ table', resolve (program.map (Stmt.renumber (· + shift))) = .ok table' ∧
          table.IsShifted shift table' := resolve_renumber h
    refine ⟨table', htable', hshifted, fun limits => ?_⟩
    have hrun := State.interpret_renumber limits program hshifted.agrees
    rw [State.renumber_initial_learn] at hrun
    rw [hrun, Option.map_map]
    rfl

/-- An expression prints and ends alike with greater numbers. -/
theorem State.evaluate_initial_renumber (shift : Nat) (e : Expr) (limits : Limits) :
    (State.initial.evaluate limits (e.renumber (· + shift))).map
        (fun r => (r.1.map r.2.store.display, r.2.output)) =
      (State.initial.evaluate limits e).map fun r => (r.1.map r.2.store.display, r.2.output) := by
  have hagrees : Renumbering.Agrees ⟨(· + shift), ∅⟩ State.initial.table := fun _ => rfl
  have hinitial : State.initial.renumber ⟨(· + shift), ∅⟩ = State.initial :=
    State.renumber_initial_learn (· + shift) ∅ ∅
  have heval := State.evaluate_renumber limits e hagrees
  rw [hinitial] at heval
  rw [heval, Option.map_map]
  congr 1
  funext ⟨result, st⟩
  cases result with
  | error e => rfl
  | ok v =>
    have hkeeps := (FunctionDecl.keeps_renumber (· + shift)).closure
    exact congrArg (fun text => (Except.ok text, st.output)) (st.store.display_map hkeeps v)

end

/-! ## Numbers -/

/-- The numbers in a tree are distinct and are those that were given out for it. From
any first number on the same is read, or rejected for the same reasons, with as many
numbers, and it means the same. -/
structure NumbersOnlyName (tokens : List Token) (firstId : NodeId) : Prop where
  programIds (program : List Stmt) (nextId : NodeId)
    (h : parseProgram tokens firstId = (.ok program, nextId)) :
    Fresh firstId nextId (Stmt.idsAll program)
  expressionIds (e : Expr) (nextId : NodeId)
    (h : parseExpression tokens firstId = (.ok e, nextId)) : Fresh firstId nextId e.ids
  program : parseProgram tokens firstId =
    ((parseProgram tokens 0).1.map (List.map (Stmt.renumber (· + firstId))),
      (parseProgram tokens 0).2 + firstId)
  expression : parseExpression tokens firstId =
    ((parseExpression tokens 0).1.map (Expr.renumber (· + firstId)),
      (parseExpression tokens 0).2 + firstId)
  meaning (program : List Stmt) (h : (parseProgram tokens 0).1 = .ok program) :
    MeansAlike firstId program
  value (e : Expr) (h : (parseExpression tokens 0).1 = .ok e) (limits : Limits) :
    (State.initial.evaluate limits (e.renumber (· + firstId))).map
        (fun r => (r.1.map r.2.store.display, r.2.output)) =
      (State.initial.evaluate limits e).map fun r => (r.1.map r.2.store.display, r.2.output)

theorem numbers_only_name (tokens : List Token) (firstId : NodeId) :
    NumbersOnlyName tokens firstId where
  programIds _ _ h := fresh_of_parseProgram h
  expressionIds _ _ h := fresh_of_parseExpression h
  program := parseProgram_from tokens firstId
  expression := parseExpression_from tokens firstId
  meaning program _ := meansAlike firstId program
  value e _ limits := State.evaluate_initial_renumber firstId e limits

end Lox
