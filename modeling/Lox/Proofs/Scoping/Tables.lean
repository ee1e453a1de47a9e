import Lox.Proofs.Scoping.Resolving
import Lox.Proofs.Syntax.ReadStatements

/-!
# Tables of references

What a session knows of references once a program is bound, and that the program
is well-scoped by it. What was known before stays known.

## Implementation notes

A session has given out all numbers below its next one. Of these it knows
everything: those that are not in its table are global. Of the others it knows
nothing, so knowledge only grows.
-/

namespace Lox

namespace BindingTable

variable {table older newer : BindingTable} {id : NodeId}

theorem getElem?_addAll_of_ne {entries : List (NodeId × Binding)} (h : ∀ e ∈ entries, e.1 ≠ id) :
    (table.addAll entries)[id]? = table[id]? := by
  induction entries generalizing table with
  | nil => rfl
  | cons e entries ih =>
      rw [List.forall_mem_cons] at h
      have hrest : (addAll (table.insert e.1 e.2) entries)[id]? = (table.insert e.1 e.2)[id]? :=
        ih h.2
      rw [Std.TreeMap.getElem?_insert, if_neg (by simpa using h.1)] at hrest
      exact hrest

theorem getElem?_addAll_of_mem {entries : List (NodeId × Binding)} {b : Binding}
    (h : ∀ e ∈ entries, e.1 = id → e.2 = b) (hb : (id, b) ∈ entries ∨ table[id]? = some b) :
    (table.addAll entries)[id]? = some b := by
  induction entries generalizing table with
  | nil => simpa [addAll] using hb
  | cons e entries ih =>
      rw [List.forall_mem_cons] at h
      have hrest : (id, b) ∈ entries ∨ (table.insert e.1 e.2)[id]? = some b := by
        rw [Std.TreeMap.getElem?_insert]
        by_cases he : e.1 = id
        · exact .inr (by simp [he, h.1 he])
        · rw [if_neg (by simpa using he)]
          exact hb.imp_left fun hmem => (List.mem_cons.mp hmem).resolve_left
            fun heq => he (by rw [← heq])
      exact ih h.2 hrest

/-- A table takes precedence over the one that it is put over. -/
theorem getElem?_merge : (older.merge newer)[id]? = newer[id]?.or older[id]? := by
  have hmem (e : NodeId × Binding) (he : e ∈ newer.toList) : newer[e.1]? = some e.2 :=
    Std.TreeMap.mem_toList_iff_getElem?_eq_some.mp he
  cases hnew : newer[id]? with
  | none =>
      refine getElem?_addAll_of_ne fun e he heq => ?_
      rw [← heq, hmem e he] at hnew
      cases hnew
  | some b =>
      refine getElem?_addAll_of_mem (fun e he heq => ?_)
        (.inl (Std.TreeMap.mem_toList_iff_getElem?_eq_some.mpr hnew))
      rw [← heq, hmem e he] at hnew
      exact Option.some.inj hnew

theorem distance?_merge_of_none (h : newer.distance? id = none) :
    (older.merge newer).distance? id = older.distance? id := by
  rw [distance?, Option.map_eq_none_iff] at h
  rw [distance?, getElem?_merge, h, Option.none_or, distance?]

theorem distance?_merge_of_none_left (h : older.distance? id = none) :
    (older.merge newer).distance? id = newer.distance? id := by
  rw [distance?, Option.map_eq_none_iff] at h
  rw [distance?, getElem?_merge, h, Option.or_none, distance?]

/-- A table that is made of entries, the latest first, says what is noted by them. -/
theorem distance?_addAll_reverse (entries : List (NodeId × Binding)) :
    (addAll ∅ entries.reverse).distance? id = noted entries id := by
  rw [addAll, List.foldl_reverse, distance?]
  induction entries with
  | nil => rfl
  | cons e entries ih =>
      obtain ⟨i, b⟩ := e
      rw [List.foldr_cons, Std.TreeMap.getElem?_insert, noted, List.lookup_cons]
      by_cases h : id = i
      · subst h
        simp
      · rw [if_neg (by simpa using Ne.symm h), ih, beq_false_of_ne h]
        rfl

/-- What is known from a table when all numbers below a bound are given out. -/
def known (table : BindingTable) (nextId : NodeId) : Known := fun id =>
  if id < nextId then some (table.distance? id) else none

theorem distance?_of_known {nextId : NodeId} {d : Option Nat}
    (h : table.known nextId id = some d) : table.distance? id = d := by
  unfold known at h
  split at h
  · exact Option.some.inj h
  · cases h

theorem known_grows {table' : BindingTable} {nextId nextId' : NodeId} (hid : nextId ≤ nextId')
    (h : ∀ id < nextId, table'.distance? id = table.distance? id) :
    (table.known nextId).Grows (table'.known nextId') := by
  intro id d hd
  unfold known at hd ⊢
  split at hd
  next hlt =>
    have hlt' : id < nextId' := Nat.lt_of_lt_of_le hlt hid
    rw [if_pos hlt', h id hlt]
    exact hd
  next => cases hd

end BindingTable

/-! ## Programs -/

theorem walkAll_of_resolve {program : List Stmt} {table : BindingTable}
    (h : resolve program = .ok table) : (Stmt.walkAll program .start).errors = [] ∧
      table = BindingTable.addAll ∅ (Stmt.walkAll program .start).found.reverse := by
  unfold resolve at h
  cases herrors : (Stmt.walkAll program .start).errors with
  | nil =>
    simp only [herrors, List.map_nil, Failure.ofList?, Except.ok.injEq] at h
    exact ⟨rfl, h.symm⟩
  | cons e es => cases es <;> simp [herrors, Failure.ofList?] at h

/-- A program that is resolved is well-scoped for all who know its table, which is
about the program's references only. -/
theorem Stmt.areScoped_of_resolve {program : List Stmt} {table : BindingTable}
    (h : resolve program = .ok table) (hs : Stmt.AreSpelled (Stmt.unnumberedAll program))
    (hids : (Stmt.idsAll program).Nodup) :
    (∀ known : Known, (∀ id ∈ Stmt.idsAll program, known id = some (table.distance? id)) →
      Stmt.AreScoped known [] .none program) ∧
      ∀ id, id ∉ Stmt.idsAll program → table.distance? id = none := by
  obtain ⟨herrors, htable⟩ := walkAll_of_resolve h
  obtain ⟨-, -, -, new, hnew, hmem, hP⟩ :=
    Stmt.walkAll_notes program (w := .start) hs trivial hids herrors
  rw [show Walk.start.found = [] from rfl, List.append_nil] at hnew
  have htable (id : NodeId) : table.distance? id = noted new id := by
    rw [htable, hnew, BindingTable.distance?_addAll_reverse]
  refine ⟨fun known hknown => hP known fun id hid => by rw [hknown id hid, htable id],
    fun id hid => ?_⟩
  rw [htable, noted, Walk.lookup_eq_none hmem hid]
  rfl

mutual

/-- An expression whose references are all known to be global fits no scopes. -/
theorem Expr.scoped_of_global {known : Known} :
    ∀ {e : Expr}, e.unnumbered.IsSpelled → (∀ id ∈ e.ids, known id = some none) →
      e.Scoped known False []
  | .literal _, _, _ => trivial
  | .variable _, hs, h => ⟨h _ List.mem_cons_self, hs, by simp [Scopes.IsUnready]⟩
  | .receiver _, hs, h => ⟨h _ List.mem_cons_self, hs, False.elim⟩
  | .inherited _ _, hs, h => ⟨h _ List.mem_cons_self, hs, False.elim⟩
  | .grouping e, hs, h => Expr.scoped_of_global (e := e) hs h
  | .unary _ _ _, hs, h => ⟨hs.1, Expr.scoped_of_global hs.2 h⟩
  | .binary _ _ _ _, hs, h =>
      have h := List.forall_mem_append.mp h
      ⟨hs.1, Expr.scoped_of_global hs.2.1 h.1, Expr.scoped_of_global hs.2.2 h.2⟩
  | .logical _ _ _ _, hs, h =>
      have h := List.forall_mem_append.mp h
      ⟨hs.1, Expr.scoped_of_global hs.2.1 h.1, Expr.scoped_of_global hs.2.2 h.2⟩
  | .assign _ _, hs, h =>
      have h := List.forall_mem_append.mp h
      ⟨h.2 _ List.mem_cons_self, hs.1, Expr.scoped_of_global hs.2 h.1⟩
  | .get e _, hs, h => Expr.scoped_of_global (e := e) hs h
  | .set _ _ _, hs, h =>
      have h := List.forall_mem_append.mp h
      ⟨Expr.scoped_of_global hs.1 h.1, Expr.scoped_of_global hs.2 h.2⟩
  | .call _ _ _, hs, h =>
      have h := List.forall_mem_append.mp h
      ⟨Expr.scoped_of_global hs.1 h.1, Expr.areScoped_of_global hs.2 h.2⟩

theorem Expr.areScoped_of_global {known : Known} :
    ∀ {es : List Expr}, Expr.AreSpelled (Expr.unnumberedAll es) →
      (∀ id ∈ Expr.idsAll es, known id = some none) → Expr.AreScoped known False [] es
  | [], _, _ => trivial
  | _ :: _, hs, h =>
      have h := List.forall_mem_append.mp h
      ⟨Expr.scoped_of_global hs.1 h.1, Expr.areScoped_of_global hs.2 h.2⟩

end

/-! ## Sources -/

/-- Whether a table is silent about numbers that have not been given out. -/
def BindingTable.SilentFrom (table : BindingTable) (nextId : NodeId) : Prop :=
  ∀ id : NodeId, @LE.le Nat _ nextId id → table.distance? id = none

/-- What is known of a session once a source is accepted. -/
structure BindingTable.Accepts (older table : BindingTable) (firstId nextId : NodeId) : Prop where
  grows : (older.known firstId).Grows (table.known nextId)
  silent : table.SilentFrom nextId

namespace BindingTable

variable {older table : BindingTable} {firstId nextId : NodeId} {source : String}
  {tokens : List Token}

/-- Numbers may be given out without a use. -/
theorem SilentFrom.advance (h : older.SilentFrom firstId) (hid : @LE.le Nat _ firstId nextId) :
    older.Accepts older firstId nextId :=
  ⟨known_grows hid fun _ _ => rfl, fun id hle => h id (Nat.le_trans hid hle)⟩

/-- A program that every stage accepts is well-scoped by the table that results. -/
theorem SilentFrom.program {program : List Stmt} (h : older.SilentFrom firstId)
    (hlex : (lex source).toExcept = .ok tokens)
    (hparse : parseProgram tokens firstId = (.ok program, nextId))
    (hresolve : resolve program = .ok table) :
    older.Accepts (older.merge table) firstId nextId ∧
      Stmt.AreScoped ((older.merge table).known nextId) [] .none program := by
  have hfresh := fresh_of_parseProgram hparse
  have hid : @LE.le Nat _ firstId nextId := le_of_parseProgram hparse
  have hnew (id : NodeId) (hmem : id ∈ Stmt.idsAll program) :
      (older.merge table).known nextId id = some (table.distance? id) := by
    obtain ⟨hle, hlt⟩ := hfresh.bounds id hmem
    rw [known, if_pos hlt, distance?_merge_of_none_left (h id hle)]
  obtain ⟨hscoped, hsilent⟩ := Stmt.areScoped_of_resolve hresolve
    (isSpelled_of_parseProgram hlex hparse) hfresh.nodup
  refine ⟨⟨known_grows hid fun id hlt => ?_, fun id hle => ?_⟩, hscoped _ hnew⟩
  · exact distance?_merge_of_none (hsilent id fun hmem =>
      Nat.lt_irrefl id (Nat.lt_of_lt_of_le hlt (hfresh.bounds id hmem).1))
  · rw [distance?_merge_of_none (hsilent id fun hmem =>
      Nat.lt_irrefl id (Nat.lt_of_lt_of_le (hfresh.bounds id hmem).2 hle))]
    exact h id (Nat.le_trans hid hle)

/-- An expression that is never bound is well-scoped among the globals. -/
theorem SilentFrom.expression {e : Expr} (h : older.SilentFrom firstId)
    (hlex : (lex source).toExcept = .ok tokens)
    (hparse : parseExpression tokens firstId = (.ok e, nextId)) :
    older.Accepts older firstId nextId ∧ e.Scoped (older.known nextId) False [] := by
  have hfresh := fresh_of_parseExpression hparse
  have hid : @LE.le Nat _ firstId nextId := le_of_parseExpression hparse
  refine ⟨h.advance hid, Expr.scoped_of_global (isSpelled_of_parseExpression hlex hparse)
    fun id hmem => ?_⟩
  obtain ⟨hle, hlt⟩ := hfresh.bounds id hmem
  rw [known, if_pos hlt, h id hle]

end BindingTable

end Lox
