import Lox.Proofs.Incremental.Batches
import Lox.Proofs.Rejection.RenumberedSteps

/-!
# Sessions that have given out other numbers

A session that has given out more numbers than another one, but is the same apart from
that, goes on like the other one: from any source both come to the same end, and they
are the same apart from numbers again.

## Implementation notes

What numbers stand in a session's store is not looked at. Instead the sessions have to
be the same by every numbering that `Extends` a given one: that has the same numbers
for those that the first session has given out, whatever the others become, as long as
the second session has not given them out.
-/

namespace Lox

/-! ## Numberings -/

/-- Whether a numbering has the same numbers as another one for all below `n`, and
numbers from `m` on for all others. -/
structure Extends (n m : Nat) (φ₀ φ : Nat → Nat) : Prop where
  old : ∀ id < n, φ id = φ₀ id
  new : ∀ id, n ≤ id → m ≤ φ id

/-- A numbering for all below `n`, and from there on a shift. -/
def shiftFrom (n shift : Nat) (φ₀ : Nat → Nat) (id : Nat) : Nat :=
  if id < n then φ₀ id else id + shift

section

variable {n n' m m' shift : Nat} {φ₀ φ : Nat → Nat}

theorem Extends.mono (h : Extends n m' φ₀ φ) (hle : m ≤ m') : Extends n m φ₀ φ :=
  ⟨h.old, fun id hid => Nat.le_trans hle (h.new id hid)⟩

theorem shiftFrom_of_lt {id : Nat} (h : id < n) : shiftFrom n shift φ₀ id = φ₀ id :=
  if_pos h

theorem shiftFrom_of_le {id : Nat} (h : n ≤ id) : shiftFrom n shift φ₀ id = id + shift :=
  if_neg (Nat.not_lt_of_le h)

theorem extends_shiftFrom (h : n ≤ n') :
    Extends n' (n' + shift) (shiftFrom n shift φ₀) (shiftFrom n shift φ₀) where
  old _ _ := rfl
  new id hid := by
    rw [shiftFrom_of_le (Nat.le_trans h hid)]
    exact Nat.add_le_add_right hid shift

theorem Extends.of_shiftFrom (h : Extends n' (n' + shift) (shiftFrom n shift φ₀) φ) (hle : n ≤ n') :
    Extends n (n + shift) φ₀ φ where
  old id hid := by rw [h.old id (Nat.lt_of_lt_of_le hid hle), shiftFrom_of_lt hid]
  new id hid := by
    by_cases hlt : id < n'
    · rw [h.old id hlt, shiftFrom_of_le hid]
      exact Nat.add_le_add_right hid shift
    · exact Nat.le_trans (Nat.add_le_add_right hle shift) (h.new id (Nat.le_of_not_lt hlt))

/-- A tree that is read at the time has its numbers shifted. -/
theorem Extends.shifts {ids : List Nat} (h : Extends n' (n' + shift) (shiftFrom n shift φ₀) φ)
    (hids : Fresh n n' ids) : ∀ id ∈ ids, φ id = id + shift := by
  intro id hid
  obtain ⟨hle, hlt⟩ := hids.bounds id hid
  rw [h.old id hlt, shiftFrom_of_le hle]

end

/-! ## Binding names with other numbers -/

section

variable {program : List Stmt} {table : BindingTable} {failure : Failure} (shift : Nat)

/-- As much is known of references with greater numbers. -/
theorem resolve_shift (h : resolve program = .ok table) :
    ∃ table', resolve (program.map (Stmt.move (.renumber shift))) = .ok table' ∧
      ∀ id : Nat, table'.distance? (id + shift) = table.distance? id := by
  have hempty : resolve [] = .ok ∅ := rfl
  obtain ⟨table', htable', hlookup⟩ :=
    resolve_behind_ok (μ := .renumber shift) hempty trivial List.nodup_nil h
  refine ⟨table', htable', fun id => ?_⟩
  have hnone : (∅ : BindingTable)[id + shift]? = none := Std.TreeMap.getElem?_emptyc
  have hid : table'[id + shift]? = _ := hlookup id
  rw [BindingTable.distance?, hid]
  change ((table[id]?.map _).or (∅ : BindingTable)[id + shift]?).map _ = _
  rw [hnone, Option.or_none, Option.map_map]
  rfl

/-- References with greater numbers break the same rules. -/
theorem resolve_shift_error (h : resolve program = .error failure) :
    resolve (program.map (Stmt.move (.renumber shift))) = .error failure := by
  have hempty : resolve [] = .ok ∅ := rfl
  have hbehind := resolve_behind_error (μ := .renumber shift) hempty trivial List.nodup_nil h
  rwa [Failure.move_renumber] at hbehind

end

/-! ## Sessions -/

namespace Session

theorem Accepts.fresh {t : Session} {source : String} {program : List Stmt} {table : BindingTable}
    {nextId : NodeId} (h : t.Accepts source program table nextId) :
    Fresh t.nextId nextId (Stmt.idsAll program) := by
  obtain ⟨tokens, -, hparse⟩ := h.accepted
  exact fresh_of_parseProgram hparse

theorem Accepts.le_nextId {t : Session} {source : String} {program : List Stmt}
    {table : BindingTable} {nextId : NodeId} (h : t.Accepts source program table nextId) :
    @LE.le Nat _ t.nextId nextId := by
  obtain ⟨tokens, -, hparse⟩ := h.accepted
  exact le_of_parseProgram hparse

/-- Whether a session is another one with other numbers, and has given out as many or
more. -/
structure Renumbers (φ₀ : Nat → Nat) (t s : Session) : Prop where
  le : @LE.le Nat _ t.nextId s.nextId
  lt (id : Nat) (h : @LT.lt Nat _ id t.nextId) : @LT.lt Nat _ (φ₀ id) s.nextId
  state (φ : Nat → Nat) (h : Extends t.nextId s.nextId φ₀ φ) :
    s.state = t.state.renumber ⟨φ, s.state.table⟩
  table (φ : Nat → Nat) (h : Extends t.nextId s.nextId φ₀ φ) :
    Renumbering.Agrees ⟨φ, s.state.table⟩ t.state.table

theorem renumbers_fresh : Renumbers id fresh fresh where
  le := Nat.le_refl _
  lt _ h := h
  state φ _ := by
    have hstore : Store.initial.map (Closure.renumber φ) = Store.initial := by
      simp [Store.initial, Store.map, Scope.map, NameMap.map_empty]
    rw [State.renumber]
    exact (congrArg (fun store => { fresh.state with store }) hstore).symm
  table _ _ _ := rfl

namespace Renumbers

variable {φ₀ φ : Nat → Nat} {t s : Session} {limits : Limits} {source : String}
  {program : List Stmt} {table table' : BindingTable} {nextId : NodeId} {shift : Nat}

/-- A source that is rejected uses up numbers at most. -/
theorem skip (h : Renumbers φ₀ t s) (hid : @LE.le Nat _ s.nextId nextId) :
    Renumbers φ₀ t { s with nextId } where
  le := Nat.le_trans h.le hid
  lt id hlt := Nat.lt_of_lt_of_le (h.lt id hlt) hid
  state φ hφ := h.state φ (hφ.mono hid)
  table φ hφ := h.table φ (hφ.mono hid)

theorem lt_shiftFrom (h : Renumbers φ₀ t s) (hs : s.nextId = t.nextId + shift)
    (hid : @LE.le Nat _ t.nextId nextId) (id : Nat) (hlt : @LT.lt Nat _ id nextId) :
    shiftFrom t.nextId shift φ₀ id < nextId + shift := by
  by_cases hold : @LT.lt Nat _ id t.nextId
  · have hlt' := h.lt id hold
    rw [hs] at hlt'
    rw [shiftFrom_of_lt hold]
    exact Nat.lt_of_lt_of_le hlt' (Nat.add_le_add_right hid shift)
  · rw [shiftFrom_of_le (Nat.le_of_not_lt hold)]
    exact Nat.add_lt_add_right hlt shift

/-- A source that both sessions reject uses up as many numbers in either. -/
theorem advance (h : Renumbers φ₀ t s) (hs : s.nextId = t.nextId + shift)
    (hid : @LE.le Nat _ t.nextId nextId) :
    Renumbers (shiftFrom t.nextId shift φ₀) { t with nextId }
      { s with nextId := nextId + shift } where
  le := Nat.le_add_right _ _
  lt := h.lt_shiftFrom hs hid
  state φ hφ := h.state φ (hs ▸ hφ.of_shiftFrom hid)
  table φ hφ := h.table φ (hs ▸ hφ.of_shiftFrom hid)

/-- If a run comes to the same end by each of the numberings in question, up to numbers,
then it leaves behind sessions that are the same up to numbers. -/
theorem of_ends {φ₁ : Nat → Nat} {m n : NodeId} (hle : @LE.le Nat _ n m)
    (hlt : ∀ id : Nat, @LT.lt Nat _ id n → @LT.lt Nat _ (φ₁ id) m) (hself : Extends n m φ₁ φ₁)
    {α β : Type} {first : Option (α × State)} {second : Option (β × State)}
    {result : (Nat → Nat) → α × State → β}
    (hruns : ∀ φ, Extends n m φ₁ φ →
      second = first.map fun r => (result φ r, r.2.renumber ⟨φ, table'⟩))
    {r : α × State} (hend : first = some r) (htable : r.2.table = table)
    (hagrees : ∀ φ, Extends n m φ₁ φ → Renumbering.Agrees ⟨φ, table'⟩ table) :
    Renumbers φ₁ ⟨r.2, n⟩ ⟨r.2.renumber ⟨φ₁, table'⟩, m⟩ where
  le := hle
  lt := hlt
  state φ hφ := by
    have hsame := (hruns φ₁ hself).symm.trans (hruns φ hφ)
    rw [hend] at hsame
    exact (Prod.mk.inj (Option.some.inj hsame)).2
  table φ hφ := htable ▸ hagrees φ hφ

/-! ## Programs -/

section

variable (h : Renumbers φ₀ t s) (ht : t.Sound) (hs : s.Sound)
  (hshift : s.nextId = t.nextId + shift) (ha : t.Accepts source program table nextId)
  (ha' : s.Accepts source (program.map (Stmt.move (.renumber shift))) table' (nextId + shift))
  (htable : ∀ id : Nat, table'.distance? (id + shift) = table.distance? id)
include h ht hs hshift ha ha' htable

/-- What the sessions know of a program that both accept is the same. -/
theorem agrees_merge (hφ : Extends nextId (nextId + shift) (shiftFrom t.nextId shift φ₀) φ) :
    Renumbering.Agrees ⟨φ, s.state.table.merge table'⟩ (t.state.table.merge table) := by
  have hold : Extends t.nextId s.nextId φ₀ φ := hshift ▸ hφ.of_shiftFrom ha.le_nextId
  have hsilent {id : Nat} (h : @LT.lt Nat _ id t.nextId ∨ @LE.le Nat _ nextId id) :
      table.distance? id = none := congrArg _ (ha.silent ht h)
  have hsilent' {id : Nat} (h : @LT.lt Nat _ id s.nextId ∨ @LE.le Nat _ (nextId + shift) id) :
      table'.distance? id = none := congrArg _ (ha'.silent hs h)
  intro id
  change (s.state.table.merge table').distance? (φ id) = _
  by_cases hlt : @LT.lt Nat _ id t.nextId
  · -- A number that was given out before is not in the new tables.
    have hnew : table'.distance? (φ id) = none := by
      rw [hold.old id hlt]
      exact hsilent' (.inl (h.lt id hlt))
    rw [BindingTable.distance?_merge_of_none hnew,
      BindingTable.distance?_merge_of_none (hsilent (.inl hlt))]
    exact h.table φ hold id
  · -- Any other number is not in the old ones.
    have hle := Nat.le_of_not_lt hlt
    rw [BindingTable.distance?_merge_of_none_left (hs.silent _ (hold.new id hle)),
      BindingTable.distance?_merge_of_none_left (ht.silent id hle)]
    by_cases hread : @LT.lt Nat _ id nextId
    · rw [hφ.old id hread, shiftFrom_of_le hle]
      exact htable id
    · have hge := Nat.le_of_not_lt hread
      rw [hsilent' (.inr (hφ.new id hge)), hsilent (.inr hge)]

/-- A program that both sessions accept runs alike, up to numbers. -/
theorem interpret_eq (limits : Limits)
    (hφ : Extends nextId (nextId + shift) (shiftFrom t.nextId shift φ₀) φ) :
    (s.state.learn table').interpret limits (program.map (Stmt.move (.renumber shift))) =
      ((t.state.learn table).interpret limits program).map fun r =>
        (r.1, r.2.renumber ⟨φ, s.state.table.merge table'⟩) := by
  have hstate : s.state.learn table' =
      (t.state.learn table).renumber ⟨φ, s.state.table.merge table'⟩ := by
    have hold := h.state φ (hshift ▸ hφ.of_shiftFrom ha.le_nextId)
    rw [State.learn, hold]
    rfl
  have hprogram : program.map (Stmt.move (.renumber shift)) = program.map (Stmt.renumber φ) := by
    rw [← Stmt.moveAll_eq_map, ← Stmt.renumberAll_eq_map,
      Stmt.renumberAll_eq_moveAll (hφ.shifts ha.fresh)]
  rw [hstate, hprogram]
  apply State.interpret_renumber
  exact h.agrees_merge ht hs hshift ha ha' htable hφ

/-- A program that both sessions accept comes to the same end in either. -/
theorem accept :
    Option.Rel (fun a b => a.1 = b.1 ∧ ∃ φ, Renumbers φ a.2 b.2) (t.run limits source)
      (s.run limits source) := by
  have hid : @LE.le Nat _ t.nextId nextId := ha.le_nextId
  have hruns (φ : Nat → Nat)
      (hφ : Extends nextId (nextId + shift) (shiftFrom t.nextId shift φ₀) φ) :=
    h.interpret_eq ht hs hshift ha ha' htable limits hφ
  have hself : Extends nextId (nextId + shift) (shiftFrom t.nextId shift φ₀) _ :=
    extends_shiftFrom hid
  rw [ha.run_eq, ha'.run_eq, hruns _ hself]
  cases hend : (t.state.learn table).interpret limits program with
  | none => exact .none
  | some r =>
    have hrestores : (t.state.learn table).Restores r.2 := State.restores_of_interpret hend
    refine .some ⟨rfl, shiftFrom t.nextId shift φ₀, ?_⟩
    exact of_ends (Nat.le_add_right _ _) (h.lt_shiftFrom hshift hid) hself hruns hend
      hrestores.table fun φ hφ => h.agrees_merge ht hs hshift ha ha' htable hφ

end

/-- From the same source both sessions come to the same end. -/
theorem run (h : Renumbers φ₀ t s) (ht : t.Sound) (hs : s.Sound) (limits : Limits)
    (source : String) :
    Option.Rel (fun a b => a.1 = b.1 ∧ ∃ φ, Renumbers φ a.2 b.2) (t.run limits source)
      (s.run limits source) := by
  obtain ⟨shift, hshift⟩ : ∃ shift, s.nextId = t.nextId + shift := Nat.exists_eq_add_of_le h.le
  cases hlex : (lex source).toExcept with
  | error e =>
    simp only [Session.run, hlex]
    exact .some ⟨rfl, φ₀, h⟩
  | ok tokens =>
    have hparse' := parseProgram_shift (ends_of_lex hlex) t.nextId shift
    rw [← hshift] at hparse'
    cases hparse : parseProgram tokens t.nextId with
    | mk parsed nextId =>
      have hid : @LE.le Nat _ t.nextId nextId := le_of_parseProgram hparse
      rw [hparse] at hparse'
      cases parsed with
      | error failure =>
        rw [Parser.moveAnswer, Except.map, Except.mapError, Failure.move_renumber] at hparse'
        simp only [Session.run, hlex, hparse, hparse']
        exact .some ⟨rfl, _, h.advance hshift hid⟩
      | ok program =>
        cases hresolve : resolve program with
        | error failure =>
          have hresolve' := resolve_shift_error shift hresolve
          rw [Parser.moveAnswer, Except.map, Except.mapError] at hparse'
          simp only [Session.run, hlex, hparse, hparse', hresolve, hresolve']
          exact .some ⟨rfl, _, h.advance hshift hid⟩
        | ok table =>
          obtain ⟨table', hresolve', htable⟩ := resolve_shift shift hresolve
          exact h.accept ht hs hshift ⟨⟨tokens, hlex, hparse⟩, hresolve⟩
            ⟨⟨tokens, hlex, hparse'⟩, hresolve'⟩ htable

/-! ## Expressions -/

/-- An expression has the same value in both sessions, up to numbers. -/
theorem evaluate_eq (h : Renumbers φ₀ t s) (limits : Limits)
    (hφ : Extends t.nextId s.nextId φ₀ φ) (e : Expr) :
    s.state.evaluate limits (e.renumber φ) = (t.state.evaluate limits e).map fun r =>
      (r.1.map (Value.map (Closure.renumber φ)), r.2.renumber ⟨φ, s.state.table⟩) := by
  have heval := State.evaluate_renumber limits e (h.table φ hφ)
  rwa [← h.state φ hφ] at heval

/-- An expression that is read in both sessions comes to the same end in either. -/
theorem accept_expression (h : Renumbers φ₀ t s) (hshift : s.nextId = t.nextId + shift)
    {tokens : List Token} {e : Expr} (hlex : (lex source).toExcept = .ok tokens)
    (hparse : parseExpression tokens t.nextId = (.ok e, nextId))
    (hparse' : parseExpression tokens s.nextId = (.ok (e.move (.renumber shift)), nextId + shift)) :
    Option.Rel (fun a b => a.1.map a.2.state.store.display = b.1.map b.2.state.store.display ∧
        ∃ φ, Renumbers φ a.2 b.2)
      (t.evaluate limits source) (s.evaluate limits source) := by
  have hid : @LE.le Nat _ t.nextId nextId := le_of_parseExpression hparse
  have hnext := h.advance hshift hid
  have hruns (φ : Nat → Nat)
      (hφ : Extends nextId (nextId + shift) (shiftFrom t.nextId shift φ₀) φ) :
      s.state.evaluate limits (e.move (.renumber shift)) =
        (t.state.evaluate limits e).map fun r =>
          (r.1.map (Value.map (Closure.renumber φ)), r.2.renumber ⟨φ, s.state.table⟩) := by
    rw [← Expr.renumber_eq_move (hφ.shifts (fresh_of_parseExpression hparse))]
    exact hnext.evaluate_eq limits hφ e
  have hself : Extends nextId (nextId + shift) (shiftFrom t.nextId shift φ₀) _ :=
    extends_shiftFrom hid
  simp only [Session.evaluate, hlex, hparse, hparse', hruns _ hself]
  cases hend : t.state.evaluate limits e with
  | none => exact .none
  | some r =>
    obtain ⟨result, st⟩ := r
    have hrestores : t.state.Restores st := State.restores_of_evaluate hend
    have hlast : Renumbers (shiftFrom t.nextId shift φ₀) ⟨st, nextId⟩ _ :=
      of_ends hnext.le hnext.lt hself hruns hend hrestores.table hnext.table
    cases result with
    | error e => exact .some ⟨rfl, _, hlast⟩
    | ok v =>
      have hkeeps := (FunctionDecl.keeps_renumber (shiftFrom t.nextId shift φ₀)).closure
      exact .some ⟨congrArg Except.ok (st.store.display_map hkeeps v).symm, _, hlast⟩

/-- From the same expression both sessions come to the same end. -/
theorem evaluate (h : Renumbers φ₀ t s) (limits : Limits) (source : String) :
    Option.Rel (fun a b => a.1.map a.2.state.store.display = b.1.map b.2.state.store.display ∧
        ∃ φ, Renumbers φ a.2 b.2)
      (t.evaluate limits source) (s.evaluate limits source) := by
  obtain ⟨shift, hshift⟩ : ∃ shift, s.nextId = t.nextId + shift := Nat.exists_eq_add_of_le h.le
  cases hlex : (lex source).toExcept with
  | error e =>
    simp only [Session.evaluate, hlex]
    exact .some ⟨rfl, φ₀, h⟩
  | ok tokens =>
    have hparse' := parseExpression_shift (ends_of_lex hlex) t.nextId shift
    rw [← hshift] at hparse'
    cases hparse : parseExpression tokens t.nextId with
    | mk parsed nextId =>
      rw [hparse] at hparse'
      cases parsed with
      | error failure =>
        rw [Parser.moveAnswer, Except.map, Except.mapError, Failure.move_renumber] at hparse'
        simp only [Session.evaluate, hlex, hparse, hparse']
        exact .some ⟨rfl, _, h.advance hshift (le_of_parseExpression hparse)⟩
      | ok e => exact h.accept_expression hshift hlex hparse hparse'

end Renumbers

end Session

end Lox
