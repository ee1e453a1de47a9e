import Lox.Proofs.Binding.Breaches
import Lox.Proofs.Binding.References
import Lox.Proofs.Scoping.Tables
import Mathlib

/-!
# The table of references says how far out names are declared

The table that a program is resolved to has an entry for a reference if and only if one
of the scopes around it has declared its name before. The entry tells how many scopes
are inside the innermost such scope. Nothing else is in the table, and nothing was put
into it twice.

## Implementation notes

References of a program have distinct numbers, so a number tells the site that it
stands at (`Site.eq_of_id`), and what is noted there is what the table has for it.
-/

namespace Lox

open scoped List

/-! ## Finding a name -/

theorem findIdx?_eq_some_iff {α : Type} {p : α → Bool} {l : List α} {d : Nat} :
    l.findIdx? p = some d ↔
      ∃ inner a outer, l = inner ++ a :: outer ∧ inner.length = d ∧ p a = true ∧
        ∀ b ∈ inner, p b = false := by
  constructor
  · intro h
    obtain ⟨hlt, ha, hinner⟩ := List.findIdx?_eq_some_iff_getElem.mp h
    refine ⟨l.take d, l[d], l.drop (d + 1), ?_, ?_, ha, fun b hb => ?_⟩
    · rw [← List.drop_eq_getElem_cons hlt, List.take_append_drop]
    · rw [List.length_take, Nat.min_eq_left (Nat.le_of_lt hlt)]
    · obtain ⟨i, hi, rfl⟩ := List.mem_take_iff_getElem.mp hb
      exact Bool.eq_false_iff.mpr (hinner i (by omega))
  · rintro ⟨inner, a, outer, rfl, rfl, ha, hinner⟩
    rw [List.findIdx?_append, List.findIdx?_eq_none_iff.mpr hinner, List.findIdx?_cons, ha]
    simp

namespace Frames

variable {Γ : Frames} {r : Reference} {b : Binding}

theorem mem_entries :
    (r.id, b) ∈ Γ.entries r ↔
      Γ.FindsAt r.name.lexeme b.depth ∧ b.name = r.name.lexeme ∧ b.line = r.name.line := by
  have hfinds (d : Nat) :
      Γ.scopes.findIdx? (r.name.lexeme ∈ ·) = some d ↔ Γ.FindsAt r.name.lexeme d := by
    simp [findIdx?_eq_some_iff, FindsAt]
  obtain ⟨depth, name, line⟩ := b
  rw [← hfinds, entries]
  cases Γ.scopes.findIdx? (r.name.lexeme ∈ ·) with
  | none => simp
  | some d => simp [eq_comm]

theorem exists_mem_entries :
    (∃ b, (r.id, b) ∈ Γ.entries r) ↔ ∃ scope ∈ Γ.scopes, r.name.lexeme ∈ scope := by
  unfold entries
  cases h : Γ.scopes.findIdx? (r.name.lexeme ∈ ·) with
  | none =>
    rw [List.findIdx?_eq_none_iff] at h
    simpa using h
  | some d =>
    obtain ⟨inner, scope, outer, hscopes, -, hmem, -⟩ := findIdx?_eq_some_iff.mp h
    have hscope : scope ∈ Γ.scopes := by
      rw [hscopes]
      exact List.mem_append_right _ List.mem_cons_self
    simpa using ⟨scope, hscope, of_decide_eq_true hmem⟩

end Frames

/-! ## The table -/

theorem Frames.entries_sublist (Γ : Frames) (r : Reference) :
    (Γ.entries r).map Prod.fst <+ [r.id] := by
  unfold Frames.entries
  cases Γ.scopes.findIdx? (r.name.lexeme ∈ ·) with
  | none => exact List.nil_sublist _
  | some d => exact List.Sublist.refl _

/-- What is noted at a site is noted of the reference there. -/
theorem Site.entries_sublist (p : Site) : p.entries.map Prod.fst <+ p.ids := by
  obtain ⟨piece, x, Γ⟩ := p
  cases piece with
  | expr e =>
    cases e with
    | receiver target =>
      simp only [Site.entries]
      split
      · exact List.nil_sublist _
      · exact Γ.entries_sublist target
    | «variable» target => exact Γ.entries_sublist target
    | inherited target method => exact Γ.entries_sublist target
    | assign target value => exact Γ.entries_sublist target
    | _ => exact List.nil_sublist _
  | _ => exact List.nil_sublist _

theorem entries_sublist (ps : List Site) :
    (ps.flatMap Site.entries).map Prod.fst <+ ps.flatMap Site.ids := by
  induction ps with
  | nil => exact List.Sublist.refl _
  | cons p ps ih =>
    rw [List.flatMap_cons, List.map_append, List.flatMap_cons]
    exact p.entries_sublist.append ih

/-- Where nothing breaks the rules, the reference at a site is looked up. -/
theorem Site.entries_eq {p : Site} {r : Reference} {name : String}
    (h : p.sought? = some (r, name)) (hbreaches : p.breaches = []) :
    p.entries = p.around.entries r := by
  obtain ⟨piece, x, Γ⟩ := p
  cases piece with
  | expr e =>
    cases e with
    | receiver target =>
      cases h
      have hclass : Γ.class?.isNone = false := by
        cases hnone : Γ.class?.isNone with
        | false => rfl
        | true => simp [Site.breaches, hnone, breachIf] at hbreaches
      rw [Site.entries, hclass]
      rfl
    | «variable» target | inherited target method | assign target value =>
      cases h
      rfl
    | _ => cases h
  | _ => cases h

section

variable {program : List Stmt} {table : BindingTable} {id : NodeId} {b : Binding}

/-- No reference is noted twice. -/
theorem nodup_found (hids : (Stmt.idsAll program).Nodup) :
    ((Stmt.walkAll program .start).found.map Prod.fst).Nodup := by
  have hfound := (covers_program program).found.map Prod.fst
  rw [show Walk.start.found = [] from rfl, List.append_nil] at hfound
  have hnumbers : ((sites program).flatMap Site.ids).Nodup :=
    (Stmt.numbers_sitesAll [] program).nodup_iff.mpr hids
  exact hfound.nodup_iff.mpr ((entries_sublist _).nodup hnumbers)

theorem BindingTable.getElem?_of_nodup {found : List (NodeId × Binding)}
    (h : (found.map Prod.fst).Nodup) :
    (BindingTable.addAll ∅ found.reverse)[id]? = some b ↔ (id, b) ∈ found := by
  have hmem {b' : Binding} (hb' : (id, b') ∈ found) :
      (BindingTable.addAll ∅ found.reverse)[id]? = some b' := by
    refine BindingTable.getElem?_addAll_of_mem (fun e he heq => ?_)
      (.inl (List.mem_reverse.mpr hb'))
    have hsame := List.inj_on_of_nodup_map h (List.mem_reverse.mp he) hb' heq
    rw [hsame]
  refine ⟨fun hb => ?_, hmem⟩
  by_cases hsome : ∃ b', (id, b') ∈ found
  · obtain ⟨b', hb'⟩ := hsome
    have heq : b = b' := Option.some.inj (hb.symm.trans (hmem hb'))
    rw [heq]
    exact hb'
  · have hnone : (BindingTable.addAll ∅ found.reverse)[id]? = none := by
      rw [BindingTable.getElem?_addAll_of_ne]
      · rfl
      · intro e he heq
        exact hsome ⟨e.2, heq ▸ List.mem_reverse.mp he⟩
    rw [hnone] at hb
    cases hb

/-- The table of a program has what is noted at its sites. -/
theorem getElem?_of_resolve (hids : (Stmt.idsAll program).Nodup)
    (h : resolve program = .ok table) :
    table[id]? = some b ↔ ∃ p ∈ sites program, (id, b) ∈ p.entries := by
  have htable : table = BindingTable.addAll ∅ (Stmt.walkAll program .start).found.reverse := by
    have hbreaches := breaches_of_resolve h
    rw [resolve_eq, hbreaches] at h
    exact (Except.ok.inj h).symm
  have hfound := (covers_program program).found
  rw [show Walk.start.found = [] from rfl, List.append_nil] at hfound
  rw [htable, BindingTable.getElem?_of_nodup (nodup_found hids), hfound.mem_iff, List.mem_flatMap]

end

/-- The table of a program that was read has an entry for a reference if and only if a
scope around it has declared what is looked for. The entry then has the number of scopes
inside the innermost such scope, and the word and the line that are written there. The
table has no other entries, and none of them was noted twice. -/
theorem table_has_distances {source : String} {tokens : List Token} {firstId nextId : NodeId}
    {program : List Stmt} {table : BindingTable} (hlex : (lex source).toExcept = .ok tokens)
    (hparse : parseProgram tokens firstId = (.ok program, nextId))
    (hresolve : resolve program = .ok table) :
    (∀ p ∈ sites program, ∀ r name, p.sought? = some (r, name) →
      ((table[r.id]?).isSome ↔ ∃ scope ∈ p.around.scopes, name ∈ scope) ∧
      ∀ b, table[r.id]? = some b →
        p.around.FindsAt name b.depth ∧ b.name = r.name.lexeme ∧ b.line = r.name.line) ∧
    (∀ id b, table[id]? = some b →
      ∃ p ∈ sites program, ∃ r name, p.sought? = some (r, name) ∧ r.id = id) ∧
    ((Stmt.walkAll program .start).found.map Prod.fst).Nodup := by
  have hids : (Stmt.idsAll program).Nodup := (fresh_of_parseProgram hparse).nodup
  have hnumbers : ((sites program).flatMap Site.ids).Nodup :=
    (Stmt.numbers_sitesAll [] program).nodup_iff.mpr hids
  have hsound : ∀ p ∈ sites program, p.breaches = [] :=
    List.flatMap_eq_nil_iff.mp (breaches_of_resolve hresolve)
  have hspelled : ∀ p ∈ sites program, p.IsSpelled :=
    Stmt.sitesAll_areSpelled [] program (isSpelled_of_parseProgram hlex hparse)
  have htable (p : Site) (hp : p ∈ sites program) (r : Reference) (name : String)
      (hr : p.sought? = some (r, name)) (b : Binding) :
      table[r.id]? = some b ↔ (r.id, b) ∈ p.around.entries r := by
    rw [getElem?_of_resolve hids hresolve, ← Site.entries_eq hr (hsound p hp)]
    constructor
    · rintro ⟨p', hp', hb⟩
      have hid : r.id ∈ p.ids := by simp [Site.ids, hr]
      have hid' : r.id ∈ p'.ids :=
        p'.entries_sublist.subset (List.mem_map.mpr ⟨_, hb, rfl⟩)
      rwa [Site.eq_of_id hnumbers hp hp' hid hid']
    · intro hb
      exact ⟨p, hp, hb⟩
  refine ⟨fun p hp r name hr => ⟨?_, fun b hb => ?_⟩, fun id b hb => ?_, nodup_found hids⟩
  · rw [← hspelled p hp r name hr, ← Frames.exists_mem_entries, Option.isSome_iff_exists]
    exact exists_congr (htable p hp r name hr)
  · rw [← hspelled p hp r name hr]
    exact Frames.mem_entries.mp ((htable p hp r name hr b).mp hb)
  · obtain ⟨p, hp, hmem⟩ := (getElem?_of_resolve hids hresolve).mp hb
    have hid : id ∈ p.ids := p.entries_sublist.subset (List.mem_map.mpr ⟨_, hmem, rfl⟩)
    obtain ⟨⟨r, name⟩, hr, heq⟩ := List.mem_map.mp hid
    exact ⟨p, hp, r, name, Option.mem_toList.mp hr, heq⟩

/-- A variable of a block is read in a method of a class with a superclass: the scopes of
the method, of `this` and of `super` are in between. -/
theorem table_has_distances_method : ∃ tokens program nextId table p r b,
    (lex "class A \x7b\x7d \x7b var a; class B < A \x7b b() \x7b a; \x7d \x7d \x7d").toExcept =
        .ok tokens ∧
      parseProgram tokens 0 = (.ok program, nextId) ∧ resolve program = .ok table ∧
      p ∈ sites program ∧ p.sought? = some (r, "a") ∧
      p.around.scopes = [[], ["this"], ["super"], ["a", "B"]] ∧
      table[r.id]? = some b ∧ b.depth = 3 ∧ p.around.FindsAt "a" b.depth := by
  obtain ⟨tokens, program, nextId, table, p, r, b, hlex, hparse, hresolve, hp, hr, hscopes, hb,
      hdepth⟩ :
      ∃ tokens program nextId table p r b,
        (lex "class A \x7b\x7d \x7b var a; class B < A \x7b b() \x7b a; \x7d \x7d \x7d").toExcept =
            .ok tokens ∧
        parseProgram tokens 0 = (.ok program, nextId) ∧ resolve program = .ok table ∧
        (sites program)[6]? = some p ∧ p.sought? = some (r, "a") ∧
        p.around.scopes = [[], ["this"], ["super"], ["a", "B"]] ∧
        table[r.id]? = some b ∧ b.depth = 3 :=
    ⟨_, _, _, _, _, _, _, by cbv, by cbv, rfl, by cbv, by cbv, by cbv, by cbv, by cbv⟩
  have hmem := List.mem_of_getElem? hp
  obtain ⟨-, hfinds⟩ := (table_has_distances hlex hparse hresolve).1 p hmem r "a" hr
  exact ⟨tokens, program, nextId, table, p, r, b, hlex, hparse, hresolve, hmem, hr, hscopes, hb,
    hdepth, (hfinds b hb).1⟩

end Lox
