import Lox.Proofs.Binding.Covering
import Lox.Syntax.Parser
import Lox.Token.Lexer
import Mathlib

/-!
# Every breach of the static rules is reported

A program is rejected if something in it breaks a static rule, and is then told of every
breach, each once and at its own token.
-/

namespace Lox

namespace Failure

theorem ofList?_eq_none {ds : List Diagnostic} : ofList? ds = none ↔ ds = [] := by
  obtain _ | ⟨d, _ | ⟨d', ds⟩⟩ := ds <;> simp [ofList?]

theorem diagnostics_of_ofList? {ds : List Diagnostic} {failure : Failure}
    (h : ofList? ds = some failure) : failure.diagnostics = ds := by
  obtain _ | ⟨d, _ | ⟨d', ds⟩⟩ := ds
  · cases h
  · cases h
    rfl
  · cases h
    rfl

end Failure

/-- The walk comes to all sites of a program. -/
theorem covers_program (program : List Stmt) :
    Walk.start.Covers (Stmt.walkAll program .start) (sites program) := by
  have hstart : Walk.start.IsAt [] := ⟨rfl, rfl, rfl⟩
  exact (Stmt.covers_all program hstart).1

theorem errors_program (program : List Stmt) :
    (Stmt.walkAll program .start).errors = breaches program :=
  (covers_program program).errors

theorem resolve_eq (program : List Stmt) :
    resolve program = match Failure.ofList? ((breaches program).map .scoping) with
      | none => .ok (BindingTable.addAll ∅ (Stmt.walkAll program .start).found.reverse)
      | some failure => .error failure := by
  rw [← errors_program]
  rfl

theorem breaches_of_resolve {program : List Stmt} {table : BindingTable}
    (h : resolve program = .ok table) : breaches program = [] := by
  rw [resolve_eq] at h
  split at h
  next hnone => exact List.map_eq_nil_iff.mp (Failure.ofList?_eq_none.mp hnone)
  next => cases h

theorem breaches_ne_nil_iff (program : List Stmt) :
    breaches program ≠ [] ↔ ∃ p ∈ sites program, p.breaches ≠ [] := by
  simp [breaches, List.flatMap_eq_nil_iff]

/-- A program is rejected if and only if something in it breaks the static rules. Then the
diagnostics are the breaches, one for one, in the order in which they stand. -/
theorem resolve_reports_breaches (program : List Stmt) :
    ((∃ failure, resolve program = .error failure) ↔ ∃ p ∈ sites program, p.breaches ≠ []) ∧
      ∀ failure, resolve program = .error failure →
        failure.diagnostics = (breaches program).map .scoping := by
  rw [← breaches_ne_nil_iff, resolve_eq]
  cases hfailure : Failure.ofList? ((breaches program).map .scoping) with
  | none =>
    have hnone := List.map_eq_nil_iff.mp (Failure.ofList?_eq_none.mp hfailure)
    constructor
    · constructor
      · rintro ⟨failure, h⟩
        cases h
      · intro hsome
        exact absurd hnone hsome
    · intro failure h
      cases h
  | some failure =>
    have hall := Failure.diagnostics_of_ofList? hfailure
    constructor
    · constructor
      · intro _ hnone
        rw [hnone] at hfailure
        cases hfailure
      · intro _
        exact ⟨failure, rfl⟩
    · intro failure' h
      cases h
      exact hall

/-- A program that breaks each rule. -/
theorem resolve_reports_breaches_each : ∃ tokens program nextId failure,
    (lex ("class A < A \x7b init(a, a) \x7b return super.a; \x7d \x7d " ++
      "class B \x7b b() \x7b var b = b; super.b(); \x7d \x7d this; super.c; return;")).toExcept =
        .ok tokens ∧
      parseProgram tokens 0 = (.ok program, nextId) ∧ resolve program = .error failure ∧
      failure.diagnostics = (breaches program).map .scoping ∧
      (breaches program).map (fun e => (e.cause, e.token.lexeme)) =
        [(.inheritsFromItself, "A"), (.redeclaration, "a"), (.returnValueFromInitializer, "return"),
          (.readInOwnInitializer, "b"), (.superWithoutSuperclass, "super"),
          (.thisOutsideClass, "this"), (.superOutsideClass, "super"),
          (.returnAtTopLevel, "return")] := by
  obtain ⟨tokens, program, nextId, failure, hlex, hparse, hresolve, hbreaches⟩ :
      ∃ tokens program nextId failure,
        (lex ("class A < A \x7b init(a, a) \x7b return super.a; \x7d \x7d " ++
          "class B \x7b b() \x7b var b = b; super.b(); \x7d \x7d this; super.c; return;")).toExcept =
            .ok tokens ∧
        parseProgram tokens 0 = (.ok program, nextId) ∧ resolve program = .error failure ∧
        (breaches program).map (fun e => (e.cause, e.token.lexeme)) =
          [(.inheritsFromItself, "A"), (.redeclaration, "a"), (.returnValueFromInitializer, "return"),
            (.readInOwnInitializer, "b"), (.superWithoutSuperclass, "super"),
            (.thisOutsideClass, "this"), (.superOutsideClass, "super"),
            (.returnAtTopLevel, "return")] :=
    ⟨_, _, _, _, by cbv, by cbv, by cbv, by cbv⟩
  exact ⟨tokens, program, nextId, failure, hlex, hparse, hresolve,
    (resolve_reports_breaches program).2 failure hresolve, hbreaches⟩

end Lox
