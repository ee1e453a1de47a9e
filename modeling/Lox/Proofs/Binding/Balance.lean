import Lox.Proofs.Binding.Walking
import Lox.Proofs.Incremental.MovedWalk
import Lox.Proofs.Loops.BlankWalks
import Lox.Syntax.Parser
import Lox.Token.Lexer
import Mathlib

/-!
# Walks are balanced

From wherever it starts, a walk over a piece of program comes back to the function and
the class that it started in, with all scopes that were open. It only adds to what was
reported and found before, and to the innermost scope the names that the piece declares.
What it adds does not depend on what was reported and found, so outside of all scopes it
does not depend on the statements before.

## Implementation notes

Nothing is asked of the walk that a piece starts with: it need not be one that a program
leads to, and names of its innermost scope may not be ready.
-/

namespace Lox

/-! ## What a walk adds -/

namespace Walk

/-- The table of what has been found so far. -/
def table (w : Walk) : BindingTable :=
  BindingTable.addAll ∅ w.found.reverse

/-- Between two moments of a walk, errors and entries about some references have been
added, and the function and the class around are the same again. -/
structure Adds (ids : List NodeId) (w w' : Walk) : Prop where
  function : w'.function = w.function
  cls : w'.cls = w.cls
  errors : w.errors <+: w'.errors
  found : ∃ new, w'.found = new ++ w.found ∧ ∀ e ∈ new, e.1 ∈ ids

theorem getElem?_table (w : Walk) (id : NodeId) : w.table[id]? = w.found.lookup id := by
  rw [table, BindingTable.getElem?_addAll, List.reverse_reverse, Std.TreeMap.getElem?_emptyc,
    Option.or_none]

namespace Adds

variable {ids ids' : List NodeId} {w w' w'' : Walk} {inner : Walk → Walk}

/-- Nothing is found out about other references. -/
theorem table (h : w.Adds ids w') {id : NodeId} (hid : id ∉ ids) :
    w'.table[id]? = w.table[id]? := by
  obtain ⟨new, hnew, hids⟩ := h.found
  rw [getElem?_table, getElem?_table, hnew, List.lookup_append, lookup_eq_none hids hid,
    Option.none_or]

theorem refl (w : Walk) : w.Adds [] w :=
  ⟨rfl, rfl, List.prefix_refl _, [], rfl, by simp⟩

theorem trans (h : w.Adds ids w') (h' : w'.Adds ids' w'') : w.Adds (ids ++ ids') w'' := by
  obtain ⟨new, hnew, hids⟩ := h.found
  obtain ⟨new', hnew', hids'⟩ := h'.found
  refine ⟨h'.function.trans h.function, h'.cls.trans h.cls, h.errors.trans h'.errors, new' ++ new,
    by rw [hnew', hnew, List.append_assoc], fun e he => ?_⟩
  rw [List.mem_append] at he ⊢
  exact he.symm.imp (hids e) (hids' e)

theorem mono (h : w.Adds ids w') (hids : ids ⊆ ids') : w.Adds ids' w' := by
  obtain ⟨new, hnew, hmem⟩ := h.found
  exact ⟨h.function, h.cls, h.errors, new, hnew, fun e he => hids (hmem e he)⟩

theorem reportIf (w : Walk) (breach : Bool) (cause : ScopingCause) (token : Token) :
    w.Adds [] (w.reportIf breach cause token) :=
  ⟨w.function_reportIf _ _ _, w.cls_reportIf _ _ _, w.errors_reportIf _ _ _, [],
    w.found_reportIf _ _ _, by simp⟩

theorem mark (w : Walk) (name : String) (ready : Bool) : w.Adds [] (w.mark name ready) := by
  obtain ⟨scopes, _, _, _, _⟩ := w
  cases scopes <;> exact ⟨rfl, rfl, List.prefix_refl _, [], rfl, by simp⟩

theorem declare (w : Walk) (name : Token) : w.Adds [] (w.declare name) := by
  unfold Walk.declare
  split
  · exact .refl w
  · split
    · exact .reportIf w true _ _
    · exact .mark w _ _

theorem introduce (w : Walk) (name : Token) : w.Adds [] (w.introduce name) :=
  (Adds.declare w name).trans (.mark _ _ _)

theorem parameters (names : List Token) (w : Walk) : w.Adds [] (names.foldl Walk.introduce w) := by
  induction names generalizing w with
  | nil => exact .refl w
  | cons name names ih => exact (Adds.introduce w name).trans (ih _)

theorem lookUp (w : Walk) (target : Reference) : w.Adds [target.id] (w.lookUp target) := by
  unfold Walk.lookUp
  split
  · exact (Adds.refl w).mono (List.nil_subset _)
  · exact ⟨rfl, rfl, List.prefix_refl _, [_], rfl, by simp⟩

theorem inScope (w : Walk) (h : ∀ w : Walk, w.Adds ids (inner w)) : w.Adds ids (w.inScope inner) :=
  have hinner := h { w with scopes := .empty :: w.scopes }
  ⟨hinner.function, hinner.cls, hinner.errors, hinner.found⟩

theorem inScopeOf (w : Walk) (name : Keyword) (h : ∀ w : Walk, w.Adds ids (inner w)) :
    w.Adds ids (w.inScopeOf name inner) :=
  .inScope w fun w => (Adds.mark w _ _).trans (h _)

/-- The function around is put back. -/
theorem inFunction (w : Walk) (context : FunctionContext) (h : ∀ w : Walk, w.Adds ids (inner w)) :
    w.Adds ids (w.inFunction context inner) :=
  have hinner := h { w with function := context }
  ⟨rfl, hinner.cls, hinner.errors, hinner.found⟩

/-- The class around is put back. -/
theorem inClass (w : Walk) (cls : ClassContext) (h : ∀ w : Walk, w.Adds ids (inner w)) :
    w.Adds ids (w.inClass cls inner) :=
  have hinner := h { w with cls }
  ⟨hinner.function, rfl, hinner.errors, hinner.found⟩

end Adds

end Walk

mutual

theorem Expr.walk_adds : ∀ (e : Expr) (w : Walk), w.Adds e.ids (e.walk w)
  | .literal _, w => .refl w
  | .variable target, w => (Walk.Adds.reportIf w _ _ _).trans (.lookUp _ target)
  | .receiver target, w => by
      rw [Expr.walk]
      split
      · exact (Walk.Adds.reportIf w true _ _).mono (List.nil_subset _)
      · exact .lookUp w target
  | .inherited target _, w => by
      rw [Expr.walk]
      refine Walk.Adds.trans (?_ : w.Adds [] _) (.lookUp _ target)
      split
      · exact .reportIf w true _ _
      · exact .reportIf w true _ _
      · exact .refl w
  | .grouping inner, w => Expr.walk_adds inner w
  | .unary _ _ operand, w => Expr.walk_adds operand w
  | .binary _ _ left right, w => (Expr.walk_adds left w).trans (Expr.walk_adds right _)
  | .logical _ _ left right, w => (Expr.walk_adds left w).trans (Expr.walk_adds right _)
  | .assign target value, w => (Expr.walk_adds value w).trans (.lookUp _ target)
  | .get object _, w => Expr.walk_adds object w
  | .set object _ value, w =>
      ((Expr.walk_adds value w).trans (Expr.walk_adds object _)).mono
        List.perm_append_comm.subset
  | .call callee _ arguments, w =>
      (Expr.walk_adds callee w).trans (Expr.walkAll_adds arguments _)

theorem Expr.walkAll_adds : ∀ (es : List Expr) (w : Walk),
    w.Adds (Expr.idsAll es) (Expr.walkAll es w)
  | [], w => .refl w
  | e :: es, w => (Expr.walk_adds e w).trans (Expr.walkAll_adds es _)

end

theorem Expr.walkOptional_adds (e : Option Expr) (w : Walk) :
    w.Adds (Expr.idsOptional e) (Expr.walkOptional e w) := by
  cases e with
  | none => exact .refl w
  | some e => exact e.walk_adds w

mutual

theorem Stmt.walk_adds : ∀ (s : Stmt) (w : Walk), w.Adds s.ids (s.walk w)
  | .expression value, w => value.walk_adds w
  | .print value, w => value.walk_adds w
  | .varDecl name initializer, w => by
      have hnamed := (Walk.Adds.declare w name).trans (Expr.walkOptional_adds initializer _)
      exact (hnamed.trans (.mark _ name.lexeme true)).mono (by simp [Stmt.ids])
  | .funDecl function, w => (Walk.Adds.introduce w _).trans (FunctionDecl.walk_adds function _ _)
  | .classDecl name none methods, w =>
      .inClass w _ fun w => (Walk.Adds.introduce w name).trans
        (.inScopeOf _ .this (FunctionDecl.walkAll_adds methods))
  | .classDecl name (some superclass) methods, w =>
      .inClass w _ fun w => (Walk.Adds.introduce w name).trans <|
        (Walk.Adds.reportIf _ _ _ _).trans <|
          (Expr.walk_adds (.variable superclass) _).trans
            (.inScopeOf _ .super fun w => .inScopeOf w .this (FunctionDecl.walkAll_adds methods))
  | .block body, w => .inScope w (Stmt.walkAll_adds body)
  | .branch condition yes no, w =>
      (condition.walk_adds w).trans ((Stmt.walk_adds yes _).trans (Stmt.walkOptional_adds no _))
  | .loop condition body, w => (condition.walk_adds w).trans (Stmt.walk_adds body _)
  | .ret keyword value, w =>
      (Walk.Adds.reportIf w _ _ _).trans
        ((Walk.Adds.reportIf _ _ _ _).trans (Expr.walkOptional_adds value _))

theorem FunctionDecl.walk_adds : ∀ (d : FunctionDecl) (context : FunctionContext) (w : Walk),
    w.Adds d.ids (d.walk context w)
  | ⟨_, parameters, body⟩, context, w =>
      .inFunction w context fun w => .inScope w fun w =>
        (Walk.Adds.parameters parameters w).trans (Stmt.walkAll_adds body _)

theorem Stmt.walkAll_adds : ∀ (ss : List Stmt) (w : Walk),
    w.Adds (Stmt.idsAll ss) (Stmt.walkAll ss w)
  | [], w => .refl w
  | s :: ss, w => (Stmt.walk_adds s w).trans (Stmt.walkAll_adds ss _)

theorem FunctionDecl.walkAll_adds : ∀ (ds : List FunctionDecl) (w : Walk),
    w.Adds (FunctionDecl.idsAll ds) (FunctionDecl.walkAll ds w)
  | [], w => .refl w
  | d :: ds, w => (FunctionDecl.walk_adds d _ w).trans (FunctionDecl.walkAll_adds ds _)

theorem Stmt.walkOptional_adds : ∀ (s : Option Stmt) (w : Walk),
    w.Adds (Stmt.idsOptional s) (Stmt.walkOptional s w)
  | none, w => .refl w
  | some s, w => Stmt.walk_adds s w

end

/-! ## What becomes of the scopes -/

/-- Whether scopes are as they were, except that some names are declared and ready in the
innermost one, if there is one. -/
inductive Scopes.Readied (names : List String) : Scopes → Scopes → Prop
  | outside : Readied names [] []
  | inside {scope scope' : NameMap Bool} (outer : Scopes)
      (h : ∀ name, scope'.get? name = if name ∈ names then some true else scope.get? name) :
      Readied names (scope :: outer) (scope' :: outer)

namespace Scopes.Readied

variable {names others : List String} {Γ Γ' Γ'' : Scopes} {scope : NameMap Bool}

theorem refl (Γ : Scopes) : Readied [] Γ Γ := by
  cases Γ with
  | nil => exact .outside
  | cons scope outer => exact .inside outer fun name => (if_neg (by simp)).symm

theorem trans (h : Readied names Γ Γ') (h' : Readied others Γ' Γ'') :
    Readied (names ++ others) Γ Γ'' := by
  cases h with
  | outside =>
    cases h' with
    | outside => exact .outside
  | inside outer hscope =>
    cases h' with
    | inside _ hscope' =>
      refine .inside outer fun name => ?_
      rw [hscope', hscope]
      by_cases hname : name ∈ names <;> by_cases hother : name ∈ others <;> simp [hname, hother]

theorem mark (Γ : Scopes) (name : String) : Readied [name] Γ (Γ.mark name true) := by
  cases Γ with
  | nil => exact .outside
  | cons scope outer =>
    refine .inside outer fun other => ?_
    rw [NameMap.get?_insert]
    simp [eq_comm]

theorem introduce (Γ : Scopes) (name : Token) : Readied [name.lexeme] Γ (Γ.introduce name) := by
  cases Γ with
  | nil => exact .outside
  | cons scope outer =>
    refine .inside outer fun other => ?_
    rw [NameMap.get?_insert, NameMap.get?_insert]
    by_cases hname : name.lexeme = other
    · simp [hname]
    · simp [hname, Ne.symm hname]

theorem length_eq (h : Readied names Γ Γ') : Γ'.length = Γ.length := by
  cases h <;> rfl

theorem tail_eq (h : Readied names Γ Γ') : Γ'.tail = Γ.tail := by
  cases h <;> rfl

theorem eq_nil (h : Readied names [] Γ) : Γ = [] := by
  cases h
  rfl

theorem innermost (h : Readied names Γ Γ') : ∀ scope ∈ Γ.head?, ∃ scope' ∈ Γ'.head?, ∀ name,
    scope'.get? name = if name ∈ names then some true else scope.get? name := by
  cases h with
  | outside => simp
  | inside outer hscope => simpa using hscope

end Scopes.Readied

/-- A name that is declared is in the innermost scope as it was, or not yet ready there. -/
theorem Walk.scopes_declare_cases (w : Walk) (name : Token) :
    (w.declare name).scopes = w.scopes ∨
      (w.declare name).scopes = Scopes.mark w.scopes name.lexeme false := by
  unfold declare
  split
  next => exact .inl rfl
  next =>
    split
    · exact .inl rfl
    · exact .inr (scopes_mark w _ _)

theorem Walk.declare_readied (w : Walk) (name : Token) :
    Scopes.Readied [name.lexeme] w.scopes
      (Scopes.mark (w.declare name).scopes name.lexeme true) := by
  obtain h | h := w.scopes_declare_cases name
  · exact h ▸ .mark _ _
  · exact h ▸ .introduce w.scopes name

theorem Walk.introduce_readied (w : Walk) (name : Token) :
    Scopes.Readied [name.lexeme] w.scopes (w.introduce name).scopes := by
  rw [introduce, define, scopes_mark]
  exact w.declare_readied name

theorem Stmt.classDecl_readied (name : Token) (superclass : Option Reference)
    (methods : List FunctionDecl) (w : Walk) :
    Scopes.Readied [name.lexeme] w.scopes
      ((Stmt.classDecl name superclass methods).walk w).scopes := by
  have hmethods (w : Walk) :
      (w.inScopeOf .this (FunctionDecl.walkAll methods)).scopes = w.scopes :=
    w.scopes_inScopeOf_of_tail .this fun w =>
      congrArg List.tail (FunctionDecl.scopes_walkAll_eq methods w)
  cases superclass with
  | none =>
    have hnamed := ({ w with cls := .base } : Walk).introduce_readied name
    exact (hmethods _).symm ▸ hnamed
  | some superclass =>
    have hnamed := ({ w with cls := .derived } : Walk).introduce_readied name
    have hopened := ((Expr.variable superclass).walk
      (({ w with cls := .derived } : Walk).inheriting name superclass)).scopes_inScopeOf_of_tail
        .super fun w => congrArg List.tail (hmethods w)
    rw [Expr.scopes_walk, Walk.inheriting, Walk.scopes_reportIf] at hopened
    exact hopened.symm ▸ hnamed

mutual

theorem Stmt.walk_readied : ∀ (s : Stmt) (w : Walk),
    Scopes.Readied (s.names.map Token.lexeme) w.scopes (s.walk w).scopes
  | .expression value, w => (value.scopes_walk w).symm ▸ .refl _
  | .print value, w => (value.scopes_walk w).symm ▸ .refl _
  | .varDecl name initializer, w => by
      rw [Stmt.walk, Walk.define, Walk.scopes_mark, Expr.scopes_walkOptional]
      exact w.declare_readied name
  | .funDecl function, w => by
      rw [Stmt.walk, FunctionDecl.scopes_walk_eq]
      exact w.introduce_readied function.name
  | .classDecl name superclass methods, w => Stmt.classDecl_readied name superclass methods w
  | .block body, w => (w.scopes_inScope (Stmt.tail_scopes_walkAll body)).symm ▸ .refl _
  | .branch condition yes no, w => by
      have hyes := Stmt.walk_readied yes (condition.walk w)
      rw [condition.scopes_walk] at hyes
      rw [Stmt.names, List.map_append]
      exact hyes.trans (Stmt.walkOptional_readied no _)
  | .loop condition body, w => by
      have hbody := Stmt.walk_readied body (condition.walk w)
      rwa [condition.scopes_walk] at hbody
  | .ret keyword value, w => by
      rw [Stmt.walk, Expr.scopes_walkOptional, Walk.scopes_reportIf, Walk.scopes_reportIf]
      exact .refl _

theorem Stmt.walkOptional_readied : ∀ (s : Option Stmt) (w : Walk),
    Scopes.Readied ((Stmt.namesOptional s).map Token.lexeme) w.scopes (Stmt.walkOptional s w).scopes
  | none, _ => .refl _
  | some s, w => Stmt.walk_readied s w

end

/-! ## What came before -/

namespace Walk

/-- The same walk after more was reported and found. -/
def behind (earlier w : Walk) : Walk :=
  { w with errors := earlier.errors ++ w.errors, found := w.found ++ earlier.found }

variable (earlier w : Walk)

@[simp] theorem cls_behind : (behind earlier w).cls = w.cls := rfl

@[simp] theorem function_behind : (behind earlier w).function = w.function := rfl

@[simp] theorem isUnready_behind (name : Token) :
    (behind earlier w).isUnready name = w.isUnready name := rfl

theorem report_behind (cause : ScopingCause) (token : Token) :
    (behind earlier w).report cause token = behind earlier (w.report cause token) := by
  simp [report, behind]

theorem reportIf_behind (breach : Bool) (cause : ScopingCause) (token : Token) :
    (behind earlier w).reportIf breach cause token =
      behind earlier (w.reportIf breach cause token) := by
  cases breach with
  | true => exact report_behind earlier w cause token
  | false => rfl

theorem mark_behind (name : String) (ready : Bool) :
    (behind earlier w).mark name ready = behind earlier (w.mark name ready) := by
  obtain ⟨scopes, _, _, _, _⟩ := w
  cases scopes <;> rfl

theorem declare_behind (name : Token) :
    (behind earlier w).declare name = behind earlier (w.declare name) := by
  obtain ⟨scopes, _, _, _, _⟩ := w
  cases scopes with
  | nil => rfl
  | cons scope outer =>
    rw [declare, declare]
    simp only [report_behind, mark_behind]
    exact (apply_ite (behind earlier) _ _ _).symm

theorem introduce_behind (name : Token) :
    (behind earlier w).introduce name = behind earlier (w.introduce name) := by
  rw [introduce, declare_behind, define, mark_behind, introduce, define]

theorem foldl_introduce_behind (names : List Token) (w : Walk) :
    names.foldl introduce (behind earlier w) = behind earlier (names.foldl introduce w) := by
  induction names generalizing w with
  | nil => rfl
  | cons name names ih => rw [List.foldl_cons, introduce_behind, ih, List.foldl_cons]

theorem lookUp_behind (target : Reference) :
    (behind earlier w).lookUp target = behind earlier (w.lookUp target) := by
  unfold lookUp
  simp only [behind]
  split <;> rfl

variable {earlier} {inner : Walk → Walk}

theorem inScope_behind (h : ∀ w, inner (behind earlier w) = behind earlier (inner w)) :
    (behind earlier w).inScope inner = behind earlier (w.inScope inner) := by
  have hinner := h { w with scopes := .empty :: w.scopes }
  unfold inScope
  simp only
  rw [show ({ behind earlier w with scopes := .empty :: (behind earlier w).scopes } : Walk) =
    behind earlier { w with scopes := .empty :: w.scopes } from rfl, hinner]
  rfl

theorem inScopeOf_behind (name : Keyword)
    (h : ∀ w, inner (behind earlier w) = behind earlier (inner w)) :
    (behind earlier w).inScopeOf name inner = behind earlier (w.inScopeOf name inner) := by
  apply inScope_behind
  intro w
  rw [mark_behind, h]

theorem inFunction_behind (context : FunctionContext)
    (h : ∀ w, inner (behind earlier w) = behind earlier (inner w)) :
    (behind earlier w).inFunction context inner = behind earlier (w.inFunction context inner) := by
  have hinner := h { w with function := context }
  unfold inFunction
  rw [show ({ behind earlier w with function := context } : Walk) =
    behind earlier { w with function := context } from rfl, hinner]
  rfl

theorem inClass_behind (cls : ClassContext)
    (h : ∀ w, inner (behind earlier w) = behind earlier (inner w)) :
    (behind earlier w).inClass cls inner = behind earlier (w.inClass cls inner) := by
  have hinner := h { w with cls }
  unfold inClass
  rw [show ({ behind earlier w with cls } : Walk) = behind earlier { w with cls } from rfl, hinner]
  rfl

end Walk

section

variable (earlier : Walk)

mutual

theorem Expr.walk_behind : ∀ (e : Expr) (w : Walk),
    e.walk (.behind earlier w) = .behind earlier (e.walk w)
  | .literal _, _ => rfl
  | .variable target, w => by
      rw [Expr.walk, Expr.walk, Walk.isUnready_behind, Walk.reportIf_behind, Walk.lookUp_behind]
  | .receiver target, w => by
      rw [Expr.walk, Expr.walk, Walk.cls_behind]
      cases w.cls with
      | none => exact earlier.report_behind w _ _
      | _ => exact earlier.lookUp_behind w target
  | .inherited target method, w => by
      rw [Expr.walk, Expr.walk, Walk.cls_behind]
      cases w.cls with
      | derived => exact earlier.lookUp_behind w target
      | _ =>
        exact (congrArg (Walk.lookUp · _) (earlier.report_behind w _ _)).trans
          (earlier.lookUp_behind _ target)
  | .grouping inner, w => Expr.walk_behind inner w
  | .unary _ _ operand, w => Expr.walk_behind operand w
  | .binary _ _ left right, w => by
      rw [Expr.walk, Expr.walk_behind left, Expr.walk_behind right, Expr.walk]
  | .logical _ _ left right, w => by
      rw [Expr.walk, Expr.walk_behind left, Expr.walk_behind right, Expr.walk]
  | .assign target value, w => by
      rw [Expr.walk, Expr.walk_behind value, Walk.lookUp_behind, Expr.walk]
  | .get object _, w => Expr.walk_behind object w
  | .set object _ value, w => by
      rw [Expr.walk, Expr.walk_behind value, Expr.walk_behind object, Expr.walk]
  | .call callee _ arguments, w => by
      rw [Expr.walk, Expr.walk_behind callee, Expr.walkAll_behind arguments, Expr.walk]

theorem Expr.walkAll_behind : ∀ (es : List Expr) (w : Walk),
    Expr.walkAll es (.behind earlier w) = .behind earlier (Expr.walkAll es w)
  | [], _ => rfl
  | e :: es, w => by
      rw [Expr.walkAll, Expr.walk_behind e, Expr.walkAll_behind es, Expr.walkAll]

end

theorem Expr.walkOptional_behind (e : Option Expr) (w : Walk) :
    Expr.walkOptional e (.behind earlier w) = .behind earlier (Expr.walkOptional e w) := by
  cases e with
  | none => rfl
  | some e => exact e.walk_behind earlier w

mutual

theorem Stmt.walk_behind : ∀ (s : Stmt) (w : Walk),
    s.walk (.behind earlier w) = .behind earlier (s.walk w)
  | .expression value, w => value.walk_behind earlier w
  | .print value, w => value.walk_behind earlier w
  | .varDecl name initializer, w => by
      rw [Stmt.walk, Walk.declare_behind, Expr.walkOptional_behind, Walk.define, Walk.mark_behind,
        Stmt.walk, Walk.define]
  | .funDecl function, w => by
      rw [Stmt.walk, Walk.introduce_behind, FunctionDecl.walk_behind function, Stmt.walk]
  | .classDecl name none methods, w => by
      rw [Stmt.walk, Stmt.walk]
      apply Walk.inClass_behind
      intro w
      rw [Walk.introduce_behind]
      apply Walk.inScopeOf_behind
      exact FunctionDecl.walkAll_behind methods
  | .classDecl name (some superclass) methods, w => by
      rw [Stmt.walk, Stmt.walk]
      apply Walk.inClass_behind
      intro w
      simp only [Walk.introduce_behind, Walk.reportIf_behind, Expr.walk_behind]
      apply Walk.inScopeOf_behind
      intro w
      apply Walk.inScopeOf_behind
      exact FunctionDecl.walkAll_behind methods
  | .block body, w => by
      rw [Stmt.walk, Stmt.walk]
      apply Walk.inScope_behind
      exact Stmt.walkAll_behind body
  | .branch condition yes no, w => by
      rw [Stmt.walk, Expr.walk_behind, Stmt.walk_behind yes, Stmt.walkOptional_behind no, Stmt.walk]
  | .loop condition body, w => by
      rw [Stmt.walk, Expr.walk_behind, Stmt.walk_behind body, Stmt.walk]
  | .ret keyword value, w => by
      rw [Stmt.walk, Stmt.walk]
      simp only [Walk.function_behind, Walk.reportIf_behind, Expr.walkOptional_behind]

theorem FunctionDecl.walk_behind : ∀ (d : FunctionDecl) (context : FunctionContext) (w : Walk),
    d.walk context (.behind earlier w) = .behind earlier (d.walk context w)
  | ⟨_, parameters, body⟩, context, w => by
      rw [FunctionDecl.walk, FunctionDecl.walk]
      apply Walk.inFunction_behind
      intro w
      apply Walk.inScope_behind
      intro w
      rw [Walk.foldl_introduce_behind, Stmt.walkAll_behind body]

theorem Stmt.walkAll_behind : ∀ (ss : List Stmt) (w : Walk),
    Stmt.walkAll ss (.behind earlier w) = .behind earlier (Stmt.walkAll ss w)
  | [], _ => rfl
  | s :: ss, w => by
      rw [Stmt.walkAll, Stmt.walk_behind s, Stmt.walkAll_behind ss, Stmt.walkAll]

theorem FunctionDecl.walkAll_behind : ∀ (ds : List FunctionDecl) (w : Walk),
    FunctionDecl.walkAll ds (.behind earlier w) = .behind earlier (FunctionDecl.walkAll ds w)
  | [], _ => rfl
  | d :: ds, w => by
      rw [FunctionDecl.walkAll, FunctionDecl.walk_behind d, FunctionDecl.walkAll_behind ds,
        FunctionDecl.walkAll]

theorem Stmt.walkOptional_behind : ∀ (s : Option Stmt) (w : Walk),
    Stmt.walkOptional s (.behind earlier w) = .behind earlier (Stmt.walkOptional s w)
  | none, _ => rfl
  | some s, w => Stmt.walk_behind s w

end

end

/-! ## Balance -/

/-- Outside of all scopes no name is kept. -/
theorem Stmt.scopes_walkAll_of_nil (ss : List Stmt) {w : Walk} (h : w.scopes = []) :
    (Stmt.walkAll ss w).scopes = [] := by
  induction ss generalizing w with
  | nil => exact h
  | cons s ss ih => exact ih (Scopes.Readied.eq_nil (h ▸ s.walk_readied w))

/-- What a statement adds outside of all scopes. -/
theorem Stmt.walk_outside (s : Stmt) {w : Walk} (h : w.scopes = []) :
    s.walk w = { w with
      errors := w.errors ++ (s.walk ⟨[], w.function, w.cls, [], []⟩).errors
      found := (s.walk ⟨[], w.function, w.cls, [], []⟩).found ++ w.found } := by
  obtain ⟨scopes, context, cls, found, errors⟩ := w
  cases h
  have hscopes := Scopes.Readied.eq_nil (s.walk_readied ⟨[], context, cls, [], []⟩)
  have hadds := s.walk_adds ⟨[], context, cls, [], []⟩
  have hbehind : (⟨[], context, cls, found, errors⟩ : Walk) =
      .behind ⟨[], context, cls, found, errors⟩ ⟨[], context, cls, [], []⟩ := by
    simp [Walk.behind]
  rw [hbehind, s.walk_behind]
  simp only [Walk.behind, hscopes, hadds.function, hadds.cls, List.append_nil, List.nil_append]

namespace Walk

/-- What a walk over a piece of program that declares some names does between its start
and its end: the scopes are those that were open, only that the names are ready in the
innermost one, the function and the class around are the same, what was reported stands in
front of what is reported, and what was found about other references is still known. -/
structure Balanced (names : List String) (ids : List NodeId) (w w' : Walk) : Prop where
  length : w'.scopes.length = w.scopes.length
  outer : w'.scopes.tail = w.scopes.tail
  innermost : ∀ scope ∈ w.scopes.head?, ∃ scope' ∈ w'.scopes.head?, ∀ name,
    scope'.get? name = if name ∈ names then some true else scope.get? name
  function : w'.function = w.function
  cls : w'.cls = w.cls
  errors : w.errors <+: w'.errors
  found : w.found <:+ w'.found
  table : ∀ id, id ∉ ids → w'.table[id]? = w.table[id]?

theorem Adds.balanced {names : List String} {ids : List NodeId} {w w' : Walk} (h : w.Adds ids w')
    (hscopes : Scopes.Readied names w.scopes w'.scopes) : w.Balanced names ids w' where
  length := hscopes.length_eq
  outer := hscopes.tail_eq
  innermost := hscopes.innermost
  function := h.function
  cls := h.cls
  errors := h.errors
  found := by
    obtain ⟨new, hnew, -⟩ := h.found
    exact ⟨new, hnew.symm⟩
  table := fun _ hid => h.table hid

end Walk

/-- Walks are balanced, wherever they start and whatever they report. A statement makes
the names ready that it declares, in the innermost scope, and an expression leaves all
scopes as they are. Outside of all scopes what a statement adds is the same behind all
statements. -/
theorem walks_are_balanced (w : Walk) :
    (∀ s : Stmt, w.Balanced (s.names.map Token.lexeme) s.ids (s.walk w)) ∧
    (∀ e : Expr, w.Balanced [] e.ids (e.walk w) ∧ (e.walk w).scopes = w.scopes) ∧
    ∀ s : Stmt, w.scopes = [] → ∃ errors found, ∀ before : List Stmt,
      (Stmt.walkAll before w).scopes = [] ∧
      s.walk (Stmt.walkAll before w) = { Stmt.walkAll before w with
        errors := (Stmt.walkAll before w).errors ++ errors
        found := found ++ (Stmt.walkAll before w).found } := by
  refine ⟨fun s => (s.walk_adds w).balanced (s.walk_readied w), fun e => ⟨?_, e.scopes_walk w⟩,
    fun s hw => ?_⟩
  · exact (e.walk_adds w).balanced (e.scopes_walk w ▸ .refl _)
  · refine ⟨(s.walk ⟨[], w.function, w.cls, [], []⟩).errors,
      (s.walk ⟨[], w.function, w.cls, [], []⟩).found, fun before => ?_⟩
    have hscopes := Stmt.scopes_walkAll_of_nil before hw
    have hadds := Stmt.walkAll_adds before w
    refine ⟨hscopes, ?_⟩
    simpa only [hadds.function, hadds.cls] using s.walk_outside hscopes

/-- A block that breaks several rules adds the same behind a function as on its own. -/
theorem walks_are_balanced_block : ∃ tokens first second nextId errors found,
    (lex ("fun a() \x7b return a; \x7d \x7b var b = b; var b; " ++
      "class a < a \x7b init() \x7b return b; \x7d \x7d this; \x7d")).toExcept = .ok tokens ∧
      parseProgram tokens 0 = (.ok [first, second], nextId) ∧ Walk.start.scopes = [] ∧
      errors.map (fun e : ScopingError => (e.cause, e.token.lexeme)) =
        [(.readInOwnInitializer, "b"), (.redeclaration, "b"), (.inheritsFromItself, "a"),
          (.returnValueFromInitializer, "return"), (.thisOutsideClass, "this")] ∧
      found.map (fun e : NodeId × Binding => (e.2.name, e.2.depth)) =
        [("b", 3), ("a", 0), ("b", 0)] ∧
      second.walk .start = { Walk.start with errors := errors, found := found } ∧
      second.walk (first.walk .start) = { first.walk .start with
        errors := (first.walk .start).errors ++ errors
        found := found ++ (first.walk .start).found } ∧
      (first.walk .start).Balanced (second.names.map Token.lexeme) second.ids
        (second.walk (first.walk .start)) := by
  obtain ⟨tokens, first, second, nextId, hlex, hparse, herrors, hfound⟩ :
      ∃ tokens first second nextId,
        (lex ("fun a() \x7b return a; \x7d \x7b var b = b; var b; " ++
          "class a < a \x7b init() \x7b return b; \x7d \x7d this; \x7d")).toExcept =
            .ok tokens ∧
        parseProgram tokens 0 = (.ok [first, second], nextId) ∧
        (second.walk .start).errors.map (fun e => (e.cause, e.token.lexeme)) =
          [(.readInOwnInitializer, "b"), (.redeclaration, "b"), (.inheritsFromItself, "a"),
            (.returnValueFromInitializer, "return"), (.thisOutsideClass, "this")] ∧
        (second.walk .start).found.map (fun e => (e.2.name, e.2.depth)) =
          [("b", 3), ("a", 0), ("b", 0)] :=
    ⟨_, _, _, _, by cbv, by cbv, by cbv, by cbv⟩
  obtain ⟨errors, found, hadded⟩ := (walks_are_balanced .start).2.2 second rfl
  have halone : second.walk .start = { Walk.start with errors := errors, found := found } := by
    simpa [Walk.start, Stmt.walkAll] using (hadded []).2
  rw [halone] at herrors hfound
  exact ⟨tokens, first, second, nextId, errors, found, hlex, hparse, rfl, herrors, hfound, halone,
    (hadded [first]).2, (walks_are_balanced (first.walk .start)).1 second⟩

end Lox
