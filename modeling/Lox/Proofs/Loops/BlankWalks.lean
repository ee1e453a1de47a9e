import Lox.Proofs.Mirror.Visited

/-!
# Walks through blank scopes

A walk comes out of every piece of program with the scopes around it that it went in with,
and out of a statement that declares nothing with all of its scopes. From inside a blank
scope it notes for an expression what it would note outside, only that every name is one
scope further out.
-/

namespace Lox

/-! ## The scopes around a walk -/

namespace Walk

@[simp] theorem tail_scopes_mark (w : Walk) (name : String) (ready : Bool) :
    (w.mark name ready).scopes.tail = w.scopes.tail := by
  rw [scopes_mark, Scopes.tail_mark]

@[simp] theorem tail_scopes_declare (w : Walk) (name : Token) :
    (w.declare name).scopes.tail = w.scopes.tail := by
  unfold declare
  split
  · rfl
  · split
    · rfl
    · exact tail_scopes_mark w _ _

@[simp] theorem tail_scopes_introduce (w : Walk) (name : Token) :
    (w.introduce name).scopes.tail = w.scopes.tail := by
  rw [introduce, define, tail_scopes_mark, tail_scopes_declare]

@[simp] theorem tail_scopes_foldl_introduce (names : List Token) (w : Walk) :
    (names.foldl introduce w).scopes.tail = w.scopes.tail := by
  induction names generalizing w with
  | nil => rfl
  | cons name names ih => rw [List.foldl_cons, ih, tail_scopes_introduce]

theorem scopes_inScope (w : Walk) {inner : Walk → Walk}
    (h : ∀ w, (inner w).scopes.tail = w.scopes.tail) : (w.inScope inner).scopes = w.scopes :=
  h { w with scopes := .empty :: w.scopes }

theorem scopes_inScopeOf_of_tail (w : Walk) (name : Keyword) {inner : Walk → Walk}
    (h : ∀ w, (inner w).scopes.tail = w.scopes.tail) :
    (w.inScopeOf name inner).scopes = w.scopes :=
  w.scopes_inScope fun w => (h _).trans (tail_scopes_mark w _ _)

end Walk

mutual

/-- Names are only declared in the innermost scope. -/
theorem Stmt.tail_scopes_walk : ∀ (s : Stmt) (w : Walk), (s.walk w).scopes.tail = w.scopes.tail
  | .expression value, w => congrArg List.tail (value.scopes_walk w)
  | .print value, w => congrArg List.tail (value.scopes_walk w)
  | .varDecl name initializer, w => by
      rw [Stmt.walk, Walk.define, Walk.tail_scopes_mark, Expr.scopes_walkOptional,
        Walk.tail_scopes_declare]
  | .funDecl function, w => by
      rw [Stmt.walk, FunctionDecl.scopes_walk_eq, Walk.tail_scopes_introduce]
  | .classDecl name none methods, w => by
      have hmethods := ({ w with cls := .base }.introduce name).scopes_inScopeOf_of_tail .this
        fun w => congrArg List.tail (FunctionDecl.scopes_walkAll_eq methods w)
      exact (congrArg List.tail hmethods).trans (Walk.tail_scopes_introduce _ name)
  | .classDecl name (some superclass) methods, w => by
      have hmethods (w : Walk) := w.scopes_inScopeOf_of_tail .this
        fun w => congrArg List.tail (FunctionDecl.scopes_walkAll_eq methods w)
      have hopened := ((Expr.variable superclass).walk
        ({ w with cls := .derived }.inheriting name superclass)).scopes_inScopeOf_of_tail .super
          fun w => congrArg List.tail (hmethods w)
      refine (congrArg List.tail hopened).trans ?_
      rw [Expr.scopes_walk, Walk.inheriting, Walk.scopes_reportIf, Walk.tail_scopes_introduce]
  | .block body, w =>
      congrArg List.tail (w.scopes_inScope (Stmt.tail_scopes_walkAll body))
  | .branch condition yes no, w => by
      rw [Stmt.walk, Stmt.tail_scopes_walkOptional, Stmt.tail_scopes_walk yes,
        condition.scopes_walk]
  | .loop condition body, w => by
      rw [Stmt.walk, Stmt.tail_scopes_walk body, condition.scopes_walk]
  | .ret keyword value, w => by
      rw [Stmt.walk, Expr.scopes_walkOptional, Walk.scopes_reportIf, Walk.scopes_reportIf]

/-- The scope of a function is left at its end. -/
theorem FunctionDecl.scopes_walk_eq : ∀ (d : FunctionDecl) (context : FunctionContext) (w : Walk),
    (d.walk context w).scopes = w.scopes
  | ⟨_, parameters, body⟩, context, w =>
      { w with function := context }.scopes_inScope fun w =>
        (Stmt.tail_scopes_walkAll body _).trans (w.tail_scopes_foldl_introduce parameters)

theorem Stmt.tail_scopes_walkAll : ∀ (ss : List Stmt) (w : Walk),
    (Stmt.walkAll ss w).scopes.tail = w.scopes.tail
  | [], _ => rfl
  | s :: ss, w => (Stmt.tail_scopes_walkAll ss _).trans (Stmt.tail_scopes_walk s w)

theorem FunctionDecl.scopes_walkAll_eq : ∀ (ds : List FunctionDecl) (w : Walk),
    (FunctionDecl.walkAll ds w).scopes = w.scopes
  | [], _ => rfl
  | d :: ds, w => (FunctionDecl.scopes_walkAll_eq ds _).trans (FunctionDecl.scopes_walk_eq d _ w)

theorem Stmt.tail_scopes_walkOptional : ∀ (s : Option Stmt) (w : Walk),
    (Stmt.walkOptional s w).scopes.tail = w.scopes.tail
  | none, _ => rfl
  | some s, w => Stmt.tail_scopes_walk s w

end

mutual

/-- A statement that declares nothing leaves the scopes as they are. -/
theorem Stmt.IsBare.scopes_walk : ∀ {s : Stmt}, s.IsBare → ∀ w : Walk, (s.walk w).scopes = w.scopes
  | .expression value, _, w => value.scopes_walk w
  | .print value, _, w => value.scopes_walk w
  | .block body, _, w => w.scopes_inScope (Stmt.tail_scopes_walkAll body)
  | .branch condition _ _, ⟨hyes, hno⟩, w => by
      rw [Stmt.walk, Stmt.IsBareOptional.scopes_walk hno, Stmt.IsBare.scopes_walk hyes,
        condition.scopes_walk]
  | .loop condition body, h, w => by
      rw [Stmt.walk, Stmt.IsBare.scopes_walk (s := body) h, condition.scopes_walk]
  | .ret keyword value, _, w => by
      rw [Stmt.walk, Expr.scopes_walkOptional, Walk.scopes_reportIf, Walk.scopes_reportIf]

theorem Stmt.IsBareOptional.scopes_walk : ∀ {s : Option Stmt}, Stmt.IsBareOptional s →
    ∀ w : Walk, (Stmt.walkOptional s w).scopes = w.scopes
  | none, _, _ => rfl
  | some s, h, w => Stmt.IsBare.scopes_walk (s := s) h w

end

/-! ## From inside a blank scope -/

/-- What is noted for a name from one scope further in. -/
def Binding.inward (b : Binding) : Binding :=
  { b with depth := b.depth + 1 }

/-- Whether one walk is where another is, but inside a blank scope, and has noted since
then what the other has noted, with every name one scope further out. -/
structure Walk.Inward (base base' : List (NodeId × Binding)) (w w' : Walk) : Prop where
  scopes : w'.scopes = .empty :: w.scopes
  cls : w'.cls = w.cls
  found : ∃ new, w.found = new ++ base ∧ w'.found = new.map (Prod.map id Binding.inward) ++ base'

namespace Walk.Inward

variable {base base' : List (NodeId × Binding)} {w w' : Walk}

theorem reportIf (h : Walk.Inward base base' w w') (breach breach' : Bool) (cause : ScopingCause)
    (token : Token) :
    Walk.Inward base base' (w.reportIf breach cause token) (w'.reportIf breach' cause token) := by
  cases breach <;> cases breach' <;> exact ⟨h.scopes, h.cls, h.found⟩

theorem lookUp (h : Walk.Inward base base' w w') (target : Reference) :
    Walk.Inward base base' (w.lookUp target) (w'.lookUp target) := by
  have hindex : w'.scopes.findIdx? (·.contains target.name.lexeme) =
      (w.scopes.findIdx? (·.contains target.name.lexeme)).map (· + 1) := by
    rw [h.scopes]
    exact Scopes.depth?_empty_cons
  unfold Walk.lookUp
  rw [hindex]
  cases w.scopes.findIdx? (·.contains target.name.lexeme) with
  | none => exact h
  | some depth =>
    obtain ⟨new, hnew, hnew'⟩ := h.found
    exact ⟨h.scopes, h.cls, _ :: new, congrArg _ hnew, congrArg _ hnew'⟩

end Walk.Inward

mutual

theorem Expr.walk_inward {base base' : List (NodeId × Binding)} : ∀ (e : Expr) {w w' : Walk},
    Walk.Inward base base' w w' → Walk.Inward base base' (e.walk w) (e.walk w')
  | .literal _, _, _, h => h
  | .variable target, _, _, h => (h.reportIf _ _ _ _).lookUp target
  | .receiver target, w, w', h => by
      rw [Expr.walk, Expr.walk, h.cls]
      cases w.cls with
      | none => exact h.reportIf true true _ _
      | base | derived => exact h.lookUp target
  | .inherited target _, w, w', h => by
      rw [Expr.walk, Expr.walk, h.cls]
      refine Walk.Inward.lookUp ?_ target
      cases w.cls with
      | none | base => exact h.reportIf true true _ _
      | derived => exact h
  | .grouping inner, _, _, h => Expr.walk_inward inner h
  | .unary _ _ operand, _, _, h => Expr.walk_inward operand h
  | .binary _ _ left right, _, _, h => Expr.walk_inward right (Expr.walk_inward left h)
  | .logical _ _ left right, _, _, h => Expr.walk_inward right (Expr.walk_inward left h)
  | .assign target value, _, _, h => (Expr.walk_inward value h).lookUp target
  | .get object _, _, _, h => Expr.walk_inward object h
  | .set object _ value, _, _, h => Expr.walk_inward object (Expr.walk_inward value h)
  | .call callee _ arguments, _, _, h => Expr.walkAll_inward arguments (Expr.walk_inward callee h)

theorem Expr.walkAll_inward {base base' : List (NodeId × Binding)} :
    ∀ (es : List Expr) {w w' : Walk}, Walk.Inward base base' w w' →
      Walk.Inward base base' (Expr.walkAll es w) (Expr.walkAll es w')
  | [], _, _, h => h
  | e :: es, _, _, h => Expr.walkAll_inward es (Expr.walk_inward e h)

end

end Lox
