import Lox.Proofs.Incremental.Parsing
import Lox.Proofs.Scoping.Tables

/-!
# Binding the names of one program after another

Binding the names of a program on other lines finds and reports the same, on other
lines. What was found before stands behind what is found, and has no part in it: once
a program is bound, all scopes are closed again.
-/

namespace Lox

/-! ## Walks -/

/-- What was found out about a reference, on another line. -/
def Binding.move (μ : Move) (b : Binding) : Binding :=
  { b with line := μ.line b.line }

/-- An entry of a table about a reference on another line, with another number. -/
def Move.entry (μ : Move) (e : NodeId × Binding) : NodeId × Binding :=
  (e.1 + μ.shift, e.2.move μ)

namespace Walk

/-- The same walk over a program on other lines, after some entries were found. -/
def move (μ : Move) (before : List (NodeId × Binding)) (w : Walk) : Walk :=
  { w with
    found := w.found.map μ.entry ++ before
    errors := w.errors.map (Blame.move μ) }

variable (μ : Move) (before : List (NodeId × Binding)) (w : Walk)

@[simp] theorem cls_move : (w.move μ before).cls = w.cls := rfl

@[simp] theorem function_move : (w.move μ before).function = w.function := rfl

@[simp] theorem isUnready_move (name : Token) :
    (w.move μ before).isUnready (name.move μ) = w.isUnready name := rfl

theorem report_move (cause : ScopingCause) (token : Token) :
    (w.move μ before).report cause (token.move μ) = (w.report cause token).move μ before := by
  simp [report, move, Blame.move]

theorem reportIf_move (breach : Bool) (cause : ScopingCause) (token : Token) :
    (w.move μ before).reportIf breach cause (token.move μ) =
      (w.reportIf breach cause token).move μ before := by
  cases breach with
  | true => exact report_move μ before w cause token
  | false => rfl

theorem mark_move (name : String) (ready : Bool) :
    (w.move μ before).mark name ready = (w.mark name ready).move μ before := by
  obtain ⟨scopes, _, _, _, _⟩ := w
  cases scopes <;> rfl

theorem declare_move (name : Token) :
    (w.move μ before).declare (name.move μ) = (w.declare name).move μ before := by
  obtain ⟨scopes, _, _, _, _⟩ := w
  cases scopes with
  | nil => rfl
  | cons scope outer =>
    rw [declare, declare]
    simp only [Token.lexeme_move]
    rw [report_move, mark_move]
    exact (apply_ite (move μ before) _ _ _).symm

theorem define_move (name : Token) :
    (w.move μ before).define (name.move μ) = (w.define name).move μ before :=
  mark_move μ before w name.lexeme true

theorem introduce_move (name : Token) :
    (w.move μ before).introduce (name.move μ) = (w.introduce name).move μ before := by
  rw [introduce, declare_move, define_move, introduce]

theorem foldl_introduce_move (names : List Token) (w : Walk) :
    (names.map (Token.move μ)).foldl introduce (w.move μ before) =
      (names.foldl introduce w).move μ before := by
  induction names generalizing w with
  | nil => rfl
  | cons name names ih => rw [List.map_cons, List.foldl_cons, introduce_move, ih, List.foldl_cons]

theorem lookUp_move (target : Reference) :
    (w.move μ before).lookUp (target.move μ) = (w.lookUp target).move μ before := by
  unfold lookUp
  simp only [move, Reference.name_move, Token.lexeme_move]
  split <;> rfl

variable {inner inner' : Walk → Walk}

theorem inScope_move (h : ∀ w, inner' (w.move μ before) = (inner w).move μ before) :
    (w.move μ before).inScope inner' = (w.inScope inner).move μ before := by
  have hinner := h { w with scopes := .empty :: w.scopes }
  unfold inScope
  simp only
  rw [show ({ w.move μ before with scopes := .empty :: (w.move μ before).scopes } : Walk) =
    Walk.move μ before { w with scopes := .empty :: w.scopes } from rfl, hinner]
  rfl

theorem inScopeOf_move (name : Keyword)
    (h : ∀ w, inner' (w.move μ before) = (inner w).move μ before) :
    (w.move μ before).inScopeOf name inner' = (w.inScopeOf name inner).move μ before := by
  apply inScope_move
  intro w
  rw [mark_move, h]

theorem inFunction_move (context : FunctionContext)
    (h : ∀ w, inner' (w.move μ before) = (inner w).move μ before) :
    (w.move μ before).inFunction context inner' = (w.inFunction context inner).move μ before := by
  have hinner := h { w with function := context }
  unfold inFunction
  rw [show ({ w.move μ before with function := context } : Walk) =
    Walk.move μ before { w with function := context } from rfl, hinner]
  rfl

theorem inClass_move (cls : ClassContext)
    (h : ∀ w, inner' (w.move μ before) = (inner w).move μ before) :
    (w.move μ before).inClass cls inner' = (w.inClass cls inner).move μ before := by
  have hinner := h { w with cls }
  unfold inClass
  rw [show ({ w.move μ before with cls } : Walk) = Walk.move μ before { w with cls } from rfl,
    hinner]
  rfl

end Walk

/-! ## Programs -/

variable {μ : Move} {before : List (NodeId × Binding)}

mutual

theorem Expr.walk_move : ∀ (e : Expr) (w : Walk),
    (e.move μ).walk (w.move μ before) = (e.walk w).move μ before
  | .literal _, _ => rfl
  | .variable target, w => by
      rw [Expr.move, Expr.walk, Expr.walk, Reference.name_move, Walk.isUnready_move,
        Walk.reportIf_move, Walk.lookUp_move]
  | .receiver target, w => by
      rw [Expr.move, Expr.walk, Expr.walk, Walk.cls_move]
      cases w.cls with
      | none => exact w.report_move μ before _ _
      | _ => exact w.lookUp_move μ before target
  | .inherited target method, w => by
      rw [Expr.move, Expr.walk, Expr.walk, Walk.cls_move]
      cases w.cls with
      | derived => exact w.lookUp_move μ before target
      | _ => exact (congrArg (Walk.lookUp · _) (w.report_move μ before _ _)).trans (Walk.lookUp_move μ before _ target)
  | .grouping inner, w => Expr.walk_move inner w
  | .unary _ _ operand, w => Expr.walk_move operand w
  | .binary _ _ left right, w => by
      rw [Expr.move, Expr.walk, Expr.walk_move left, Expr.walk_move right, Expr.walk]
  | .logical _ _ left right, w => by
      rw [Expr.move, Expr.walk, Expr.walk_move left, Expr.walk_move right, Expr.walk]
  | .assign target value, w => by
      rw [Expr.move, Expr.walk, Expr.walk_move value, Walk.lookUp_move, Expr.walk]
  | .get object _, w => Expr.walk_move object w
  | .set object _ value, w => by
      rw [Expr.move, Expr.walk, Expr.walk_move value, Expr.walk_move object, Expr.walk]
  | .call callee _ arguments, w => by
      rw [Expr.move, Expr.walk, Expr.walk_move callee, Expr.walkAll_move arguments, Expr.walk]

theorem Expr.walkAll_move : ∀ (es : List Expr) (w : Walk),
    Expr.walkAll (Expr.moveAll μ es) (w.move μ before) = (Expr.walkAll es w).move μ before
  | [], _ => rfl
  | e :: es, w => by
      rw [Expr.moveAll, Expr.walkAll, Expr.walk_move e, Expr.walkAll_move es, Expr.walkAll]

end

theorem Expr.walkOptional_move (e : Option Expr) (w : Walk) :
    Expr.walkOptional (e.map (Expr.move μ)) (w.move μ before) =
      (Expr.walkOptional e w).move μ before := by
  cases e with
  | none => rfl
  | some e => exact e.walk_move w

mutual

theorem Stmt.walk_move : ∀ (s : Stmt) (w : Walk),
    (s.move μ).walk (w.move μ before) = (s.walk w).move μ before
  | .expression value, w => value.walk_move w
  | .print value, w => value.walk_move w
  | .varDecl name initializer, w => by
      rw [Stmt.move, Stmt.walk, Walk.declare_move, Expr.walkOptional_move, Walk.define_move,
        Stmt.walk]
  | .funDecl function, w => by
      rw [Stmt.move, Stmt.walk, FunctionDecl.name_move, Walk.introduce_move,
        FunctionDecl.walk_move function, Stmt.walk]
  | .classDecl name none methods, w => by
      rw [Stmt.move, Option.map_none, Stmt.walk, Stmt.walk]
      apply Walk.inClass_move
      intro w
      rw [Walk.introduce_move]
      apply Walk.inScopeOf_move
      exact FunctionDecl.walkAll_move methods
  | .classDecl name (some superclass) methods, w => by
      rw [Stmt.move, Option.map_some, Stmt.walk, Stmt.walk]
      apply Walk.inClass_move
      intro w
      simp only [Reference.name_move, Token.lexeme_move]
      rw [Walk.introduce_move, Walk.reportIf_move,
        show Expr.variable (superclass.move μ) = (Expr.variable superclass).move μ from rfl,
        Expr.walk_move]
      apply Walk.inScopeOf_move
      intro w
      apply Walk.inScopeOf_move
      exact FunctionDecl.walkAll_move methods
  | .block body, w => by
      rw [Stmt.move, Stmt.walk, Stmt.walk]
      apply Walk.inScope_move
      exact Stmt.walkAll_move body
  | .branch condition yes no, w => by
      rw [Stmt.move, Stmt.walk, Expr.walk_move, Stmt.walk_move yes, Stmt.walkOptional_move no,
        Stmt.walk]
  | .loop condition body, w => by
      rw [Stmt.move, Stmt.walk, Expr.walk_move, Stmt.walk_move body, Stmt.walk]
  | .ret keyword value, w => by
      rw [Stmt.move, Stmt.walk, Stmt.walk]
      simp only [Walk.function_move, Walk.reportIf_move, Option.isSome_map]
      rw [Expr.walkOptional_move]

theorem FunctionDecl.walk_move : ∀ (d : FunctionDecl) (context : FunctionContext) (w : Walk),
    (d.move μ).walk context (w.move μ before) = (d.walk context w).move μ before
  | ⟨_, parameters, body⟩, context, w => by
      rw [FunctionDecl.move, FunctionDecl.walk, FunctionDecl.walk]
      apply Walk.inFunction_move
      intro w
      apply Walk.inScope_move
      intro w
      rw [Walk.foldl_introduce_move, Stmt.walkAll_move body]

theorem Stmt.walkAll_move : ∀ (ss : List Stmt) (w : Walk),
    Stmt.walkAll (Stmt.moveAll μ ss) (w.move μ before) = (Stmt.walkAll ss w).move μ before
  | [], _ => rfl
  | s :: ss, w => by
      rw [Stmt.moveAll, Stmt.walkAll, Stmt.walk_move s, Stmt.walkAll_move ss, Stmt.walkAll]

theorem FunctionDecl.walkAll_move : ∀ (ds : List FunctionDecl) (w : Walk),
    FunctionDecl.walkAll (FunctionDecl.moveAll μ ds) (w.move μ before) =
      (FunctionDecl.walkAll ds w).move μ before
  | [], _ => rfl
  | d :: ds, w => by
      rw [FunctionDecl.moveAll, FunctionDecl.walkAll, FunctionDecl.name_move,
        show FunctionContext.ofMethod (d.name.move μ) = .ofMethod d.name from rfl,
        FunctionDecl.walk_move d, FunctionDecl.walkAll_move ds, FunctionDecl.walkAll]

theorem Stmt.walkOptional_move : ∀ (s : Option Stmt) (w : Walk),
    Stmt.walkOptional (Stmt.moveOptional μ s) (w.move μ before) =
      (Stmt.walkOptional s w).move μ before
  | none, _ => rfl
  | some s, w => Stmt.walk_move s w

end

/-! ## One program after another -/

namespace BindingTable

variable {table : BindingTable} {id : NodeId}

theorem getElem?_addAll (entries : List (NodeId × Binding)) :
    (table.addAll entries)[id]? = (entries.reverse.lookup id).or table[id]? := by
  induction entries generalizing table with
  | nil => rfl
  | cons e entries ih =>
    obtain ⟨i, b⟩ := e
    rw [show table.addAll ((i, b) :: entries) = addAll (table.insert i b) entries from rfl, ih,
      Std.TreeMap.getElem?_insert, List.reverse_cons, List.lookup_append, Option.or_assoc,
      List.lookup_cons, List.lookup_nil]
    congr 1
    by_cases h : id = i
    · simp [h]
    · rw [if_neg (by simpa using Ne.symm h), beq_false_of_ne h]
      rfl

theorem lookup_map_entry (entries : List (NodeId × Binding)) :
    (entries.map μ.entry).lookup (id + μ.shift) = (entries.lookup id).map (Binding.move μ) := by
  induction entries with
  | nil => rfl
  | cons e entries ih =>
    obtain ⟨i, b⟩ := e
    rw [List.map_cons, Move.entry, List.lookup_cons, List.lookup_cons, ih]
    by_cases h : id = i
    · simp [h]
    · rw [beq_false_of_ne h, beq_false_of_ne (mt Nat.add_right_cancel h)]

end BindingTable

theorem Stmt.walkAll_append (ss ss' : List Stmt) (w : Walk) :
    Stmt.walkAll (ss ++ ss') w = Stmt.walkAll ss' (Stmt.walkAll ss w) := by
  induction ss generalizing w with
  | nil => rfl
  | cons s ss ih => exact ih (s.walk w)

theorem Stmt.foldl_after_nil (ss : List Stmt) : ss.foldl Stmt.after [] = [] := by
  induction ss with
  | nil => rfl
  | cons s ss ih =>
    have hnil : s.after [] = [] := by cases s <;> rfl
    rw [List.foldl_cons, hnil, ih]

/-- All scopes are closed after a program that is bound. -/
theorem Stmt.walkAll_eq_of_resolve {program : List Stmt} {table : BindingTable}
    (h : resolve program = .ok table) (hs : Stmt.AreSpelled (Stmt.unnumberedAll program))
    (hids : (Stmt.idsAll program).Nodup) :
    Stmt.walkAll program .start =
      Walk.move μ (Stmt.walkAll program .start).found .start := by
  obtain ⟨herrors, -⟩ := walkAll_of_resolve h
  obtain ⟨hscopes, hfunction, hcls, -⟩ :=
    Stmt.walkAll_notes program (w := .start) hs trivial hids herrors
  replace hscopes := hscopes.trans (Stmt.foldl_after_nil program)
  generalize Stmt.walkAll program .start = w at herrors hscopes hfunction hcls
  obtain ⟨scopes, context, cls, found, errors⟩ := w
  cases hscopes
  cases hfunction
  cases hcls
  cases herrors
  rfl

section

variable {first second : List Stmt} {table table' : BindingTable} {failure : Failure}

/-- A program behind another one that is bound is walked as it is alone. -/
theorem walkAll_behind (h : resolve first = .ok table)
    (hs : Stmt.AreSpelled (Stmt.unnumberedAll first)) (hids : (Stmt.idsAll first).Nodup) :
    Stmt.walkAll (first ++ second.map (Stmt.move μ)) .start =
      (Stmt.walkAll second .start).move μ (Stmt.walkAll first .start).found := by
  rw [Stmt.walkAll_append, Stmt.walkAll_eq_of_resolve (μ := μ) h hs hids,
    ← Stmt.moveAll_eq_map, Stmt.walkAll_move]
  rfl

theorem errors_behind (h : resolve first = .ok table)
    (hs : Stmt.AreSpelled (Stmt.unnumberedAll first)) (hids : (Stmt.idsAll first).Nodup) :
    (Stmt.walkAll (first ++ second.map (Stmt.move μ)) .start).errors.map Diagnostic.scoping =
      ((Stmt.walkAll second .start).errors.map Diagnostic.scoping).map (Diagnostic.move μ) := by
  rw [walkAll_behind h hs hids, Walk.move, List.map_map, List.map_map]
  rfl

/-- What breaks the rules behind a program that is bound breaks them there in the same
way. -/
theorem resolve_behind_error (h : resolve first = .ok table)
    (hs : Stmt.AreSpelled (Stmt.unnumberedAll first)) (hids : (Stmt.idsAll first).Nodup)
    (h' : resolve second = .error failure) :
    resolve (first ++ second.map (Stmt.move μ)) = .error (failure.move μ) := by
  unfold resolve at h' ⊢
  simp only [errors_behind h hs hids, Failure.ofList?_move]
  simp only at h'
  cases hfailure : Failure.ofList? ((Stmt.walkAll second .start).errors.map .scoping) with
  | none => simp [hfailure] at h'
  | some f =>
    simp only [hfailure, Except.error.injEq] at h'
    rw [h']
    rfl

/-- Of the references behind a program that is bound the same is known as if they were
alone, and of all others what was known. -/
theorem resolve_behind_ok (h : resolve first = .ok table)
    (hs : Stmt.AreSpelled (Stmt.unnumberedAll first)) (hids : (Stmt.idsAll first).Nodup)
    (h' : resolve second = .ok table') :
    ∃ joint, resolve (first ++ second.map (Stmt.move μ)) = .ok joint ∧
      ∀ id : Nat, joint[id + μ.shift]? =
        (table'[id]?.map (Binding.move μ)).or table[id + μ.shift]? := by
  obtain ⟨herrors, rfl⟩ := walkAll_of_resolve h'
  obtain ⟨-, rfl⟩ := walkAll_of_resolve h
  have hjoint : (Stmt.walkAll (first ++ second.map (Stmt.move μ)) .start).errors.map
      Diagnostic.scoping = [] := by
    rw [errors_behind h hs hids, herrors]
    rfl
  refine ⟨BindingTable.addAll ∅
    (Stmt.walkAll (first ++ second.map (Stmt.move μ)) .start).found.reverse, ?_, fun id => ?_⟩
  · rw [resolve, hjoint]
    rfl
  · simp only [BindingTable.getElem?_addAll, walkAll_behind h hs hids, Walk.move,
      List.reverse_reverse, List.lookup_append, BindingTable.lookup_map_entry,
      Std.TreeMap.getElem?_emptyc, Option.or_none]

end

end Lox
