import Lox.Proofs.Incremental.Moves
import Lox.Proofs.Syntax.Numbering

/-!
# Other numbers for references

Trees whose references are given other numbers, one by one. Nothing else in a tree
changes, and to give all of them numbers that are so much greater is to move the tree.

## Implementation notes

A move shifts all numbers alike. What a session keeps comes from several sources, and
the numbers of one may be shifted further than those of another.
-/

namespace Lox

/-! ## Trees -/

/-- A reference with another number. -/
def Reference.renumber (φ : NodeId → NodeId) (r : Reference) : Reference :=
  { r with id := φ r.id }

mutual

/-- An expression with other numbers. -/
def Expr.renumber (φ : NodeId → NodeId) : Expr → Expr
  | .literal value => .literal value
  | .variable target => .variable (target.renumber φ)
  | .receiver target => .receiver (target.renumber φ)
  | .inherited target method => .inherited (target.renumber φ) method
  | .grouping inner => .grouping (inner.renumber φ)
  | .unary op operator operand => .unary op operator (operand.renumber φ)
  | .binary op operator left right => .binary op operator (left.renumber φ) (right.renumber φ)
  | .logical op operator left right => .logical op operator (left.renumber φ) (right.renumber φ)
  | .assign target value => .assign (target.renumber φ) (value.renumber φ)
  | .get object name => .get (object.renumber φ) name
  | .set object name value => .set (object.renumber φ) name (value.renumber φ)
  | .call callee closing arguments =>
      .call (callee.renumber φ) closing (Expr.renumberAll φ arguments)

/-- Expressions with other numbers. -/
def Expr.renumberAll (φ : NodeId → NodeId) : List Expr → List Expr
  | [] => []
  | e :: es => e.renumber φ :: Expr.renumberAll φ es

end

mutual

/-- A statement with other numbers. -/
def Stmt.renumber (φ : NodeId → NodeId) : Stmt → Stmt
  | .expression value => .expression (value.renumber φ)
  | .print value => .print (value.renumber φ)
  | .varDecl name initializer => .varDecl name (initializer.map (Expr.renumber φ))
  | .funDecl function => .funDecl (function.renumber φ)
  | .classDecl name superclass methods =>
      .classDecl name (superclass.map (Reference.renumber φ)) (FunctionDecl.renumberAll φ methods)
  | .block body => .block (Stmt.renumberAll φ body)
  | .branch condition yes no =>
      .branch (condition.renumber φ) (yes.renumber φ) (Stmt.renumberOptional φ no)
  | .loop condition body => .loop (condition.renumber φ) (body.renumber φ)
  | .ret keyword value => .ret keyword (value.map (Expr.renumber φ))

/-- A function with other numbers. -/
def FunctionDecl.renumber (φ : NodeId → NodeId) : FunctionDecl → FunctionDecl
  | ⟨name, parameters, body⟩ => ⟨name, parameters, Stmt.renumberAll φ body⟩

/-- Statements with other numbers. -/
def Stmt.renumberAll (φ : NodeId → NodeId) : List Stmt → List Stmt
  | [] => []
  | s :: ss => s.renumber φ :: Stmt.renumberAll φ ss

/-- Functions with other numbers. -/
def FunctionDecl.renumberAll (φ : NodeId → NodeId) : List FunctionDecl → List FunctionDecl
  | [] => []
  | d :: ds => d.renumber φ :: FunctionDecl.renumberAll φ ds

/-- A statement that may be left out, with other numbers. -/
def Stmt.renumberOptional (φ : NodeId → NodeId) : Option Stmt → Option Stmt
  | none => none
  | some s => some (s.renumber φ)

end

section

variable (φ : NodeId → NodeId)

@[simp] theorem Expr.renumberAll_eq_map (es : List Expr) :
    Expr.renumberAll φ es = es.map (Expr.renumber φ) := by
  induction es with
  | nil => rfl
  | cons e es ih => rw [Expr.renumberAll, List.map_cons, ih]

@[simp] theorem Stmt.renumberAll_eq_map (ss : List Stmt) :
    Stmt.renumberAll φ ss = ss.map (Stmt.renumber φ) := by
  induction ss with
  | nil => rfl
  | cons s ss ih => rw [Stmt.renumberAll, List.map_cons, ih]

@[simp] theorem FunctionDecl.renumberAll_eq_map (ds : List FunctionDecl) :
    FunctionDecl.renumberAll φ ds = ds.map (FunctionDecl.renumber φ) := by
  induction ds with
  | nil => rfl
  | cons d ds ih => rw [FunctionDecl.renumberAll, List.map_cons, ih]

@[simp] theorem Stmt.renumberOptional_eq_map (s : Option Stmt) :
    Stmt.renumberOptional φ s = s.map (Stmt.renumber φ) := by
  cases s <;> rfl

@[simp] theorem FunctionDecl.name_renumber (d : FunctionDecl) : (d.renumber φ).name = d.name := by
  cases d
  rfl

@[simp] theorem FunctionDecl.parameters_renumber (d : FunctionDecl) :
    (d.renumber φ).parameters = d.parameters := by
  cases d
  rfl

@[simp] theorem FunctionDecl.body_renumber (d : FunctionDecl) :
    (d.renumber φ).body = d.body.map (Stmt.renumber φ) := by
  cases d
  exact Stmt.renumberAll_eq_map φ _

end

/-! ## Shifted numbers -/

section

variable {φ : NodeId → NodeId} {shift : Nat}

theorem Token.move_renumber (t : Token) : t.move (.renumber shift) = t := rfl

theorem Reference.renumber_eq_move {r : Reference} (h : φ r.id = r.id + shift) :
    r.renumber φ = r.move (.renumber shift) := by
  rw [renumber, h]
  rfl

mutual

/-- To shift the numbers in an expression is to move it. -/
theorem Expr.renumber_eq_move :
    ∀ {e : Expr}, (∀ id ∈ e.ids, φ id = id + shift) → e.renumber φ = e.move (.renumber shift)
  | .literal _, _ => rfl
  | .variable _, h => congrArg _ (Reference.renumber_eq_move (h _ List.mem_cons_self))
  | .receiver _, h => congrArg _ (Reference.renumber_eq_move (h _ List.mem_cons_self))
  | .inherited _ _, h => by
      rw [Expr.renumber, Expr.move, Reference.renumber_eq_move (h _ List.mem_cons_self),
        Token.move_renumber]
  | .grouping inner, h => congrArg _ (Expr.renumber_eq_move (e := inner) h)
  | .unary _ _ operand, h => by
      rw [Expr.renumber, Expr.move, Expr.renumber_eq_move (e := operand) h, Token.move_renumber]
  | .binary _ _ _ _, h => by
      have h := List.forall_mem_append.mp h
      rw [Expr.renumber, Expr.move, Expr.renumber_eq_move h.1, Expr.renumber_eq_move h.2,
        Token.move_renumber]
  | .logical _ _ _ _, h => by
      have h := List.forall_mem_append.mp h
      rw [Expr.renumber, Expr.move, Expr.renumber_eq_move h.1, Expr.renumber_eq_move h.2,
        Token.move_renumber]
  | .assign _ _, h => by
      have h := List.forall_mem_append.mp h
      rw [Expr.renumber, Expr.move, Reference.renumber_eq_move (h.2 _ List.mem_cons_self),
        Expr.renumber_eq_move h.1]
  | .get object _, h => by
      rw [Expr.renumber, Expr.move, Expr.renumber_eq_move (e := object) h, Token.move_renumber]
  | .set _ _ _, h => by
      have h := List.forall_mem_append.mp h
      rw [Expr.renumber, Expr.move, Expr.renumber_eq_move h.1, Expr.renumber_eq_move h.2,
        Token.move_renumber]
  | .call _ _ _, h => by
      have h := List.forall_mem_append.mp h
      rw [Expr.renumber, Expr.move, Expr.renumber_eq_move h.1, Expr.renumberAll_eq_moveAll h.2,
        Token.move_renumber]

theorem Expr.renumberAll_eq_moveAll :
    ∀ {es : List Expr}, (∀ id ∈ Expr.idsAll es, φ id = id + shift) →
      Expr.renumberAll φ es = Expr.moveAll (.renumber shift) es
  | [], _ => rfl
  | _ :: _, h => by
      have h := List.forall_mem_append.mp h
      rw [Expr.renumberAll, Expr.moveAll, Expr.renumber_eq_move h.1,
        Expr.renumberAll_eq_moveAll h.2]

end

theorem Expr.map_renumber_eq_map_move {e : Option Expr}
    (h : ∀ id ∈ Expr.idsOptional e, φ id = id + shift) :
    e.map (Expr.renumber φ) = e.map (Expr.move (.renumber shift)) := by
  cases e with
  | none => rfl
  | some e => exact congrArg some (Expr.renumber_eq_move h)

mutual

/-- To shift the numbers in a statement is to move it. -/
theorem Stmt.renumber_eq_move :
    ∀ {s : Stmt}, (∀ id ∈ s.ids, φ id = id + shift) → s.renumber φ = s.move (.renumber shift)
  | .expression _, h => congrArg _ (Expr.renumber_eq_move h)
  | .print _, h => congrArg _ (Expr.renumber_eq_move h)
  | .varDecl _ _, h => by
      rw [Stmt.renumber, Stmt.move, Expr.map_renumber_eq_map_move h, Token.move_renumber]
  | .funDecl function, h => congrArg _ (FunctionDecl.renumber_eq_move (d := function) h)
  | .classDecl _ superclass _, h => by
      have h := List.forall_mem_append.mp h
      rw [Stmt.renumber, Stmt.move, FunctionDecl.renumberAll_eq_moveAll h.2, Token.move_renumber]
      cases superclass with
      | none => rfl
      | some r =>
        rw [Option.map_some, Reference.renumber_eq_move (h.1 _ List.mem_cons_self),
          Option.map_some]
  | .block _, h => by
      rw [Stmt.renumber, Stmt.move, Stmt.renumberAll_eq_moveAll h]
  | .branch _ _ _, h => by
      have h := List.forall_mem_append.mp h
      have hbranches := List.forall_mem_append.mp h.2
      rw [Stmt.renumber, Stmt.move, Expr.renumber_eq_move h.1, Stmt.renumber_eq_move hbranches.1,
        Stmt.renumberOptional_eq_moveOptional hbranches.2]
  | .loop _ _, h => by
      have h := List.forall_mem_append.mp h
      rw [Stmt.renumber, Stmt.move, Expr.renumber_eq_move h.1, Stmt.renumber_eq_move h.2]
  | .ret _ _, h => by
      rw [Stmt.renumber, Stmt.move, Expr.map_renumber_eq_map_move h, Token.move_renumber]

theorem FunctionDecl.renumber_eq_move :
    ∀ {d : FunctionDecl}, (∀ id ∈ d.ids, φ id = id + shift) →
      d.renumber φ = d.move (.renumber shift)
  | ⟨_, parameters, _⟩, h => by
      have hparameters : parameters.map (Token.move (.renumber shift)) = parameters :=
        List.map_id parameters
      rw [FunctionDecl.renumber, FunctionDecl.move, Stmt.renumberAll_eq_moveAll h, hparameters,
        Token.move_renumber]

theorem Stmt.renumberAll_eq_moveAll :
    ∀ {ss : List Stmt}, (∀ id ∈ Stmt.idsAll ss, φ id = id + shift) →
      Stmt.renumberAll φ ss = Stmt.moveAll (.renumber shift) ss
  | [], _ => rfl
  | _ :: _, h => by
      have h := List.forall_mem_append.mp h
      rw [Stmt.renumberAll, Stmt.moveAll, Stmt.renumber_eq_move h.1,
        Stmt.renumberAll_eq_moveAll h.2]

theorem FunctionDecl.renumberAll_eq_moveAll :
    ∀ {ds : List FunctionDecl}, (∀ id ∈ FunctionDecl.idsAll ds, φ id = id + shift) →
      FunctionDecl.renumberAll φ ds = FunctionDecl.moveAll (.renumber shift) ds
  | [], _ => rfl
  | _ :: _, h => by
      have h := List.forall_mem_append.mp h
      rw [FunctionDecl.renumberAll, FunctionDecl.moveAll, FunctionDecl.renumber_eq_move h.1,
        FunctionDecl.renumberAll_eq_moveAll h.2]

theorem Stmt.renumberOptional_eq_moveOptional :
    ∀ {s : Option Stmt}, (∀ id ∈ Stmt.idsOptional s, φ id = id + shift) →
      Stmt.renumberOptional φ s = Stmt.moveOptional (.renumber shift) s
  | none, _ => rfl
  | some _, h => congrArg some (Stmt.renumber_eq_move h)

end

end

end Lox
