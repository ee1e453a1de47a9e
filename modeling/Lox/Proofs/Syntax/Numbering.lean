import Lox.Syntax

/-!
# The numbers of references

What a tree is apart from the numbers of its references (`unnumbered`), and the
numbers themselves (`ids`). A list of numbers is `Fresh` between two bounds if
they are distinct and lie there; trees that are read one after the other have
fresh numbers between adjacent bounds.
-/

namespace Lox

/-! ## Trees apart from their numbers -/

/-- A reference that stands for all references to the name. -/
def Reference.unnumbered (r : Reference) : Reference :=
  { r with id := 0 }

mutual

/-- An expression apart from its numbers. -/
def Expr.unnumbered : Expr → Expr
  | .literal v => .literal v
  | .variable target => .variable target.unnumbered
  | .receiver target => .receiver target.unnumbered
  | .inherited target method => .inherited target.unnumbered method
  | .grouping inner => .grouping inner.unnumbered
  | .unary op operator operand => .unary op operator operand.unnumbered
  | .binary op operator left right => .binary op operator left.unnumbered right.unnumbered
  | .logical op operator left right => .logical op operator left.unnumbered right.unnumbered
  | .assign target value => .assign target.unnumbered value.unnumbered
  | .get object name => .get object.unnumbered name
  | .set object name value => .set object.unnumbered name value.unnumbered
  | .call callee closing arguments =>
      .call callee.unnumbered closing (Expr.unnumberedAll arguments)

/-- Expressions apart from their numbers. -/
def Expr.unnumberedAll : List Expr → List Expr
  | [] => []
  | e :: es => e.unnumbered :: Expr.unnumberedAll es

end

@[simp] theorem Expr.length_unnumberedAll (es : List Expr) :
    (Expr.unnumberedAll es).length = es.length := by
  induction es with
  | nil => rfl
  | cons e es ih => simp [Expr.unnumberedAll, ih]

mutual

/-- A statement apart from its numbers. -/
def Stmt.unnumbered : Stmt → Stmt
  | .expression value => .expression value.unnumbered
  | .print value => .print value.unnumbered
  | .varDecl name initializer => .varDecl name (initializer.map Expr.unnumbered)
  | .funDecl function => .funDecl function.unnumbered
  | .classDecl name superclass methods =>
      .classDecl name (superclass.map Reference.unnumbered) (FunctionDecl.unnumberedAll methods)
  | .block body => .block (Stmt.unnumberedAll body)
  | .branch condition yes no =>
      .branch condition.unnumbered yes.unnumbered (Stmt.unnumberedOptional no)
  | .loop condition body => .loop condition.unnumbered body.unnumbered
  | .ret keyword value => .ret keyword (value.map Expr.unnumbered)

/-- Statements apart from their numbers. -/
def Stmt.unnumberedAll : List Stmt → List Stmt
  | [] => []
  | s :: ss => s.unnumbered :: Stmt.unnumberedAll ss

/-- A statement that may be left out, apart from its numbers. -/
def Stmt.unnumberedOptional : Option Stmt → Option Stmt
  | none => none
  | some s => some s.unnumbered

/-- A function apart from its numbers. -/
def FunctionDecl.unnumbered : FunctionDecl → FunctionDecl
  | ⟨name, parameters, body⟩ => ⟨name, parameters, Stmt.unnumberedAll body⟩

/-- Functions apart from their numbers. -/
def FunctionDecl.unnumberedAll : List FunctionDecl → List FunctionDecl
  | [] => []
  | d :: ds => d.unnumbered :: FunctionDecl.unnumberedAll ds

end

/-! ## The numbers of a tree -/

mutual

/-- The numbers of the references in an expression. -/
def Expr.ids : Expr → List NodeId
  | .literal _ => []
  | .variable target => [target.id]
  | .receiver target => [target.id]
  | .inherited target _ => [target.id]
  | .grouping inner => inner.ids
  | .unary _ _ operand => operand.ids
  | .binary _ _ left right => left.ids ++ right.ids
  | .logical _ _ left right => left.ids ++ right.ids
  | .assign target value => value.ids ++ [target.id]
  | .get object _ => object.ids
  | .set object _ value => object.ids ++ value.ids
  | .call callee _ arguments => callee.ids ++ Expr.idsAll arguments

/-- The numbers of the references in expressions. -/
def Expr.idsAll : List Expr → List NodeId
  | [] => []
  | e :: es => e.ids ++ Expr.idsAll es

end

/-- The numbers of the references in an expression that may be left out. -/
def Expr.idsOptional (e : Option Expr) : List NodeId :=
  e.elim [] Expr.ids

mutual

/-- The numbers of the references in a statement. -/
def Stmt.ids : Stmt → List NodeId
  | .expression value => value.ids
  | .print value => value.ids
  | .varDecl _ initializer => Expr.idsOptional initializer
  | .funDecl function => function.ids
  | .classDecl _ superclass methods =>
      superclass.elim [] (fun r => [r.id]) ++ FunctionDecl.idsAll methods
  | .block body => Stmt.idsAll body
  | .branch condition yes no => condition.ids ++ (yes.ids ++ Stmt.idsOptional no)
  | .loop condition body => condition.ids ++ body.ids
  | .ret _ value => Expr.idsOptional value

/-- The numbers of the references in statements. -/
def Stmt.idsAll : List Stmt → List NodeId
  | [] => []
  | s :: ss => s.ids ++ Stmt.idsAll ss

/-- The numbers of the references in a statement that may be left out. -/
def Stmt.idsOptional : Option Stmt → List NodeId
  | none => []
  | some s => s.ids

/-- The numbers of the references in a function. -/
def FunctionDecl.ids : FunctionDecl → List NodeId
  | ⟨_, _, body⟩ => Stmt.idsAll body

/-- The numbers of the references in functions. -/
def FunctionDecl.idsAll : List FunctionDecl → List NodeId
  | [] => []
  | d :: ds => d.ids ++ FunctionDecl.idsAll ds

end

/-! ## Fresh numbers -/

/-- Distinct numbers from `lo` on and below `hi`. -/
structure Fresh (lo hi : Nat) (ids : List Nat) : Prop where
  nodup : ids.Nodup
  bounds : ∀ i ∈ ids, lo ≤ i ∧ i < hi

namespace Fresh

variable {lo mid hi : Nat} {ids others : List Nat}

theorem nil : Fresh lo hi [] :=
  ⟨List.nodup_nil, by simp⟩

theorem single (h : lo ≤ mid) : Fresh lo (mid + 1) [mid] :=
  ⟨by simp, by simp; omega⟩

theorem weaken {lo' hi' : Nat} (h : Fresh lo hi ids) (hlo : lo' ≤ lo) (hhi : hi ≤ hi') :
    Fresh lo' hi' ids :=
  ⟨h.nodup, fun i hi => by have := h.bounds i hi; omega⟩

/-- Numbers below a bound come before numbers from that bound on. -/
theorem append (h : Fresh lo mid ids) (h' : Fresh mid hi others) (hlo : lo ≤ mid)
    (hhi : mid ≤ hi) : Fresh lo hi (ids ++ others) := by
  refine ⟨?_, ?_⟩
  · rw [List.nodup_append]
    refine ⟨h.nodup, h'.nodup, ?_⟩
    intro i hi j hj
    have := h.bounds i hi
    have := h'.bounds j hj
    omega
  · intro i hi
    rcases List.mem_append.mp hi with hi | hi
    · have := h.bounds i hi
      omega
    · have := h'.bounds i hi
      omega

theorem perm (h : Fresh lo hi ids) (hp : ids.Perm others) : Fresh lo hi others :=
  ⟨hp.nodup_iff.mp h.nodup, fun i hi => h.bounds i (hp.mem_iff.mpr hi)⟩

/-- The upper part may be listed first. -/
theorem append_comm (h : Fresh lo hi (ids ++ others)) : Fresh lo hi (others ++ ids) :=
  h.perm List.perm_append_comm

end Fresh

end Lox
