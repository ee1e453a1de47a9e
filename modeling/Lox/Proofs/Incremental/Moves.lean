import Lox.Diagnostic
import Lox.Syntax

/-!
# Programs on other lines

A move puts tokens on other lines and gives references other numbers. It acts on
all that is made of tokens and references, and later modules show that reading,
binding and running commute with it.

## Implementation notes

Neither the kind nor the text of a token changes, and no stage looks at lines, so
nothing has to be asked of what a move does to them. Numbers are only ever
shifted, since the parser gives them out one after the other.
-/

namespace Lox

/-- Where to put tokens, and how far to shift the numbers of references. -/
@[ext]
structure Move where
  line : Nat → Nat
  shift : Nat

namespace Move

/-- To leave everything where it is. -/
def still : Move :=
  ⟨fun line => line, 0⟩

/-- To put tokens so many lines further down. -/
def down (lines : Nat) : Move :=
  ⟨fun line => line + lines, 0⟩

/-- To leave tokens where they are and shift the numbers of references. -/
def renumber (shift : Nat) : Move :=
  ⟨fun line => line, shift⟩

/-- One move after another. -/
def comp (ν μ : Move) : Move :=
  ⟨fun line => ν.line (μ.line line), μ.shift + ν.shift⟩

end Move

/-! ## Tokens and references -/

/-- A token on another line. -/
def Token.move (μ : Move) (t : Token) : Token :=
  { t with line := μ.line t.line }

/-- A reference on another line, with another number. -/
def Reference.move (μ : Move) (r : Reference) : Reference :=
  ⟨r.id + μ.shift, r.name.move μ⟩

/-- A cause that is blamed on a token on another line. -/
def Blame.move {Cause : Type} (μ : Move) (b : Blame Cause) : Blame Cause :=
  { b with token := b.token.move μ }

/-! ## Trees -/

mutual

/-- An expression on other lines. -/
def Expr.move (μ : Move) : Expr → Expr
  | .literal value => .literal value
  | .variable target => .variable (target.move μ)
  | .receiver target => .receiver (target.move μ)
  | .inherited target method => .inherited (target.move μ) (method.move μ)
  | .grouping inner => .grouping (inner.move μ)
  | .unary op operator operand => .unary op (operator.move μ) (operand.move μ)
  | .binary op operator left right =>
      .binary op (operator.move μ) (left.move μ) (right.move μ)
  | .logical op operator left right =>
      .logical op (operator.move μ) (left.move μ) (right.move μ)
  | .assign target value => .assign (target.move μ) (value.move μ)
  | .get object name => .get (object.move μ) (name.move μ)
  | .set object name value => .set (object.move μ) (name.move μ) (value.move μ)
  | .call callee closing arguments =>
      .call (callee.move μ) (closing.move μ) (Expr.moveAll μ arguments)

/-- Expressions on other lines. -/
def Expr.moveAll (μ : Move) : List Expr → List Expr
  | [] => []
  | e :: es => e.move μ :: Expr.moveAll μ es

end

mutual

/-- A statement on other lines. -/
def Stmt.move (μ : Move) : Stmt → Stmt
  | .expression value => .expression (value.move μ)
  | .print value => .print (value.move μ)
  | .varDecl name initializer => .varDecl (name.move μ) (initializer.map (Expr.move μ))
  | .funDecl function => .funDecl (function.move μ)
  | .classDecl name superclass methods =>
      .classDecl (name.move μ) (superclass.map (Reference.move μ))
        (FunctionDecl.moveAll μ methods)
  | .block body => .block (Stmt.moveAll μ body)
  | .branch condition yes no =>
      .branch (condition.move μ) (yes.move μ) (Stmt.moveOptional μ no)
  | .loop condition body => .loop (condition.move μ) (body.move μ)
  | .ret keyword value => .ret (keyword.move μ) (value.map (Expr.move μ))

/-- A function on other lines. -/
def FunctionDecl.move (μ : Move) : FunctionDecl → FunctionDecl
  | ⟨name, parameters, body⟩ =>
      ⟨name.move μ, parameters.map (Token.move μ), Stmt.moveAll μ body⟩

/-- Statements on other lines. -/
def Stmt.moveAll (μ : Move) : List Stmt → List Stmt
  | [] => []
  | s :: ss => s.move μ :: Stmt.moveAll μ ss

/-- Functions on other lines. -/
def FunctionDecl.moveAll (μ : Move) : List FunctionDecl → List FunctionDecl
  | [] => []
  | d :: ds => d.move μ :: FunctionDecl.moveAll μ ds

/-- A statement that may be left out, on other lines. -/
def Stmt.moveOptional (μ : Move) : Option Stmt → Option Stmt
  | none => none
  | some s => some (s.move μ)

end

/-! ## Diagnostics -/

/-- A diagnostic on another line. -/
def Diagnostic.move (μ : Move) : Diagnostic → Diagnostic
  | .lexical error => .lexical { error with line := μ.line error.line }
  | .syntactic error => .syntactic (error.move μ)
  | .scoping error => .scoping (error.move μ)
  | .runtime error => .runtime (error.move μ)

/-- A failure on other lines. -/
def Failure.move (μ : Move) : Failure → Failure
  | .single diagnostic => .single (diagnostic.move μ)
  | .several diagnostics => .several (diagnostics.map (Diagnostic.move μ))

/-! ## What a move leaves alone -/

variable (μ ν : Move)

@[simp] theorem Token.kind_move (t : Token) : (t.move μ).kind = t.kind := rfl

@[simp] theorem Token.lexeme_move (t : Token) : (t.move μ).lexeme = t.lexeme := rfl

@[simp] theorem Token.isEnd_move (t : Token) : (t.move μ).isEnd = t.isEnd := rfl

@[simp] theorem Reference.name_move (r : Reference) : (r.move μ).name = r.name.move μ := rfl

@[simp] theorem Expr.moveAll_eq_map (es : List Expr) : Expr.moveAll μ es = es.map (Expr.move μ) := by
  induction es with
  | nil => rfl
  | cons e es ih => rw [Expr.moveAll, List.map_cons, ih]

@[simp] theorem Stmt.moveAll_eq_map (ss : List Stmt) : Stmt.moveAll μ ss = ss.map (Stmt.move μ) := by
  induction ss with
  | nil => rfl
  | cons s ss ih => rw [Stmt.moveAll, List.map_cons, ih]

@[simp] theorem FunctionDecl.moveAll_eq_map (ds : List FunctionDecl) :
    FunctionDecl.moveAll μ ds = ds.map (FunctionDecl.move μ) := by
  induction ds with
  | nil => rfl
  | cons d ds ih => rw [FunctionDecl.moveAll, List.map_cons, ih]

@[simp] theorem Stmt.moveOptional_eq_map (s : Option Stmt) :
    Stmt.moveOptional μ s = s.map (Stmt.move μ) := by
  cases s <;> rfl

@[simp] theorem FunctionDecl.name_move (d : FunctionDecl) : (d.move μ).name = d.name.move μ := by
  cases d
  rfl

@[simp] theorem FunctionDecl.parameters_move (d : FunctionDecl) :
    (d.move μ).parameters = d.parameters.map (Token.move μ) := by
  cases d
  rfl

@[simp] theorem FunctionDecl.body_move (d : FunctionDecl) :
    (d.move μ).body = d.body.map (Stmt.move μ) := by
  cases d
  exact Stmt.moveAll_eq_map μ _

/-- A diagnostic is about tokens alone. -/
theorem Diagnostic.move_renumber (shift : Nat) (d : Diagnostic) : d.move (.renumber shift) = d := by
  cases d <;> rfl

theorem Failure.move_renumber (shift : Nat) (f : Failure) : f.move (.renumber shift) = f := by
  cases f with
  | single d => rw [move, Diagnostic.move_renumber]
  | several ds =>
    rw [move, show Diagnostic.move (.renumber shift) = id from
      funext (Diagnostic.move_renumber shift), List.map_id]

theorem Failure.move_congr {μ ν : Move} (h : μ.line = ν.line) (f : Failure) :
    f.move μ = f.move ν := by
  have hdiagnostic : Diagnostic.move μ = Diagnostic.move ν := by
    funext d
    cases d <;> simp [Diagnostic.move, Blame.move, Token.move, h]
  cases f <;> simp [move, hdiagnostic]

/-! ## One move after another -/

theorem Token.move_move (t : Token) : (t.move μ).move ν = t.move (ν.comp μ) := rfl

theorem Reference.move_move (r : Reference) : (r.move μ).move ν = r.move (ν.comp μ) := by
  simp only [Reference.move, Token.move_move, Move.comp, Nat.add_assoc]

mutual

theorem Expr.move_move : ∀ e : Expr, (e.move μ).move ν = e.move (ν.comp μ)
  | .literal _ => rfl
  | .variable _ => by simp only [Expr.move, Reference.move_move]
  | .receiver _ => by simp only [Expr.move, Reference.move_move]
  | .inherited _ _ => by simp only [Expr.move, Reference.move_move, Token.move_move]
  | .grouping inner => by simp only [Expr.move, Expr.move_move inner]
  | .unary _ _ operand => by simp only [Expr.move, Token.move_move, Expr.move_move operand]
  | .binary _ _ left right => by
      simp only [Expr.move, Token.move_move, Expr.move_move left, Expr.move_move right]
  | .logical _ _ left right => by
      simp only [Expr.move, Token.move_move, Expr.move_move left, Expr.move_move right]
  | .assign _ value => by simp only [Expr.move, Reference.move_move, Expr.move_move value]
  | .get object _ => by simp only [Expr.move, Token.move_move, Expr.move_move object]
  | .set object _ value => by
      simp only [Expr.move, Token.move_move, Expr.move_move object, Expr.move_move value]
  | .call callee _ arguments => by
      simp only [Expr.move, Token.move_move, Expr.move_move callee, Expr.moveAll_moveAll arguments]

theorem Expr.moveAll_moveAll :
    ∀ es : List Expr, Expr.moveAll ν (Expr.moveAll μ es) = Expr.moveAll (ν.comp μ) es
  | [] => rfl
  | e :: es => by simp only [Expr.moveAll, Expr.move_move e, Expr.moveAll_moveAll es]

end

theorem Expr.map_move_map_move (e : Option Expr) :
    (e.map (Expr.move μ)).map (Expr.move ν) = e.map (Expr.move (ν.comp μ)) := by
  rw [Option.map_map, show Expr.move ν ∘ Expr.move μ = _ from funext (Expr.move_move μ ν)]

mutual

theorem Stmt.move_move : ∀ s : Stmt, (s.move μ).move ν = s.move (ν.comp μ)
  | .expression _ => by simp only [Stmt.move, Expr.move_move]
  | .print _ => by simp only [Stmt.move, Expr.move_move]
  | .varDecl _ _ => by simp only [Stmt.move, Token.move_move, Expr.map_move_map_move]
  | .funDecl function => by simp only [Stmt.move, FunctionDecl.move_move function]
  | .classDecl _ superclass methods => by
      simp only [Stmt.move, Token.move_move, FunctionDecl.moveAll_moveAll methods]
      cases superclass <;> simp [Reference.move_move]
  | .block body => by simp only [Stmt.move, Stmt.moveAll_moveAll body]
  | .branch _ yes no => by
      simp only [Stmt.move, Expr.move_move, Stmt.move_move yes, Stmt.moveOptional_moveOptional no]
  | .loop _ body => by simp only [Stmt.move, Expr.move_move, Stmt.move_move body]
  | .ret _ _ => by simp only [Stmt.move, Token.move_move, Expr.map_move_map_move]

theorem FunctionDecl.move_move : ∀ d : FunctionDecl, (d.move μ).move ν = d.move (ν.comp μ)
  | ⟨_, _, body⟩ => by
      simp only [FunctionDecl.move, Token.move_move, Stmt.moveAll_moveAll body, List.map_map]
      rfl

theorem Stmt.moveAll_moveAll :
    ∀ ss : List Stmt, Stmt.moveAll ν (Stmt.moveAll μ ss) = Stmt.moveAll (ν.comp μ) ss
  | [] => rfl
  | s :: ss => by simp only [Stmt.moveAll, Stmt.move_move s, Stmt.moveAll_moveAll ss]

theorem FunctionDecl.moveAll_moveAll : ∀ ds : List FunctionDecl,
    FunctionDecl.moveAll ν (FunctionDecl.moveAll μ ds) = FunctionDecl.moveAll (ν.comp μ) ds
  | [] => rfl
  | d :: ds => by
      simp only [FunctionDecl.moveAll, FunctionDecl.move_move d, FunctionDecl.moveAll_moveAll ds]

theorem Stmt.moveOptional_moveOptional : ∀ s : Option Stmt,
    Stmt.moveOptional ν (Stmt.moveOptional μ s) = Stmt.moveOptional (ν.comp μ) s
  | none => rfl
  | some s => by simp only [Stmt.moveOptional, Stmt.move_move s]

end

theorem Stmt.map_move_map_move (ss : List Stmt) :
    (ss.map (Stmt.move μ)).map (Stmt.move ν) = ss.map (Stmt.move (ν.comp μ)) := by
  rw [List.map_map, show Stmt.move ν ∘ Stmt.move μ = _ from funext (Stmt.move_move μ ν)]

/-! ## No move -/

@[simp] theorem Token.move_still (t : Token) : t.move .still = t := rfl

@[simp] theorem Reference.move_still (r : Reference) : r.move .still = r := rfl

mutual

@[simp] theorem Expr.move_still : ∀ e : Expr, e.move .still = e
  | .literal _ => rfl
  | .variable _ => rfl
  | .receiver _ => rfl
  | .inherited _ _ => rfl
  | .grouping inner => by simp only [Expr.move, Expr.move_still inner]
  | .unary _ _ operand => by simp only [Expr.move, Token.move_still, Expr.move_still operand]
  | .binary _ _ left right => by
      simp only [Expr.move, Token.move_still, Expr.move_still left, Expr.move_still right]
  | .logical _ _ left right => by
      simp only [Expr.move, Token.move_still, Expr.move_still left, Expr.move_still right]
  | .assign _ value => by simp only [Expr.move, Reference.move_still, Expr.move_still value]
  | .get object _ => by simp only [Expr.move, Token.move_still, Expr.move_still object]
  | .set object _ value => by
      simp only [Expr.move, Token.move_still, Expr.move_still object, Expr.move_still value]
  | .call callee _ arguments => by
      simp only [Expr.move, Token.move_still, Expr.move_still callee,
        Expr.moveAll_still arguments]

theorem Expr.moveAll_still : ∀ es : List Expr, Expr.moveAll .still es = es
  | [] => rfl
  | e :: es => by simp only [Expr.moveAll, Expr.move_still e, Expr.moveAll_still es]

end

theorem Expr.map_move_still (e : Option Expr) : e.map (Expr.move .still) = e := by
  cases e <;> simp

mutual

@[simp] theorem Stmt.move_still : ∀ s : Stmt, s.move .still = s
  | .expression _ => by simp only [Stmt.move, Expr.move_still]
  | .print _ => by simp only [Stmt.move, Expr.move_still]
  | .varDecl _ _ => by simp only [Stmt.move, Token.move_still, Expr.map_move_still]
  | .funDecl function => by simp only [Stmt.move, FunctionDecl.move_still function]
  | .classDecl _ superclass methods => by
      simp only [Stmt.move, Token.move_still, FunctionDecl.moveAll_still methods]
      cases superclass <;> rfl
  | .block body => by simp only [Stmt.move, Stmt.moveAll_still body]
  | .branch _ yes no => by
      simp only [Stmt.move, Expr.move_still, Stmt.move_still yes, Stmt.moveOptional_still no]
  | .loop _ body => by simp only [Stmt.move, Expr.move_still, Stmt.move_still body]
  | .ret _ _ => by simp only [Stmt.move, Token.move_still, Expr.map_move_still]

@[simp] theorem FunctionDecl.move_still : ∀ d : FunctionDecl, d.move .still = d
  | ⟨_, parameters, body⟩ => by
      have hparameters : parameters.map (Token.move .still) = parameters := List.map_id parameters
      simp only [FunctionDecl.move, Token.move_still, Stmt.moveAll_still body, hparameters]

theorem Stmt.moveAll_still : ∀ ss : List Stmt, Stmt.moveAll .still ss = ss
  | [] => rfl
  | s :: ss => by simp only [Stmt.moveAll, Stmt.move_still s, Stmt.moveAll_still ss]

theorem FunctionDecl.moveAll_still : ∀ ds : List FunctionDecl, FunctionDecl.moveAll .still ds = ds
  | [] => rfl
  | d :: ds => by
      simp only [FunctionDecl.moveAll, FunctionDecl.move_still d, FunctionDecl.moveAll_still ds]

theorem Stmt.moveOptional_still : ∀ s : Option Stmt, Stmt.moveOptional .still s = s
  | none => rfl
  | some s => by simp only [Stmt.moveOptional, Stmt.move_still s]

end

theorem Stmt.map_move_still (ss : List Stmt) : ss.map (Stmt.move .still) = ss := by
  rw [← Stmt.moveAll_eq_map, Stmt.moveAll_still]

end Lox
