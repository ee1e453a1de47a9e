import Lox.Proofs.Syntax.Numbering
import Lox.Scoping
import Mathlib.Logic.Basic

/-!
# Variables under another name

What a program is if one of its local variables or parameters gets another name. The
declaration is told by the new name, and so are the references that are known to be to
it: those with the old name that were found as many scopes out as there are between them
and the scope of the declaration.

## Implementation notes

`rebind` goes through what stands in the scope of a declaration and counts the scopes
that it enters, as they are counted in the table. Other declarations of the same name are
left alone, and so are the references to them, since the table has other distances there.
-/

namespace Lox

section

variable (table : BindingTable) (x y : String)

/-! ## References -/

/-- A reference that, if it is to the variable `x` of the scope so many scopes out, is
told by `y`. -/
def Reference.rebind (scopes : Nat) (r : Reference) : Reference :=
  if r.name.lexeme = x ∧ table.distance? r.id = some scopes then
    { r with name := { r.name with lexeme := y } }
  else r

mutual

/-- An expression in which references to one variable are told by another name. -/
def Expr.rebind (scopes : Nat) : Expr → Expr
  | .literal value => .literal value
  | .variable target => .variable (target.rebind table x y scopes)
  | .receiver target => .receiver target
  | .inherited target method => .inherited target method
  | .grouping inner => .grouping (inner.rebind scopes)
  | .unary op operator operand => .unary op operator (operand.rebind scopes)
  | .binary op operator left right =>
      .binary op operator (left.rebind scopes) (right.rebind scopes)
  | .logical op operator left right =>
      .logical op operator (left.rebind scopes) (right.rebind scopes)
  | .assign target value => .assign (target.rebind table x y scopes) (value.rebind scopes)
  | .get object name => .get (object.rebind scopes) name
  | .set object name value => .set (object.rebind scopes) name (value.rebind scopes)
  | .call callee closing arguments =>
      .call (callee.rebind scopes) closing (Expr.rebindAll scopes arguments)

/-- Expressions in which references to one variable are told by another name. -/
def Expr.rebindAll (scopes : Nat) : List Expr → List Expr
  | [] => []
  | e :: es => e.rebind scopes :: Expr.rebindAll scopes es

end

mutual

/-- A statement in which references to one variable are told by another name. -/
def Stmt.rebind (scopes : Nat) : Stmt → Stmt
  | .expression value => .expression (value.rebind table x y scopes)
  | .print value => .print (value.rebind table x y scopes)
  | .varDecl name initializer => .varDecl name (initializer.map (Expr.rebind table x y scopes))
  | .funDecl function => .funDecl (function.rebind scopes)
  | .classDecl name none methods =>
      .classDecl name none (FunctionDecl.rebindAll (scopes + 1) methods)
  | .classDecl name (some superclass) methods =>
      .classDecl name (some (superclass.rebind table x y scopes))
        (FunctionDecl.rebindAll (scopes + 2) methods)
  | .block body => .block (Stmt.rebindAll (scopes + 1) body)
  | .branch condition yes no =>
      .branch (condition.rebind table x y scopes) (yes.rebind scopes)
        (Stmt.rebindOptional scopes no)
  | .loop condition body => .loop (condition.rebind table x y scopes) (body.rebind scopes)
  | .ret keyword value => .ret keyword (value.map (Expr.rebind table x y scopes))

/-- Statements in which references to one variable are told by another name. -/
def Stmt.rebindAll (scopes : Nat) : List Stmt → List Stmt
  | [] => []
  | s :: ss => s.rebind scopes :: Stmt.rebindAll scopes ss

/-- A statement that may be left out, with references to one variable told by another name. -/
def Stmt.rebindOptional (scopes : Nat) : Option Stmt → Option Stmt
  | none => none
  | some s => some (s.rebind scopes)

/-- A function in which references to one variable are told by another name. -/
def FunctionDecl.rebind (scopes : Nat) : FunctionDecl → FunctionDecl
  | ⟨name, parameters, body⟩ => ⟨name, parameters, Stmt.rebindAll (scopes + 1) body⟩

/-- Functions in which references to one variable are told by another name. -/
def FunctionDecl.rebindAll (scopes : Nat) : List FunctionDecl → List FunctionDecl
  | [] => []
  | d :: ds => d.rebind scopes :: FunctionDecl.rebindAll scopes ds

end

/-! ## Declarations -/

/-- One of the variables that statements of one scope declare gets another name. -/
inductive Stmt.RenamesVariable : List Stmt → List Stmt → Prop
  | of (before : List Stmt) {name : Token} (hname : name.lexeme = x) (initializer : Option Expr)
      (behind : List Stmt) :
      RenamesVariable (before ++ .varDecl name initializer :: behind)
        (Stmt.rebindAll table x y 0 before ++
          .varDecl { name with lexeme := y } (initializer.map (Expr.rebind table x y 0)) ::
            Stmt.rebindAll table x y 0 behind)

mutual

/-- One local variable or parameter `x`, declared somewhere inside a statement, gets the
name `y`. -/
inductive Stmt.Renames : Stmt → Stmt → Prop
  | block {body body' : List Stmt} (h : Stmt.RenamesVariable table x y body body') :
      Stmt.Renames (.block body) (.block body')
  | inBlock {body body' : List Stmt} (h : Stmt.RenamesOne body body') :
      Stmt.Renames (.block body) (.block body')
  | inFunction {d d' : FunctionDecl} (h : FunctionDecl.Renames d d') :
      Stmt.Renames (.funDecl d) (.funDecl d')
  | inClass (name : Token) (superclass : Option Reference) {ds ds' : List FunctionDecl}
      (h : FunctionDecl.RenamesOne ds ds') :
      Stmt.Renames (.classDecl name superclass ds) (.classDecl name superclass ds')
  | inBranch (condition : Expr) {yes yes' : Stmt} (h : Stmt.Renames yes yes')
      (no : Option Stmt) : Stmt.Renames (.branch condition yes no) (.branch condition yes' no)
  | inElse (condition : Expr) (yes : Stmt) {no no' : Stmt} (h : Stmt.Renames no no') :
      Stmt.Renames (.branch condition yes (some no)) (.branch condition yes (some no'))
  | inLoop (condition : Expr) {body body' : Stmt} (h : Stmt.Renames body body') :
      Stmt.Renames (.loop condition body) (.loop condition body')

/-- One local variable or parameter, declared somewhere inside one of some statements,
gets another name. -/
inductive Stmt.RenamesOne : List Stmt → List Stmt → Prop
  | head {s s' : Stmt} (h : Stmt.Renames s s') (ss : List Stmt) :
      Stmt.RenamesOne (s :: ss) (s' :: ss)
  | tail (s : Stmt) {ss ss' : List Stmt} (h : Stmt.RenamesOne ss ss') :
      Stmt.RenamesOne (s :: ss) (s :: ss')

/-- One parameter or variable of a function, or one that is declared further inside, gets
another name. -/
inductive FunctionDecl.Renames : FunctionDecl → FunctionDecl → Prop
  | parameter (function : Token) (before : List Token) {name : Token} (hname : name.lexeme = x)
      (behind : List Token) (body : List Stmt) :
      FunctionDecl.Renames ⟨function, before ++ name :: behind, body⟩
        ⟨function, before ++ { name with lexeme := y } :: behind, Stmt.rebindAll table x y 0 body⟩
  | variable (function : Token) (parameters : List Token) {body body' : List Stmt}
      (h : Stmt.RenamesVariable table x y body body') :
      FunctionDecl.Renames ⟨function, parameters, body⟩ ⟨function, parameters, body'⟩
  | inBody (function : Token) (parameters : List Token) {body body' : List Stmt}
      (h : Stmt.RenamesOne body body') :
      FunctionDecl.Renames ⟨function, parameters, body⟩ ⟨function, parameters, body'⟩

/-- One parameter or local variable of one of some methods gets another name. -/
inductive FunctionDecl.RenamesOne : List FunctionDecl → List FunctionDecl → Prop
  | head {d d' : FunctionDecl} (h : FunctionDecl.Renames d d') (ds : List FunctionDecl) :
      FunctionDecl.RenamesOne (d :: ds) (d' :: ds)
  | tail (d : FunctionDecl) {ds ds' : List FunctionDecl} (h : FunctionDecl.RenamesOne ds ds') :
      FunctionDecl.RenamesOne (d :: ds) (d :: ds')

end

end

variable {table : BindingTable} {x y : String} {scopes : Nat}

/-- The name of the variable that a statement declares in its own scope. -/
def Stmt.varName? : Stmt → Option Token
  | .varDecl name _ => some name
  | _ => none

mutual

/-- The names of the local variables and parameters that are declared inside a statement. -/
def Stmt.locals : Stmt → List Token
  | .funDecl function => function.locals
  | .classDecl _ _ methods => FunctionDecl.localsAll methods
  | .block body => body.filterMap Stmt.varName? ++ Stmt.localsAll body
  | .branch _ yes no => yes.locals ++ Stmt.localsOptional no
  | .loop _ body => body.locals
  | _ => []

/-- The names of the local variables and parameters that are declared inside of statements. -/
def Stmt.localsAll : List Stmt → List Token
  | [] => []
  | s :: ss => s.locals ++ Stmt.localsAll ss

/-- The names of the local variables and parameters that are declared inside a statement
that may be left out. -/
def Stmt.localsOptional : Option Stmt → List Token
  | none => []
  | some s => s.locals

/-- The names of the parameters and local variables of a function. -/
def FunctionDecl.locals : FunctionDecl → List Token
  | ⟨_, parameters, body⟩ =>
      parameters ++ (body.filterMap Stmt.varName? ++ Stmt.localsAll body)

/-- The names of the parameters and local variables of functions. -/
def FunctionDecl.localsAll : List FunctionDecl → List Token
  | [] => []
  | d :: ds => d.locals ++ FunctionDecl.localsAll ds

end

theorem Stmt.exists_renamesVariable {name : Token} {ss : List Stmt}
    (h : name ∈ ss.filterMap Stmt.varName?) :
    ∃ ss', Stmt.RenamesVariable table name.lexeme y ss ss' := by
  obtain ⟨s, hs, hname⟩ := List.mem_filterMap.mp h
  obtain ⟨before, behind, rfl⟩ := List.append_of_mem hs
  cases s with
  | varDecl name initializer =>
    cases hname
    exact ⟨_, .of before rfl initializer behind⟩
  | _ => cases hname

mutual

/-- Each local variable and each parameter may get another name. -/
theorem Stmt.exists_renames {name : Token} :
    ∀ {s : Stmt}, name ∈ s.locals → ∃ s', s.Renames table name.lexeme y s'
  | .funDecl function, h => by
      rw [Stmt.locals] at h
      obtain ⟨d', hd⟩ := FunctionDecl.exists_renames (d := function) h
      exact ⟨_, .inFunction hd⟩
  | .classDecl className superclass methods, h => by
      rw [Stmt.locals] at h
      obtain ⟨ds', hds⟩ := FunctionDecl.exists_renamesOne h
      exact ⟨_, .inClass className superclass hds⟩
  | .block body, h => by
      rw [Stmt.locals, List.mem_append] at h
      obtain h | h := h
      · obtain ⟨body', hbody⟩ := Stmt.exists_renamesVariable h
        exact ⟨_, .block hbody⟩
      · obtain ⟨body', hbody⟩ := Stmt.exists_renamesOne h
        exact ⟨_, .inBlock hbody⟩
  | .branch condition yes no, h => by
      rw [Stmt.locals, List.mem_append] at h
      obtain h | h := h
      · obtain ⟨yes', hyes⟩ := Stmt.exists_renames (s := yes) h
        exact ⟨_, .inBranch condition hyes no⟩
      · cases no with
        | none => cases h
        | some no =>
          obtain ⟨no', hno⟩ := Stmt.exists_renames (s := no) h
          exact ⟨_, .inElse condition yes hno⟩
  | .loop condition body, h => by
      rw [Stmt.locals] at h
      obtain ⟨body', hbody⟩ := Stmt.exists_renames (s := body) h
      exact ⟨_, .inLoop condition hbody⟩
  | .expression _, h => by cases h
  | .print _, h => by cases h
  | .varDecl _ _, h => by cases h
  | .ret _ _, h => by cases h

theorem Stmt.exists_renamesOne {name : Token} : ∀ {ss : List Stmt}, name ∈ Stmt.localsAll ss →
    ∃ ss', Stmt.RenamesOne table name.lexeme y ss ss'
  | [], h => by cases h
  | s :: ss, h => by
      rw [Stmt.localsAll, List.mem_append] at h
      obtain h | h := h
      · obtain ⟨s', hs⟩ := Stmt.exists_renames (s := s) h
        exact ⟨_, .head hs ss⟩
      · obtain ⟨ss', hss⟩ := Stmt.exists_renamesOne h
        exact ⟨_, .tail s hss⟩

theorem FunctionDecl.exists_renames {name : Token} : ∀ {d : FunctionDecl}, name ∈ d.locals →
    ∃ d', d.Renames table name.lexeme y d'
  | ⟨function, parameters, body⟩, h => by
      rw [FunctionDecl.locals, List.mem_append, List.mem_append] at h
      obtain h | h | h := h
      · obtain ⟨before, behind, rfl⟩ := List.append_of_mem h
        exact ⟨_, .parameter function before rfl behind body⟩
      · obtain ⟨body', hbody⟩ := Stmt.exists_renamesVariable h
        exact ⟨_, .variable function parameters hbody⟩
      · obtain ⟨body', hbody⟩ := Stmt.exists_renamesOne h
        exact ⟨_, .inBody function parameters hbody⟩

theorem FunctionDecl.exists_renamesOne {name : Token} : ∀ {ds : List FunctionDecl},
    name ∈ FunctionDecl.localsAll ds →
    ∃ ds', FunctionDecl.RenamesOne table name.lexeme y ds ds'
  | [], h => by cases h
  | d :: ds, h => by
      rw [FunctionDecl.localsAll, List.mem_append] at h
      obtain h | h := h
      · obtain ⟨d', hd⟩ := FunctionDecl.exists_renames (d := d) h
        exact ⟨_, .head hd ds⟩
      · obtain ⟨ds', hds⟩ := FunctionDecl.exists_renamesOne h
        exact ⟨_, .tail d hds⟩

end

/-! ## Numbers -/

@[simp] theorem Reference.id_rebind (r : Reference) : (r.rebind table x y scopes).id = r.id := by
  unfold Reference.rebind
  split <;> rfl

mutual

@[simp] theorem Expr.ids_rebind : ∀ e : Expr, (e.rebind table x y scopes).ids = e.ids
  | .literal _ => rfl
  | .variable target => congrArg ([·]) target.id_rebind
  | .receiver _ => rfl
  | .inherited _ _ => rfl
  | .grouping inner => Expr.ids_rebind inner
  | .unary _ _ operand => Expr.ids_rebind operand
  | .binary _ _ left right => congrArg₂ (· ++ ·) (Expr.ids_rebind left) (Expr.ids_rebind right)
  | .logical _ _ left right => congrArg₂ (· ++ ·) (Expr.ids_rebind left) (Expr.ids_rebind right)
  | .assign target value =>
      congrArg₂ (· ++ ·) (Expr.ids_rebind value) (congrArg ([·]) target.id_rebind)
  | .get object _ => Expr.ids_rebind object
  | .set object _ value => congrArg₂ (· ++ ·) (Expr.ids_rebind object) (Expr.ids_rebind value)
  | .call callee _ arguments =>
      congrArg₂ (· ++ ·) (Expr.ids_rebind callee) (Expr.idsAll_rebindAll arguments)

@[simp] theorem Expr.idsAll_rebindAll :
    ∀ es : List Expr, Expr.idsAll (Expr.rebindAll table x y scopes es) = Expr.idsAll es
  | [] => rfl
  | e :: es => congrArg₂ (· ++ ·) (Expr.ids_rebind e) (Expr.idsAll_rebindAll es)

end

@[simp] theorem Expr.idsOptional_rebind (e : Option Expr) :
    Expr.idsOptional (e.map (Expr.rebind table x y scopes)) = Expr.idsOptional e := by
  cases e with
  | none => rfl
  | some e => exact e.ids_rebind

mutual

@[simp] theorem Stmt.ids_rebind {scopes : Nat} : ∀ s : Stmt, (s.rebind table x y scopes).ids = s.ids
  | .expression value => value.ids_rebind
  | .print value => value.ids_rebind
  | .varDecl _ initializer => Expr.idsOptional_rebind initializer
  | .funDecl function => FunctionDecl.ids_rebind function
  | .classDecl _ none methods => FunctionDecl.idsAll_rebindAll methods
  | .classDecl _ (some superclass) methods =>
      congrArg₂ (· ++ ·) (congrArg ([·]) superclass.id_rebind)
        (FunctionDecl.idsAll_rebindAll methods)
  | .block body => Stmt.idsAll_rebindAll body
  | .branch condition yes no =>
      congrArg₂ (· ++ ·) condition.ids_rebind
        (congrArg₂ (· ++ ·) (Stmt.ids_rebind yes) (Stmt.idsOptional_rebindOptional no))
  | .loop condition body => congrArg₂ (· ++ ·) condition.ids_rebind (Stmt.ids_rebind body)
  | .ret _ value => Expr.idsOptional_rebind value

@[simp] theorem Stmt.idsAll_rebindAll {scopes : Nat} :
    ∀ ss : List Stmt, Stmt.idsAll (Stmt.rebindAll table x y scopes ss) = Stmt.idsAll ss
  | [] => rfl
  | s :: ss => congrArg₂ (· ++ ·) (Stmt.ids_rebind s) (Stmt.idsAll_rebindAll ss)

@[simp] theorem Stmt.idsOptional_rebindOptional {scopes : Nat} : ∀ s : Option Stmt,
    Stmt.idsOptional (Stmt.rebindOptional table x y scopes s) = Stmt.idsOptional s
  | none => rfl
  | some s => Stmt.ids_rebind s

@[simp] theorem FunctionDecl.ids_rebind {scopes : Nat} :
    ∀ d : FunctionDecl, (d.rebind table x y scopes).ids = d.ids
  | ⟨_, _, body⟩ => Stmt.idsAll_rebindAll body

@[simp] theorem FunctionDecl.idsAll_rebindAll {scopes : Nat} : ∀ ds : List FunctionDecl,
    FunctionDecl.idsAll (FunctionDecl.rebindAll table x y scopes ds) = FunctionDecl.idsAll ds
  | [] => rfl
  | d :: ds => congrArg₂ (· ++ ·) (FunctionDecl.ids_rebind d) (FunctionDecl.idsAll_rebindAll ds)

end

theorem Stmt.idsAll_append (ss ss' : List Stmt) :
    Stmt.idsAll (ss ++ ss') = Stmt.idsAll ss ++ Stmt.idsAll ss' := by
  induction ss with
  | nil => rfl
  | cons s ss ih => rw [List.cons_append, Stmt.idsAll, ih, Stmt.idsAll, List.append_assoc]

theorem Stmt.RenamesVariable.idsAll {ss ss' : List Stmt}
    (h : Stmt.RenamesVariable table x y ss ss') : Stmt.idsAll ss' = Stmt.idsAll ss := by
  cases h with
  | of before hname initializer behind => simp [Stmt.idsAll_append, Stmt.idsAll, Stmt.ids]

mutual

/-- The references keep their numbers. -/
theorem Stmt.Renames.ids : ∀ {s s' : Stmt}, s.Renames table x y s' → s'.ids = s.ids
  | _, _, .block h => h.idsAll
  | _, _, .inBlock h => Stmt.RenamesOne.idsAll h
  | _, _, .inFunction h => FunctionDecl.Renames.ids h
  | _, _, .inClass _ _ h => congrArg (_ ++ ·) (FunctionDecl.RenamesOne.idsAll h)
  | _, _, .inBranch _ h _ => congrArg (_ ++ ·) (congrArg (· ++ _) (Stmt.Renames.ids h))
  | _, _, .inElse _ _ h => congrArg (_ ++ ·) (congrArg (_ ++ ·) (Stmt.Renames.ids h))
  | _, _, .inLoop _ h => congrArg (_ ++ ·) (Stmt.Renames.ids h)

theorem Stmt.RenamesOne.idsAll : ∀ {ss ss' : List Stmt}, Stmt.RenamesOne table x y ss ss' →
    Stmt.idsAll ss' = Stmt.idsAll ss
  | _, _, .head h _ => congrArg (· ++ _) (Stmt.Renames.ids h)
  | _, _, .tail _ h => congrArg (_ ++ ·) (Stmt.RenamesOne.idsAll h)

theorem FunctionDecl.Renames.ids : ∀ {d d' : FunctionDecl}, d.Renames table x y d' → d'.ids = d.ids
  | _, _, .parameter _ _ _ _ body => Stmt.idsAll_rebindAll body
  | _, _, .variable _ _ h => h.idsAll
  | _, _, .inBody _ _ h => Stmt.RenamesOne.idsAll h

theorem FunctionDecl.RenamesOne.idsAll : ∀ {ds ds' : List FunctionDecl},
    FunctionDecl.RenamesOne table x y ds ds' → FunctionDecl.idsAll ds' = FunctionDecl.idsAll ds
  | _, _, .head h _ => congrArg (· ++ _) (FunctionDecl.Renames.ids h)
  | _, _, .tail _ h => congrArg (_ ++ ·) (FunctionDecl.RenamesOne.idsAll h)

end

end Lox
