import Lox.Proofs.Scoping.Resolving

/-!
# What the walk visits

The visits of a walk are its recursive calls: at which node it was, which scopes
were open then, and, for each of these, the names that its part of the program
declares anywhere.

## Implementation notes

`visits` hands each node the very walk that `walk` hands it, so the scopes of a
visit are those of the resolver. A tree can have equal nodes in different places,
and so several visits at one node. Only nodes that mention no reference are like
that, since the number of a reference is its own (`Apart.eq_of_node`).
-/

namespace Lox

/-- A node of a program. -/
inductive Node where
  | expr (e : Expr)
  | stmt (s : Stmt)
  | function (d : FunctionDecl)

/-- The numbers of the references in a node. -/
def Node.ids : Node → List NodeId
  | .expr e => e.ids
  | .stmt s => s.ids
  | .function d => d.ids

/-- The names that each open scope declares somewhere in its text, the innermost
scope first. -/
abbrev Texts := List (List String)

/-- What the walk was at, and what was around it. -/
structure Visit where
  node : Node
  scopes : Scopes
  texts : Texts

/-! ## Names that a text declares -/

/-- The names that a statement declares in the scope around it. -/
def Stmt.declared : Stmt → List String
  | .varDecl name _ => [name.lexeme]
  | .funDecl function => [function.name.lexeme]
  | .classDecl name _ _ => [name.lexeme]
  | _ => []

/-- The names that statements declare in the scope around them. -/
def Stmt.declaredAll (ss : List Stmt) : List String :=
  ss.flatMap Stmt.declared

/-- The names that a function declares in its scope. -/
def FunctionDecl.declared (d : FunctionDecl) : List String :=
  d.parameters.map Token.lexeme ++ Stmt.declaredAll d.body

/-- The text of the innermost scope, if there is one, has all of these names. -/
def Texts.Has (T : Texts) (names : List String) : Prop :=
  ∀ text ∈ T.head?, ∀ name ∈ names, name ∈ text

/-! ## Visits -/

namespace Walk

/-- The walk inside a new scope. -/
def opened (w : Walk) : Walk :=
  { w with scopes := .empty :: w.scopes }

/-- The walk inside a new scope that holds one name given by the language. -/
def openedWith (w : Walk) (name : Keyword) : Walk :=
  w.opened.mark name.text true

/-- The walk inside a class before its superclass is looked up. -/
def inheriting (w : Walk) (name : Token) (superclass : Reference) : Walk :=
  ({ w with cls := .derived }.introduce name).reportIf (superclass.name.lexeme == name.lexeme)
    .inheritsFromItself superclass.name

end Walk

section

variable (T : Texts)

mutual

/-- The visits of a walk over an expression, that of the expression first. -/
def Expr.visits (e : Expr) (w : Walk) : List Visit :=
  ⟨.expr e, w.scopes, T⟩ :: match e with
    | .literal _ => []
    | .variable _ => []
    | .receiver _ => []
    | .inherited _ _ => []
    | .grouping inner => inner.visits w
    | .unary _ _ operand => operand.visits w
    | .binary _ _ left right => left.visits w ++ right.visits (left.walk w)
    | .logical _ _ left right => left.visits w ++ right.visits (left.walk w)
    | .assign _ value => value.visits w
    | .get object _ => object.visits w
    | .set object _ value => value.visits w ++ object.visits (value.walk w)
    | .call callee _ arguments => callee.visits w ++ Expr.visitsAll arguments (callee.walk w)

/-- The visits of a walk over expressions in order. -/
def Expr.visitsAll : List Expr → Walk → List Visit
  | [], _ => []
  | e :: es, w => e.visits w ++ Expr.visitsAll es (e.walk w)

end

/-- The visits of a walk over an expression that may be left out. -/
def Expr.visitsOptional : Option Expr → Walk → List Visit
  | none, _ => []
  | some e, w => e.visits T w

end

mutual

/-- The visits of a walk over a statement, that of the statement first. -/
def Stmt.visits (T : Texts) (s : Stmt) (w : Walk) : List Visit :=
  ⟨.stmt s, w.scopes, T⟩ :: match s with
    | .expression value => value.visits T w
    | .print value => value.visits T w
    | .varDecl name initializer => Expr.visitsOptional T initializer (w.declare name)
    | .funDecl function => function.visits T .function (w.introduce function.name)
    | .classDecl name none methods =>
        FunctionDecl.visitsAll ([Keyword.this.text] :: T) methods
          (({ w with cls := .base }.introduce name).openedWith .this)
    | .classDecl name (some superclass) methods =>
        (Expr.variable superclass).visits T (w.inheriting name superclass) ++
          FunctionDecl.visitsAll ([Keyword.this.text] :: [Keyword.super.text] :: T) methods
            ((((Expr.variable superclass).walk (w.inheriting name superclass)).openedWith
              .super).openedWith .this)
    | .block body => Stmt.visitsAll (Stmt.declaredAll body :: T) body w.opened
    | .branch condition yes no =>
        condition.visits T w ++ (yes.visits T (condition.walk w) ++
          Stmt.visitsOptional T no (yes.walk (condition.walk w)))
    | .loop condition body => condition.visits T w ++ body.visits T (condition.walk w)
    | .ret keyword value =>
        let w := w.reportIf (w.function == .none) .returnAtTopLevel keyword
        Expr.visitsOptional T value (w.reportIf (value.isSome && w.function == .initializer)
          .returnValueFromInitializer keyword)

/-- The visits of a walk over a function or method, that of the function first. -/
def FunctionDecl.visits (T : Texts) (d : FunctionDecl) (context : FunctionContext) (w : Walk) :
    List Visit :=
  ⟨.function d, w.scopes, T⟩ :: match d with
    | ⟨name, parameters, body⟩ =>
        Stmt.visitsAll (FunctionDecl.declared ⟨name, parameters, body⟩ :: T) body
          (parameters.foldl Walk.introduce { w with function := context }.opened)

/-- The visits of a walk over statements in order. -/
def Stmt.visitsAll (T : Texts) : List Stmt → Walk → List Visit
  | [], _ => []
  | s :: ss, w => s.visits T w ++ Stmt.visitsAll T ss (s.walk w)

/-- The visits of a walk over the methods of a class. -/
def FunctionDecl.visitsAll (T : Texts) : List FunctionDecl → Walk → List Visit
  | [], _ => []
  | d :: ds, w =>
      d.visits T (.ofMethod d.name) w ++ FunctionDecl.visitsAll T ds (d.walk (.ofMethod d.name) w)

/-- The visits of a walk over a statement that may be left out. -/
def Stmt.visitsOptional (T : Texts) : Option Stmt → Walk → List Visit
  | none, _ => []
  | some s, w => s.visits T w

end

/-- The visits of the walk that binds the references of a program. -/
def programVisits (program : List Stmt) : List Visit :=
  Stmt.visitsAll [] program .start

/-! ## Nodes are visited once -/

/-- How large a node is. -/
noncomputable def Node.size : Node → Nat
  | .expr e => sizeOf e
  | .stmt s => sizeOf s
  | .function d => sizeOf d

/-- A node that mentions a reference has one visit at most. -/
def Apart (vs : List Visit) : Prop :=
  vs.Pairwise fun v v' => v.node = v'.node → v.node.ids = []

namespace Apart

variable {ids others : List NodeId} {vs ws : List Visit}

/-- What is visited in two parts has no reference in common. -/
theorem append (h : Apart vs) (h' : Apart ws) (hvs : ∀ v ∈ vs, v.node.ids ⊆ ids)
    (hws : ∀ v ∈ ws, v.node.ids ⊆ others) (hnodup : (ids ++ others).Nodup) : Apart (vs ++ ws) := by
  refine List.pairwise_append.mpr ⟨h, h', fun v hv v' hv' heq => ?_⟩
  refine List.eq_nil_iff_forall_not_mem.mpr fun id hid => ?_
  exact (List.nodup_append.mp hnodup).2.2 id (hvs v hv hid) id (hws v' hv' (heq ▸ hid)) rfl

theorem eq_of_node (h : Apart vs) {v v' : Visit} (hv : v ∈ vs) (hv' : v' ∈ vs)
    (heq : v.node = v'.node) (hids : v.node.ids ≠ []) : v = v' := by
  induction vs with
  | nil => cases hv
  | cons first rest ih =>
    obtain ⟨hfirst, hrest⟩ := List.pairwise_cons.mp h
    rcases List.mem_cons.mp hv with rfl | hmem <;> rcases List.mem_cons.mp hv' with rfl | hmem'
    · rfl
    · exact absurd (hfirst v' hmem' heq) hids
    · exact absurd (heq ▸ hfirst v hmem heq.symm) hids
    · exact ih hrest hmem hmem'

end Apart

/-- What holds of the visits in a part of a program that has this size and these
references: nodes are no larger, mention no others, and those that mention one are
visited once. -/
structure AreIn (size : Nat) (ids : List NodeId) (vs : List Visit) : Prop where
  size_le : ∀ v ∈ vs, v.node.size ≤ size
  ids_subset : ∀ v ∈ vs, v.node.ids ⊆ ids
  apart : ids.Nodup → Apart vs

namespace AreIn

variable {size more : Nat} {ids others : List NodeId} {vs ws : List Visit}

theorem nil : AreIn size ids [] where
  size_le := by simp
  ids_subset := by simp
  apart _ := List.Pairwise.nil

theorem append (h : AreIn size ids vs) (h' : AreIn more others ws) :
    AreIn (size + more) (ids ++ others) (vs ++ ws) where
  size_le := List.forall_mem_append.mpr
    ⟨fun v hv => Nat.le_add_right_of_le (h.size_le v hv),
      fun v hv => Nat.le_add_left_of_le (h'.size_le v hv)⟩
  ids_subset := List.forall_mem_append.mpr
    ⟨fun v hv => List.subset_append_of_subset_left _ (h.ids_subset v hv),
      fun v hv => List.subset_append_of_subset_right _ (h'.ids_subset v hv)⟩
  apart hnodup :=
    (h.apart (List.nodup_append.mp hnodup).1).append (h'.apart (List.nodup_append.mp hnodup).2.1) h.ids_subset
      h'.ids_subset hnodup

/-- The order in which references are listed does not matter. -/
theorem perm (h : AreIn size ids vs) (hp : ids.Perm others) : AreIn size others vs where
  size_le := h.size_le
  ids_subset v hv := List.Subset.trans (h.ids_subset v hv) hp.subset
  apart hnodup := h.apart (hp.nodup_iff.mpr hnodup)

/-- A part may be smaller. -/
theorem mono (h : AreIn size ids vs) (hle : size ≤ more) : AreIn more ids vs where
  size_le v hv := Nat.le_trans (h.size_le v hv) hle
  ids_subset := h.ids_subset
  apart := h.apart

/-- Not all references need be visited. -/
theorem left (h : AreIn size ids vs) : AreIn size (ids ++ others) vs where
  size_le := h.size_le
  ids_subset v hv := List.subset_append_of_subset_left _ (h.ids_subset v hv)
  apart hnodup := h.apart (List.nodup_append.mp hnodup).1

theorem right (h : AreIn size ids vs) : AreIn size (others ++ ids) vs where
  size_le := h.size_le
  ids_subset v hv := List.subset_append_of_subset_right _ (h.ids_subset v hv)
  apart hnodup := h.apart (List.nodup_append.mp hnodup).2.1

/-- A node is not visited again inside itself. -/
theorem root {n : Node} {Γ : Scopes} {T : Texts} (h : AreIn size n.ids vs) (hlt : size < n.size) :
    AreIn n.size n.ids (⟨n, Γ, T⟩ :: vs) where
  size_le := List.forall_mem_cons.mpr ⟨Nat.le_refl _, (h.mono (Nat.le_of_lt hlt)).size_le⟩
  ids_subset := List.forall_mem_cons.mpr ⟨List.Subset.refl _, h.ids_subset⟩
  apart hnodup := by
    refine List.pairwise_cons.mpr ⟨fun v hv heq => ?_, h.apart hnodup⟩
    have hle : v.node.size ≤ size := h.size_le v hv
    rw [← heq] at hle
    exact absurd hlt (Nat.not_lt_of_le hle)

/-- A node without parts is visited alone. -/
theorem leaf {n : Node} {Γ : Scopes} {T : Texts} : AreIn n.size n.ids [⟨n, Γ, T⟩] where
  size_le := by simp
  ids_subset := by simp
  apart _ := List.pairwise_singleton _ _

end AreIn

mutual

theorem Expr.in_visits (T : Texts) : ∀ (e : Expr) (w : Walk), AreIn (sizeOf e) e.ids (e.visits T w)
  | .literal _, _ => .leaf (n := .expr _)
  | .variable _, _ => .leaf (n := .expr _)
  | .receiver _, _ => .leaf (n := .expr _)
  | .inherited _ _, _ => .leaf (n := .expr _)
  | .grouping inner, w => .root (n := .expr _) (Expr.in_visits T inner w) (by simp +arith [Node.size])
  | .unary _ _ operand, w =>
      .root (n := .expr _) (Expr.in_visits T operand w) (by simp +arith [Node.size])
  | .binary _ _ left right, w =>
      .root (n := .expr _) ((Expr.in_visits T left w).append (Expr.in_visits T right _))
        (by simp +arith [Node.size])
  | .logical _ _ left right, w =>
      .root (n := .expr _) ((Expr.in_visits T left w).append (Expr.in_visits T right _))
        (by simp +arith [Node.size])
  | .assign _ value, w =>
      .root (n := .expr _) (Expr.in_visits T value w).left (by simp +arith [Node.size])
  | .get object _, w => .root (n := .expr _) (Expr.in_visits T object w) (by simp +arith [Node.size])
  | .set object _ value, w =>
      .root (n := .expr _)
        (((Expr.in_visits T value w).append (Expr.in_visits T object _)).perm List.perm_append_comm)
        (by simp +arith [Node.size])
  | .call callee _ arguments, w =>
      .root (n := .expr _) ((Expr.in_visits T callee w).append (Expr.in_visitsAll T arguments _))
        (by simp +arith [Node.size])

theorem Expr.in_visitsAll (T : Texts) :
    ∀ (es : List Expr) (w : Walk), AreIn (sizeOf es) (Expr.idsAll es) (Expr.visitsAll T es w)
  | [], _ => .nil
  | e :: es, w =>
      ((Expr.in_visits T e w).append (Expr.in_visitsAll T es _)).mono (by simp +arith)

end

theorem Expr.in_visitsOptional (T : Texts) : ∀ (e : Option Expr) (w : Walk),
    AreIn (sizeOf e) (Expr.idsOptional e) (Expr.visitsOptional T e w)
  | none, _ => .nil
  | some e, w => (Expr.in_visits T e w).mono (by simp)

mutual

theorem Stmt.in_visits : ∀ (T : Texts) (s : Stmt) (w : Walk), AreIn (sizeOf s) s.ids (s.visits T w)
  | T, .expression value, w =>
      .root (n := .stmt _) (Expr.in_visits T value w) (by simp +arith [Node.size])
  | T, .print value, w => .root (n := .stmt _) (Expr.in_visits T value w) (by simp +arith [Node.size])
  | T, .varDecl _ initializer, _ =>
      .root (n := .stmt _) (Expr.in_visitsOptional T initializer _) (by simp +arith [Node.size])
  | T, .funDecl function, _ =>
      .root (n := .stmt _) (FunctionDecl.in_visits T function _ _) (by simp +arith [Node.size])
  | _, .classDecl _ none methods, _ =>
      .root (n := .stmt _) (FunctionDecl.in_visitsAll _ methods _).right (by simp +arith [Node.size])
  | T, .classDecl name (some superclass) methods, w =>
      .root (n := .stmt _)
        ((Expr.in_visits T (.variable superclass) (w.inheriting name superclass)).append
          (FunctionDecl.in_visitsAll _ methods _))
        (by simp +arith [Node.size])
  | _, .block body, _ => .root (n := .stmt _) (Stmt.in_visitsAll _ body _) (by simp +arith [Node.size])
  | T, .branch condition yes no, w =>
      .root (n := .stmt _)
        ((Expr.in_visits T condition w).append
          ((Stmt.in_visits T yes _).append (Stmt.in_visitsOptional T no _)))
        (by simp +arith [Node.size])
  | T, .loop condition body, w =>
      .root (n := .stmt _) ((Expr.in_visits T condition w).append (Stmt.in_visits T body _))
        (by simp +arith [Node.size])
  | T, .ret _ value, _ =>
      .root (n := .stmt _) (Expr.in_visitsOptional T value _) (by simp +arith [Node.size])

theorem FunctionDecl.in_visits : ∀ (T : Texts) (d : FunctionDecl) (context : FunctionContext)
    (w : Walk), AreIn (sizeOf d) d.ids (d.visits T context w)
  | _, ⟨_, _, body⟩, _, _ =>
      .root (n := .function ⟨_, _, body⟩) (Stmt.in_visitsAll _ body _) (by simp +arith [Node.size])

theorem Stmt.in_visitsAll : ∀ (T : Texts) (ss : List Stmt) (w : Walk),
    AreIn (sizeOf ss) (Stmt.idsAll ss) (Stmt.visitsAll T ss w)
  | _, [], _ => .nil
  | T, s :: ss, w => ((Stmt.in_visits T s w).append (Stmt.in_visitsAll T ss _)).mono (by simp +arith)

theorem FunctionDecl.in_visitsAll : ∀ (T : Texts) (ds : List FunctionDecl) (w : Walk),
    AreIn (sizeOf ds) (FunctionDecl.idsAll ds) (FunctionDecl.visitsAll T ds w)
  | _, [], _ => .nil
  | T, d :: ds, w =>
      ((FunctionDecl.in_visits T d _ w).append (FunctionDecl.in_visitsAll T ds _)).mono
        (by simp +arith)

theorem Stmt.in_visitsOptional : ∀ (T : Texts) (s : Option Stmt) (w : Walk),
    AreIn (sizeOf s) (Stmt.idsOptional s) (Stmt.visitsOptional T s w)
  | _, none, _ => .nil
  | T, some s, w => (Stmt.in_visits T s w).mono (by simp)

end

end Lox
