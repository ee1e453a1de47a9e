import Lox.Proofs.Provenance.Trees

/-!
# What binding names blames

The walk over a tree reports nothing at a token that is not in the tree.
-/

namespace Lox

variable {P : Token → Prop}

/-- Whether all that a walk has reported is at tokens that fulfil a predicate. -/
def Walk.Blames (P : Token → Prop) (w : Walk) : Prop :=
  ∀ e ∈ w.errors, P e.token

namespace Walk.Blames

variable {w : Walk}

theorem report (h : w.Blames P) (cause : ScopingCause) {t : Token} (ht : P t) :
    (w.report cause t).Blames P :=
  List.forall_mem_append.mpr ⟨h, List.forall_mem_singleton.mpr ht⟩

theorem reportIf (h : w.Blames P) (breach : Bool) (cause : ScopingCause) {t : Token} (ht : P t) :
    (w.reportIf breach cause t).Blames P := by
  unfold Walk.reportIf
  split
  · exact h.report cause ht
  · exact h

theorem mark (h : w.Blames P) (name : String) (ready : Bool) : (w.mark name ready).Blames P := by
  unfold Walk.mark
  cases w.scopes <;> exact h

theorem declare (h : w.Blames P) {t : Token} (ht : P t) : (w.declare t).Blames P := by
  unfold Walk.declare
  cases w.scopes with
  | nil => exact h
  | cons scope outer =>
    simp only
    split
    · exact h.report _ ht
    · exact h.mark _ _

theorem define (h : w.Blames P) (t : Token) : (w.define t).Blames P :=
  h.mark _ _

theorem introduce (h : w.Blames P) {t : Token} (ht : P t) : (w.introduce t).Blames P :=
  (h.declare ht).define t

theorem lookUp (h : w.Blames P) (target : Reference) : (w.lookUp target).Blames P := by
  unfold Walk.lookUp
  split <;> exact h

theorem inScope (h : w.Blames P) {inner : Walk → Walk}
    (hinner : ∀ w : Walk, w.Blames P → (inner w).Blames P) : (w.inScope inner).Blames P :=
  hinner { w with scopes := .empty :: w.scopes } h

theorem inScopeOf (h : w.Blames P) (name : Keyword) {inner : Walk → Walk}
    (hinner : ∀ w : Walk, w.Blames P → (inner w).Blames P) : (w.inScopeOf name inner).Blames P :=
  h.inScope fun _ hw => hinner _ (hw.mark _ _)

theorem inFunction (h : w.Blames P) (context : FunctionContext) {inner : Walk → Walk}
    (hinner : ∀ w : Walk, w.Blames P → (inner w).Blames P) :
    (w.inFunction context inner).Blames P :=
  hinner { w with function := context } h

theorem inClass (h : w.Blames P) (cls : ClassContext) {inner : Walk → Walk}
    (hinner : ∀ w : Walk, w.Blames P → (inner w).Blames P) : (w.inClass cls inner).Blames P :=
  hinner { w with cls } h

theorem parameters {ps : List Token} (h : w.Blames P) (hps : ∀ p ∈ ps, p.IsNameOf P) :
    (ps.foldl Walk.introduce w).Blames P := by
  induction ps generalizing w with
  | nil => exact h
  | cons p ps ih =>
    obtain ⟨hp, hps⟩ := List.forall_mem_cons.mp hps
    exact ih (h.introduce hp.of) hps

end Walk.Blames

/-! ## Trees -/

mutual

theorem Expr.walk_blames : ∀ (e : Expr) {w : Walk}, e.MadeOf P → w.Blames P → (e.walk w).Blames P
  | .literal _, _, _, h => h
  | .variable target, _, he, h =>
      (h.reportIf _ _ (t := target.name) he.of).lookUp target
  | .receiver target, w, he, h => by
      rw [Expr.walk]
      cases w.cls with
      | none => exact h.report _ he
      | _ => exact h.lookUp target
  | .inherited target _, w, he, h => by
      rw [Expr.walk]
      cases w.cls with
      | derived => exact h.lookUp target
      | _ => exact (h.report _ he.1).lookUp target
  | .grouping inner, _, he, h => Expr.walk_blames inner he h
  | .unary _ _ operand, _, he, h => Expr.walk_blames operand he.2 h
  | .binary _ _ left right, _, he, h | .logical _ _ left right, _, he, h =>
      Expr.walk_blames right he.2.2 (Expr.walk_blames left he.2.1 h)
  | .assign target value, _, he, h => (Expr.walk_blames value he.2 h).lookUp target
  | .get object _, _, he, h => Expr.walk_blames object he.2 h
  | .set object _ value, _, he, h =>
      Expr.walk_blames object he.2.1 (Expr.walk_blames value he.2.2 h)
  | .call callee _ arguments, _, he, h =>
      Expr.walkAll_blames arguments he.2.2 (Expr.walk_blames callee he.2.1 h)

theorem Expr.walkAll_blames : ∀ (es : List Expr) {w : Walk}, Expr.AllMadeOf P es → w.Blames P →
    (Expr.walkAll es w).Blames P
  | [], _, _, h => h
  | e :: es, _, hes, h => Expr.walkAll_blames es hes.2 (Expr.walk_blames e hes.1 h)

end

theorem Expr.walkOptional_blames {o : Option Expr} {w : Walk} (ho : ∀ e ∈ o, e.MadeOf P)
    (h : w.Blames P) : (Expr.walkOptional o w).Blames P := by
  cases o with
  | none => exact h
  | some e => exact e.walk_blames (ho e rfl) h

mutual

theorem Stmt.walk_blames : ∀ (s : Stmt) {w : Walk}, s.MadeOf P → w.Blames P → (s.walk w).Blames P
  | .expression value, _, hs, h | .print value, _, hs, h => value.walk_blames hs h
  | .varDecl name _, _, hs, h =>
      (Expr.walkOptional_blames hs.2 (h.declare hs.1.of)).define name
  | .funDecl function, _, hs, h =>
      FunctionDecl.walk_blames function _ hs (h.introduce (FunctionDecl.MadeOf.name hs).of)
  | .classDecl _ none methods, _, hs, h =>
      h.inClass _ fun _ hw => (hw.introduce hs.1.of).inScopeOf .this fun _ hw =>
        FunctionDecl.walkAll_blames methods hs.2.2 hw
  | .classDecl _ (some superclass) methods, _, hs, h =>
      have hname := hs.2.1 superclass rfl
      h.inClass _ fun _ hw =>
        have hw := (hw.introduce hs.1.of).reportIf _ _ hname.of
        (Expr.walk_blames (.variable superclass) hname hw).inScopeOf .super fun _ hw =>
          hw.inScopeOf .this fun _ hw => FunctionDecl.walkAll_blames methods hs.2.2 hw
  | .block body, _, hs, h => h.inScope fun _ hw => Stmt.walkAll_blames body hs hw
  | .branch condition yes no, _, hs, h =>
      Stmt.walkOptional_blames no hs.2.2 (Stmt.walk_blames yes hs.2.1 (condition.walk_blames hs.1 h))
  | .loop condition body, _, hs, h => Stmt.walk_blames body hs.2 (condition.walk_blames hs.1 h)
  | .ret _ _, _, hs, h =>
      Expr.walkOptional_blames hs.2 ((h.reportIf _ _ hs.1).reportIf _ _ hs.1)

theorem FunctionDecl.walk_blames : ∀ (d : FunctionDecl) (context : FunctionContext) {w : Walk},
    d.MadeOf P → w.Blames P → (d.walk context w).Blames P
  | ⟨_, _, body⟩, context, _, hd, h =>
      h.inFunction context fun _ hw => hw.inScope fun _ hw =>
        Stmt.walkAll_blames body hd.2.2 (hw.parameters hd.2.1)

theorem Stmt.walkAll_blames : ∀ (ss : List Stmt) {w : Walk}, Stmt.AllMadeOf P ss → w.Blames P →
    (Stmt.walkAll ss w).Blames P
  | [], _, _, h => h
  | s :: ss, _, hss, h => Stmt.walkAll_blames ss hss.2 (Stmt.walk_blames s hss.1 h)

theorem FunctionDecl.walkAll_blames : ∀ (ds : List FunctionDecl) {w : Walk},
    FunctionDecl.AllMadeOf P ds → w.Blames P → (FunctionDecl.walkAll ds w).Blames P
  | [], _, _, h => h
  | d :: ds, _, hds, h => FunctionDecl.walkAll_blames ds hds.2 (FunctionDecl.walk_blames d _ hds.1 h)

theorem Stmt.walkOptional_blames : ∀ (o : Option Stmt) {w : Walk}, Stmt.OptionalMadeOf P o →
    w.Blames P → (Stmt.walkOptional o w).Blames P
  | none, _, _, h => h
  | some s, _, ho, h => Stmt.walk_blames s ho h

end

end Lox
