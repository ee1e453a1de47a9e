import Lox.Proofs.Mirror.Visits

/-!
# Visited pieces of program

A piece of program is `Visited` in some scopes if all of it was visited, each
part in the scopes that running the piece will have open there. A well-scoped
program is visited by the walk that binds its references.

## Implementation notes

`Visited` computes scopes from scopes, as running does, while a visit has those
of the walk. That the two agree needs that nothing is declared twice, which is why
the program has to be well-scoped.
-/

namespace Lox

/-! ## Visited pieces of program -/

section

variable (V : Visit → Prop) (Γ : Scopes) (T : Texts)

mutual

/-- All of an expression was visited in some scopes. -/
def Expr.Visited (e : Expr) : Prop :=
  V ⟨.expr e, Γ, T⟩ ∧ match e with
    | .literal _ => True
    | .variable _ => True
    | .receiver _ => True
    | .inherited _ _ => True
    | .grouping inner => inner.Visited
    | .unary _ _ operand => operand.Visited
    | .binary _ _ left right => left.Visited ∧ right.Visited
    | .logical _ _ left right => left.Visited ∧ right.Visited
    | .assign _ value => value.Visited
    | .get object _ => object.Visited
    | .set object _ value => object.Visited ∧ value.Visited
    | .call callee _ arguments => callee.Visited ∧ Expr.AreVisited arguments

/-- All of some expressions was visited in some scopes. -/
def Expr.AreVisited : List Expr → Prop
  | [] => True
  | e :: es => e.Visited ∧ Expr.AreVisited es

end

end

section

variable (V : Visit → Prop)

mutual

/-- All of a statement was visited in some scopes, the innermost of which has what
it declares. -/
def Stmt.Visited (Γ : Scopes) (T : Texts) (s : Stmt) : Prop :=
  V ⟨.stmt s, Γ, T⟩ ∧ T.Has s.declared ∧ match s with
    | .expression value => value.Visited V Γ T
    | .print value => value.Visited V Γ T
    | .varDecl name initializer => ∀ e ∈ initializer, e.Visited V (Γ.mark name.lexeme false) T
    | .funDecl function => function.Visited (Γ.introduce function.name) T
    | .classDecl name none methods =>
        FunctionDecl.AreVisited ((Γ.introduce name).given .this) ([Keyword.this.text] :: T) methods
    | .classDecl name (some superclass) methods =>
        (Expr.variable superclass).Visited V (Γ.introduce name) T ∧
          FunctionDecl.AreVisited (((Γ.introduce name).given .super).given .this)
            ([Keyword.this.text] :: [Keyword.super.text] :: T) methods
    | .block body => Stmt.AreVisited (.empty :: Γ) (Stmt.declaredAll body :: T) body
    | .branch condition yes no =>
        condition.Visited V Γ T ∧ (yes.Visited Γ T ∧ yes.IsPlain) ∧ Stmt.VisitedOptional Γ T no
    | .loop condition body => condition.Visited V Γ T ∧ body.Visited Γ T ∧ body.IsPlain
    | .ret _ value => ∀ e ∈ value, e.Visited V Γ T

/-- All of some statements in order was visited from some scopes on. -/
def Stmt.AreVisited (Γ : Scopes) (T : Texts) : List Stmt → Prop
  | [] => True
  | s :: ss => s.Visited Γ T ∧ Stmt.AreVisited (s.after Γ) T ss

/-- All of a statement after `else` was visited in some scopes. -/
def Stmt.VisitedOptional (Γ : Scopes) (T : Texts) : Option Stmt → Prop
  | none => True
  | some s => s.Visited Γ T ∧ s.IsPlain

/-- All of a function was visited in some scopes around it. -/
def FunctionDecl.Visited (Γ : Scopes) (T : Texts) (d : FunctionDecl) : Prop :=
  V ⟨.function d, Γ, T⟩ ∧ match d with
    | ⟨name, parameters, body⟩ =>
        Stmt.AreVisited (parameters.foldl Scopes.introduce (.empty :: Γ))
          (FunctionDecl.declared ⟨name, parameters, body⟩ :: T) body

/-- All of some methods was visited in some scopes around them. -/
def FunctionDecl.AreVisited (Γ : Scopes) (T : Texts) : List FunctionDecl → Prop
  | [] => True
  | d :: ds => d.Visited Γ T ∧ FunctionDecl.AreVisited Γ T ds

end

end

/-- The body of a visited function was visited in a scope of its parameters. -/
theorem FunctionDecl.Visited.body {V : Visit → Prop} {Γ : Scopes} {T : Texts} {d : FunctionDecl}
    (h : d.Visited V Γ T) :
    Stmt.AreVisited V (d.parameters.foldl Scopes.introduce (.empty :: Γ)) (d.declared :: T)
      d.body := by
  cases d
  exact h.2

theorem FunctionDecl.Visited.root {V : Visit → Prop} {Γ : Scopes} {T : Texts} {d : FunctionDecl}
    (h : d.Visited V Γ T) : V ⟨.function d, Γ, T⟩ := by
  cases d
  exact h.1

/-! ## More visits -/

section

variable {V V' : Visit → Prop}

mutual

theorem Expr.Visited.mono (hV : ∀ v, V v → V' v) {Γ : Scopes} {T : Texts} :
    ∀ {e : Expr}, e.Visited V Γ T → e.Visited V' Γ T
  | .literal _, h | .variable _, h | .receiver _, h | .inherited _ _, h => ⟨hV _ h.1, trivial⟩
  | .grouping _, h | .unary _ _ _, h | .assign _ _, h | .get _ _, h =>
      ⟨hV _ h.1, Expr.Visited.mono hV h.2⟩
  | .binary _ _ _ _, h | .logical _ _ _ _, h | .set _ _ _, h =>
      ⟨hV _ h.1, Expr.Visited.mono hV h.2.1, Expr.Visited.mono hV h.2.2⟩
  | .call _ _ _, h => ⟨hV _ h.1, Expr.Visited.mono hV h.2.1, Expr.AreVisited.mono hV h.2.2⟩

theorem Expr.AreVisited.mono (hV : ∀ v, V v → V' v) {Γ : Scopes} {T : Texts} :
    ∀ {es : List Expr}, Expr.AreVisited V Γ T es → Expr.AreVisited V' Γ T es
  | [], _ => trivial
  | _ :: _, h => ⟨Expr.Visited.mono hV h.1, Expr.AreVisited.mono hV h.2⟩

end

mutual

theorem Stmt.Visited.mono (hV : ∀ v, V v → V' v) {Γ : Scopes} {T : Texts} :
    ∀ {s : Stmt}, s.Visited V Γ T → s.Visited V' Γ T
  | .expression _, h | .print _, h => ⟨hV _ h.1, h.2.1, Expr.Visited.mono hV h.2.2⟩
  | .varDecl _ _, h | .ret _ _, h => ⟨hV _ h.1, h.2.1, fun e he => Expr.Visited.mono hV (h.2.2 e he)⟩
  | .funDecl _, h => ⟨hV _ h.1, h.2.1, FunctionDecl.Visited.mono hV h.2.2⟩
  | .classDecl _ none _, h => ⟨hV _ h.1, h.2.1, FunctionDecl.AreVisited.mono hV h.2.2⟩
  | .classDecl _ (some _) _, h =>
      ⟨hV _ h.1, h.2.1, Expr.Visited.mono hV h.2.2.1, FunctionDecl.AreVisited.mono hV h.2.2.2⟩
  | .block _, h => ⟨hV _ h.1, h.2.1, Stmt.AreVisited.mono hV h.2.2⟩
  | .branch _ _ _, ⟨hroot, hdeclared, hcondition, ⟨hyes, hplain⟩, hno⟩ =>
      ⟨hV _ hroot, hdeclared, Expr.Visited.mono hV hcondition, ⟨Stmt.Visited.mono hV hyes, hplain⟩,
        Stmt.VisitedOptional.mono hV hno⟩
  | .loop _ _, ⟨hroot, hdeclared, hcondition, hbody, hplain⟩ =>
      ⟨hV _ hroot, hdeclared, Expr.Visited.mono hV hcondition, Stmt.Visited.mono hV hbody, hplain⟩

theorem Stmt.AreVisited.mono (hV : ∀ v, V v → V' v) {Γ : Scopes} {T : Texts} :
    ∀ {ss : List Stmt}, Stmt.AreVisited V Γ T ss → Stmt.AreVisited V' Γ T ss
  | [], _ => trivial
  | _ :: _, h => ⟨Stmt.Visited.mono hV h.1, Stmt.AreVisited.mono hV h.2⟩

theorem Stmt.VisitedOptional.mono (hV : ∀ v, V v → V' v) {Γ : Scopes} {T : Texts} :
    ∀ {s : Option Stmt}, Stmt.VisitedOptional V Γ T s → Stmt.VisitedOptional V' Γ T s
  | none, _ => trivial
  | some _, h => ⟨Stmt.Visited.mono hV h.1, h.2⟩

theorem FunctionDecl.Visited.mono (hV : ∀ v, V v → V' v) {Γ : Scopes} {T : Texts} :
    ∀ {d : FunctionDecl}, d.Visited V Γ T → d.Visited V' Γ T
  | ⟨_, _, _⟩, h => ⟨hV _ h.1, Stmt.AreVisited.mono hV h.2⟩

theorem FunctionDecl.AreVisited.mono (hV : ∀ v, V v → V' v) {Γ : Scopes} {T : Texts} :
    ∀ {ds : List FunctionDecl}, FunctionDecl.AreVisited V Γ T ds → FunctionDecl.AreVisited V' Γ T ds
  | [], _ => trivial
  | _ :: _, h => ⟨FunctionDecl.Visited.mono hV h.1, FunctionDecl.AreVisited.mono hV h.2⟩

end

end

/-! ## The scopes of the walk -/

section

variable {known : Known} {T : Texts}

namespace Walk

theorem scopes_declare {w : Walk} {name : Token} (h : Scopes.IsNew w.scopes name) :
    (w.declare name).scopes = Scopes.mark w.scopes name.lexeme false := by
  rw [declare_of_isNew h, scopes_mark]

theorem scopes_introduce {w : Walk} {name : Token} (h : Scopes.IsNew w.scopes name) :
    (w.introduce name).scopes = Scopes.introduce w.scopes name := by
  rw [introduce, define, scopes_mark, scopes_declare h, Scopes.introduce]

theorem scopes_foldl_introduce {names : List Token} {w : Walk}
    (h : Scopes.AreNew w.scopes names) :
    (names.foldl introduce w).scopes = names.foldl Scopes.introduce w.scopes := by
  induction names generalizing w with
  | nil => rfl
  | cons name names ih =>
    have hfirst := scopes_introduce h.1
    rw [List.foldl_cons, List.foldl_cons, ih (hfirst ▸ h.2), hfirst]

@[simp] theorem scopes_lookUp (w : Walk) (target : Reference) :
    (w.lookUp target).scopes = w.scopes := by
  unfold lookUp
  split <;> rfl

@[simp] theorem scopes_reportIf (w : Walk) (breach : Bool) (cause : ScopingCause) (token : Token) :
    (w.reportIf breach cause token).scopes = w.scopes := by
  cases breach <;> rfl

theorem scopes_inheriting {w : Walk} {name : Token} {superclass : Reference}
    (h : Scopes.IsNew w.scopes name) :
    (w.inheriting name superclass).scopes = Scopes.introduce w.scopes name := by
  rw [inheriting, scopes_reportIf]
  exact scopes_introduce h

@[simp] theorem scopes_openedWith (w : Walk) (name : Keyword) :
    (w.openedWith name).scopes = Scopes.given w.scopes name := rfl

end Walk

mutual

/-- No scope is opened, and no name declared, by an expression. -/
theorem Expr.scopes_walk : ∀ (e : Expr) (w : Walk), (e.walk w).scopes = w.scopes
  | .literal _, _ => rfl
  | .variable _, w => by rw [Expr.walk, Walk.scopes_lookUp, Walk.scopes_reportIf]
  | .receiver _, w => by
      rw [Expr.walk]
      split
      · rfl
      · rw [Walk.scopes_lookUp]
  | .inherited _ _, w => by
      rw [Expr.walk, Walk.scopes_lookUp]
      split <;> rfl
  | .grouping inner, w => Expr.scopes_walk inner w
  | .unary _ _ operand, w => Expr.scopes_walk operand w
  | .binary _ _ left right, w => (Expr.scopes_walk right _).trans (Expr.scopes_walk left w)
  | .logical _ _ left right, w => (Expr.scopes_walk right _).trans (Expr.scopes_walk left w)
  | .assign _ value, w => by rw [Expr.walk, Walk.scopes_lookUp, Expr.scopes_walk value w]
  | .get object _, w => Expr.scopes_walk object w
  | .set object _ value, w => (Expr.scopes_walk object _).trans (Expr.scopes_walk value w)
  | .call callee _ arguments, w =>
      (Expr.scopes_walkAll arguments _).trans (Expr.scopes_walk callee w)

theorem Expr.scopes_walkAll : ∀ (es : List Expr) (w : Walk), (Expr.walkAll es w).scopes = w.scopes
  | [], _ => rfl
  | e :: es, w => (Expr.scopes_walkAll es _).trans (Expr.scopes_walk e w)

end

theorem Expr.scopes_walkOptional (e : Option Expr) (w : Walk) :
    (Expr.walkOptional e w).scopes = w.scopes := by
  cases e with
  | none => rfl
  | some e => exact e.scopes_walk w

mutual

/-- A well-scoped statement leaves behind the scopes that it is said to. -/
theorem Stmt.scopes_walk : ∀ (s : Stmt) {w : Walk} {context : FunctionContext},
    s.Scoped known w.scopes context → (s.walk w).scopes = s.after w.scopes
  | .expression value, w, _, _ => value.scopes_walk w
  | .print value, w, _, _ => value.scopes_walk w
  | .varDecl name initializer, w, _, ⟨hnew, _, _⟩ => by
      rw [Stmt.walk, Walk.define, Walk.scopes_mark, Expr.scopes_walkOptional,
        Walk.scopes_declare hnew]
      rfl
  | .funDecl function, w, _, ⟨hnew, _, hfunction⟩ => by
      rw [← Walk.scopes_introduce hnew] at hfunction
      rw [Stmt.walk, FunctionDecl.scopes_walk function hfunction, Walk.scopes_introduce hnew]
      rfl
  | .classDecl name none methods, w, _, ⟨hnew, _, hmethods⟩ => by
      have hscopes : ({ w with cls := .base }.introduce name).scopes = Scopes.introduce w.scopes name :=
        Walk.scopes_introduce hnew
      have hinner := FunctionDecl.scopes_walkAll methods
        (w := ({ w with cls := .base }.introduce name).openedWith .this) (by
          rw [Walk.scopes_openedWith, hscopes]
          exact hmethods)
      exact (congrArg List.tail hinner).trans hscopes
  | .classDecl name (some superclass) methods, w, _, ⟨hnew, _, _, hmethods⟩ => by
      have hscopes : ((Expr.variable superclass).walk (w.inheriting name superclass)).scopes =
          Scopes.introduce w.scopes name := by
        rw [Expr.scopes_walk, Walk.scopes_inheriting hnew]
      have hinner := FunctionDecl.scopes_walkAll methods
        (w := (((Expr.variable superclass).walk (w.inheriting name superclass)).openedWith
          .super).openedWith .this) (by
          rw [Walk.scopes_openedWith, Walk.scopes_openedWith, hscopes]
          exact hmethods)
      exact (congrArg (fun Γ => List.tail (List.tail Γ)) hinner).trans hscopes
  | .block body, w, _, h => by
      have hinner := Stmt.scopes_walkAll body (w := w.opened) h
      exact (congrArg List.tail hinner).trans (Stmt.tail_foldl_after _ body)
  | .branch condition yes no, w, context, ⟨_, ⟨hyes, hplain⟩, hno⟩ => by
      rw [← condition.scopes_walk w] at hyes hno
      have hthen := Stmt.scopes_walk yes hyes
      rw [Stmt.after_of_isPlain hplain] at hthen
      rw [← hthen] at hno
      exact (Stmt.scopes_walkOptional no hno).trans (hthen.trans (condition.scopes_walk w))
  | .loop condition body, w, _, ⟨_, hbody, hplain⟩ => by
      rw [← condition.scopes_walk w] at hbody
      have hinner := Stmt.scopes_walk body hbody
      rw [Stmt.after_of_isPlain hplain] at hinner
      exact hinner.trans (condition.scopes_walk w)
  | .ret keyword value, w, _, _ => by
      rw [Stmt.walk, Expr.scopes_walkOptional, Walk.scopes_reportIf, Walk.scopes_reportIf]
      rfl

theorem FunctionDecl.scopes_walk : ∀ (d : FunctionDecl) {w : Walk} {context : FunctionContext},
    d.Scoped known w.scopes context → (d.walk context w).scopes = w.scopes
  | ⟨name, parameters, body⟩, w, context, ⟨hnew, _, hbody⟩ => by
      have hopened : (parameters.foldl Walk.introduce { w with function := context }.opened).scopes =
          parameters.foldl Scopes.introduce (.empty :: w.scopes) :=
        Walk.scopes_foldl_introduce hnew
      rw [← hopened] at hbody
      have hinner := Stmt.scopes_walkAll body hbody
      have htail : (parameters.foldl Scopes.introduce (.empty :: w.scopes)).tail = w.scopes :=
        Scopes.tail_foldl_introduce parameters
      calc (FunctionDecl.walk ⟨name, parameters, body⟩ context w).scopes
          = (Stmt.walkAll body (parameters.foldl Walk.introduce
              { w with function := context }.opened)).scopes.tail := rfl
        _ = w.scopes := by rw [hinner, Stmt.tail_foldl_after, hopened, htail]

theorem Stmt.scopes_walkAll : ∀ (ss : List Stmt) {w : Walk} {context : FunctionContext},
    Stmt.AreScoped known w.scopes context ss →
    (Stmt.walkAll ss w).scopes = ss.foldl Stmt.after w.scopes
  | [], _, _, _ => rfl
  | s :: ss, w, _, ⟨hs, hss⟩ => by
      have hfirst := Stmt.scopes_walk s hs
      rw [← hfirst] at hss
      rw [List.foldl_cons, ← hfirst]
      exact Stmt.scopes_walkAll ss hss

theorem FunctionDecl.scopes_walkAll : ∀ (ds : List FunctionDecl) {w : Walk},
    FunctionDecl.AreScoped known w.scopes ds → (FunctionDecl.walkAll ds w).scopes = w.scopes
  | [], _, _ => rfl
  | d :: ds, w, ⟨hd, hds⟩ => by
      have hfirst := FunctionDecl.scopes_walk d hd
      rw [← hfirst] at hds
      exact (FunctionDecl.scopes_walkAll ds hds).trans hfirst

theorem Stmt.scopes_walkOptional : ∀ (s : Option Stmt) {w : Walk} {context : FunctionContext},
    Stmt.ScopedOptional known w.scopes context s → (Stmt.walkOptional s w).scopes = w.scopes
  | none, _, _, _ => rfl
  | some s, w, _, ⟨hs, hplain⟩ => by
      have hinner := Stmt.scopes_walk s hs
      rwa [Stmt.after_of_isPlain hplain] at hinner

end

/-! ## Visits make visited pieces -/

variable {V : Visit → Prop}

mutual

theorem Expr.visited_of_visits : ∀ (e : Expr) {w : Walk}, (∀ v ∈ e.visits T w, V v) →
    e.Visited V w.scopes T
  | .literal _, _, h => ⟨(List.forall_mem_cons.mp h).1, trivial⟩
  | .variable _, _, h => ⟨(List.forall_mem_cons.mp h).1, trivial⟩
  | .receiver _, _, h => ⟨(List.forall_mem_cons.mp h).1, trivial⟩
  | .inherited _ _, _, h => ⟨(List.forall_mem_cons.mp h).1, trivial⟩
  | .grouping inner, _, h => by
      obtain ⟨hroot, hinner⟩ := List.forall_mem_cons.mp h
      exact ⟨hroot, Expr.visited_of_visits inner hinner⟩
  | .unary _ _ operand, _, h => by
      obtain ⟨hroot, hoperand⟩ := List.forall_mem_cons.mp h
      exact ⟨hroot, Expr.visited_of_visits operand hoperand⟩
  | .binary _ _ left right, w, h => by
      obtain ⟨hroot, h⟩ := List.forall_mem_cons.mp h
      obtain ⟨hleft, hright⟩ := List.forall_mem_append.mp h
      have hvisited := Expr.visited_of_visits right hright
      rw [left.scopes_walk w] at hvisited
      exact ⟨hroot, Expr.visited_of_visits left hleft, hvisited⟩
  | .logical _ _ left right, w, h => by
      obtain ⟨hroot, h⟩ := List.forall_mem_cons.mp h
      obtain ⟨hleft, hright⟩ := List.forall_mem_append.mp h
      have hvisited := Expr.visited_of_visits right hright
      rw [left.scopes_walk w] at hvisited
      exact ⟨hroot, Expr.visited_of_visits left hleft, hvisited⟩
  | .assign _ value, _, h => by
      obtain ⟨hroot, hvalue⟩ := List.forall_mem_cons.mp h
      exact ⟨hroot, Expr.visited_of_visits value hvalue⟩
  | .get object _, _, h => by
      obtain ⟨hroot, hobject⟩ := List.forall_mem_cons.mp h
      exact ⟨hroot, Expr.visited_of_visits object hobject⟩
  | .set object _ value, w, h => by
      obtain ⟨hroot, h⟩ := List.forall_mem_cons.mp h
      obtain ⟨hvalue, hobject⟩ := List.forall_mem_append.mp h
      have hvisited := Expr.visited_of_visits object hobject
      rw [value.scopes_walk w] at hvisited
      exact ⟨hroot, hvisited, Expr.visited_of_visits value hvalue⟩
  | .call callee _ arguments, w, h => by
      obtain ⟨hroot, h⟩ := List.forall_mem_cons.mp h
      obtain ⟨hcallee, harguments⟩ := List.forall_mem_append.mp h
      have hvisited := Expr.areVisited_of_visits arguments harguments
      rw [callee.scopes_walk w] at hvisited
      exact ⟨hroot, Expr.visited_of_visits callee hcallee, hvisited⟩

theorem Expr.areVisited_of_visits : ∀ (es : List Expr) {w : Walk},
    (∀ v ∈ Expr.visitsAll T es w, V v) → Expr.AreVisited V w.scopes T es
  | [], _, _ => trivial
  | e :: es, w, h => by
      obtain ⟨he, hes⟩ := List.forall_mem_append.mp h
      have hvisited := Expr.areVisited_of_visits es hes
      rw [e.scopes_walk w] at hvisited
      exact ⟨Expr.visited_of_visits e he, hvisited⟩

end

theorem Expr.visitedOptional_of_visits {e : Option Expr} {w : Walk}
    (h : ∀ v ∈ Expr.visitsOptional T e w, V v) : ∀ e' ∈ e, e'.Visited V w.scopes T := by
  rintro e' rfl
  exact Expr.visited_of_visits e' h

/-- A text has what each of its statements declares. -/
theorem Texts.has_declaredAll {ss : List Stmt} (h : T.Has (Stmt.declaredAll ss)) :
    ∀ s ∈ ss, T.Has s.declared :=
  fun s hs text htext name hname =>
    h text htext name (List.mem_flatMap.mpr ⟨s, hs, hname⟩)

theorem Texts.has_cons {text names : List String} (h : names ⊆ text) :
    Texts.Has (text :: T) names := by
  intro head hhead name hname
  obtain rfl : text = head := Option.some.inj hhead
  exact h hname

/-- A plain statement declares nothing. -/
theorem Stmt.IsPlain.has_declared {s : Stmt} (h : s.IsPlain) : T.Has s.declared := by
  intro text _ name hname
  cases s <;> first | exact False.elim h | cases hname

mutual

/-- All of a well-scoped statement is visited, each part in the scopes that it
fits. -/
theorem Stmt.visited_of_visits : ∀ (s : Stmt) {T : Texts} {w : Walk} {context : FunctionContext},
    s.Scoped known w.scopes context → T.Has s.declared → (∀ v ∈ s.visits T w, V v) →
    s.Visited V w.scopes T
  | .expression value, _, _, _, _, hdeclared, h => by
      obtain ⟨hroot, h⟩ := List.forall_mem_cons.mp h
      exact ⟨hroot, hdeclared, value.visited_of_visits h⟩
  | .print value, _, _, _, _, hdeclared, h => by
      obtain ⟨hroot, h⟩ := List.forall_mem_cons.mp h
      exact ⟨hroot, hdeclared, value.visited_of_visits h⟩
  | .varDecl name initializer, _, w, _, ⟨hnew, _, _⟩, hdeclared, h => by
      obtain ⟨hroot, h⟩ := List.forall_mem_cons.mp h
      have hvisited := Expr.visitedOptional_of_visits h
      rw [Walk.scopes_declare hnew] at hvisited
      exact ⟨hroot, hdeclared, hvisited⟩
  | .funDecl function, _, w, _, ⟨hnew, _, hfunction⟩, hdeclared, h => by
      obtain ⟨hroot, h⟩ := List.forall_mem_cons.mp h
      rw [← Walk.scopes_introduce hnew] at hfunction
      have hvisited := FunctionDecl.visited_of_visits function hfunction h
      rw [Walk.scopes_introduce hnew] at hvisited
      exact ⟨hroot, hdeclared, hvisited⟩
  | .classDecl name none methods, _, w, _, ⟨hnew, _, hmethods⟩, hdeclared, h => by
      obtain ⟨hroot, h⟩ := List.forall_mem_cons.mp h
      have hscopes : (({ w with cls := .base }.introduce name).openedWith .this).scopes =
          (Scopes.introduce w.scopes name).given .this := by
        rw [Walk.scopes_openedWith]
        exact congrArg (Scopes.given · .this) (Walk.scopes_introduce hnew)
      rw [← hscopes] at hmethods
      have hvisited := FunctionDecl.areVisited_of_visits methods hmethods h
      rw [hscopes] at hvisited
      exact ⟨hroot, hdeclared, hvisited⟩
  | .classDecl name (some superclass) methods, _, w, _, ⟨hnew, _, _, hmethods⟩, hdeclared, h => by
      obtain ⟨hroot, h⟩ := List.forall_mem_cons.mp h
      obtain ⟨hsuper, h⟩ := List.forall_mem_append.mp h
      have hscopes : ((((Expr.variable superclass).walk (w.inheriting name superclass)).openedWith
          .super).openedWith .this).scopes =
          ((Scopes.introduce w.scopes name).given .super).given .this := by
        rw [Walk.scopes_openedWith, Walk.scopes_openedWith, Expr.scopes_walk,
          Walk.scopes_inheriting hnew]
      have hvariable := (Expr.variable superclass).visited_of_visits hsuper
      rw [← hscopes] at hmethods
      have hvisited := FunctionDecl.areVisited_of_visits methods hmethods h
      rw [hscopes] at hvisited
      rw [Walk.scopes_inheriting hnew] at hvariable
      exact ⟨hroot, hdeclared, hvariable, hvisited⟩
  | .block body, _, w, _, hbody, hdeclared, h => by
      obtain ⟨hroot, h⟩ := List.forall_mem_cons.mp h
      exact ⟨hroot, hdeclared, Stmt.areVisited_of_visits body (w := w.opened) hbody
        (Texts.has_cons (List.Subset.refl _)) h⟩
  | .branch condition yes no, _, w, _, ⟨_, ⟨hyes, hplain⟩, hno⟩, hdeclared, h => by
      obtain ⟨hroot, h⟩ := List.forall_mem_cons.mp h
      obtain ⟨hcondition, h⟩ := List.forall_mem_append.mp h
      obtain ⟨hthen, helse⟩ := List.forall_mem_append.mp h
      rw [← condition.scopes_walk w] at hyes hno
      have hscopes := Stmt.scopes_walk yes hyes
      rw [Stmt.after_of_isPlain hplain] at hscopes
      rw [← hscopes] at hno
      have hvisited := Stmt.visited_of_visits yes hyes hplain.has_declared hthen
      have hvisited' := Stmt.visitedOptional_of_visits no hno helse
      rw [hscopes] at hvisited'
      rw [condition.scopes_walk w] at hvisited hvisited'
      exact ⟨hroot, hdeclared, condition.visited_of_visits hcondition, ⟨hvisited, hplain⟩, hvisited'⟩
  | .loop condition body, _, w, _, ⟨_, hbody, hplain⟩, hdeclared, h => by
      obtain ⟨hroot, h⟩ := List.forall_mem_cons.mp h
      obtain ⟨hcondition, h⟩ := List.forall_mem_append.mp h
      rw [← condition.scopes_walk w] at hbody
      have hvisited := Stmt.visited_of_visits body hbody hplain.has_declared h
      rw [condition.scopes_walk w] at hvisited
      exact ⟨hroot, hdeclared, condition.visited_of_visits hcondition, hvisited, hplain⟩
  | .ret keyword value, _, w, _, _, hdeclared, h => by
      obtain ⟨hroot, h⟩ := List.forall_mem_cons.mp h
      have hvisited := Expr.visitedOptional_of_visits h
      rw [Walk.scopes_reportIf, Walk.scopes_reportIf] at hvisited
      exact ⟨hroot, hdeclared, hvisited⟩

theorem FunctionDecl.visited_of_visits : ∀ (d : FunctionDecl) {T : Texts} {w : Walk}
    {context : FunctionContext}, d.Scoped known w.scopes context →
    (∀ v ∈ d.visits T context w, V v) → d.Visited V w.scopes T
  | ⟨name, parameters, body⟩, _, w, context, ⟨hnew, _, hbody⟩, h => by
      obtain ⟨hroot, h⟩ := List.forall_mem_cons.mp h
      have hopened : (parameters.foldl Walk.introduce { w with function := context }.opened).scopes =
          parameters.foldl Scopes.introduce (.empty :: w.scopes) :=
        Walk.scopes_foldl_introduce hnew
      rw [← hopened] at hbody
      have hvisited := Stmt.areVisited_of_visits body hbody
        (Texts.has_cons (List.subset_append_right _ _)) h
      rw [hopened] at hvisited
      exact ⟨hroot, hvisited⟩

theorem Stmt.areVisited_of_visits : ∀ (ss : List Stmt) {T : Texts} {w : Walk}
    {context : FunctionContext}, Stmt.AreScoped known w.scopes context ss →
    T.Has (Stmt.declaredAll ss) → (∀ v ∈ Stmt.visitsAll T ss w, V v) →
    Stmt.AreVisited V w.scopes T ss
  | [], _, _, _, _, _, _ => trivial
  | s :: ss, T, w, _, ⟨hs, hss⟩, hdeclared, h => by
      obtain ⟨hfirst, hrest⟩ := List.forall_mem_append.mp h
      have hscopes := Stmt.scopes_walk s hs
      rw [← hscopes] at hss
      have hdeclaredRest : T.Has (Stmt.declaredAll ss) := fun text htext name hname =>
        hdeclared text htext name (List.mem_append_right _ hname)
      have hvisited := Stmt.areVisited_of_visits ss hss hdeclaredRest hrest
      rw [hscopes] at hvisited
      exact ⟨Stmt.visited_of_visits s hs (Texts.has_declaredAll hdeclared s List.mem_cons_self)
        hfirst, hvisited⟩

theorem FunctionDecl.areVisited_of_visits : ∀ (ds : List FunctionDecl) {T : Texts} {w : Walk},
    FunctionDecl.AreScoped known w.scopes ds → (∀ v ∈ FunctionDecl.visitsAll T ds w, V v) →
    FunctionDecl.AreVisited V w.scopes T ds
  | [], _, _, _, _ => trivial
  | d :: ds, _, w, ⟨hd, hds⟩, h => by
      obtain ⟨hfirst, hrest⟩ := List.forall_mem_append.mp h
      have hscopes := FunctionDecl.scopes_walk d hd
      rw [← hscopes] at hds
      have hvisited := FunctionDecl.areVisited_of_visits ds hds hrest
      rw [hscopes] at hvisited
      exact ⟨FunctionDecl.visited_of_visits d hd hfirst, hvisited⟩

theorem Stmt.visitedOptional_of_visits : ∀ (s : Option Stmt) {T : Texts} {w : Walk}
    {context : FunctionContext}, Stmt.ScopedOptional known w.scopes context s →
    (∀ v ∈ Stmt.visitsOptional T s w, V v) → Stmt.VisitedOptional V w.scopes T s
  | none, _, _, _, _, _ => trivial
  | some s, _, _, _, ⟨hs, hplain⟩, h => ⟨Stmt.visited_of_visits s hs hplain.has_declared h, hplain⟩

end

end

end Lox
