import Lox.Proofs.Binding.Breaches
import Lox.Proofs.Reporting.Places
import Lox.Proofs.Reporting.Writing

/-!
# The order of scoping errors

The walk that binds names comes to the parts of a program in the order in which they are
written, with two exceptions: it comes to a value before the object whose property the value
is assigned to, and to the body of a loop before an increment that is written in front of the
body. Apart from these, breaches of the rules are reported in the order of their tokens.
-/

namespace Lox

/-- Whether two breaches are at sites that the walk comes to in another order than that in
which they are written in some tokens: in a value and in the object to a property of which the
value is assigned, or in the body of a `for` loop and in its increment. -/
inductive IsTurned (tokens : List Token) (ps : List Site) : ScopingError → ScopingError → Prop
  | value {object value : Expr} {name : Token} {x : Option Token} {Γ : Frames}
      {b b' : ScopingError} : ⟨.expr (.set object name value), x, Γ⟩ ∈ ps →
      b ∈ (value.sites x Γ).flatMap Site.breaches →
      b' ∈ (object.sites x Γ).flatMap Site.breaches → IsTurned tokens ps b b'
  | increment {condition increment : Expr} {body : Stmt} {Γ : Frames} {b b' : ScopingError} :
      ⟨.stmt (.loop condition (.block [body, .expression increment])), none, Γ⟩ ∈ ps →
      Stmt.TurnedIn (.block [body, .expression increment]) condition tokens →
      b ∈ (body.sites (⟨.block, []⟩ :: Γ)).flatMap Site.breaches →
      b' ∈ (increment.sites none (Frames.past (⟨.block, []⟩ :: Γ) body.names)).flatMap
        Site.breaches → IsTurned tokens ps b b'

/-- Whether breaches are of names among some tokens, in order except where the walk turns. -/
structure Told (tokens : List Token) (ps : List Site) (w : List Token) (bs : List ScopingError) :
    Prop where
  among : ∀ b ∈ bs, b.token ∈ w
  order : Blame.InOrder (IsTurned tokens ps) bs

/-- Whether tokens are on lines that do not fall. -/
abbrev Rising (w : List Token) : Prop :=
  w.Pairwise fun t u => t.line ≤ u.line

namespace Told

variable {ps : List Site} {tokens w w' : List Token} {bs bs' : List ScopingError}

theorem nil : Told tokens ps w [] :=
  ⟨List.forall_mem_nil _, Blame.InOrder.nil⟩

theorem mono (h : Told tokens ps w bs) (hw : w.Sublist w') : Told tokens ps w' bs :=
  ⟨fun b hb => hw.subset (h.among b hb), h.order⟩

theorem breachIf (broken : Bool) (cause : ScopingCause) (token : Token) :
    Told tokens ps [token] (breachIf broken cause token) := by
  cases broken with
  | false => exact nil
  | true => exact ⟨List.forall_mem_singleton.mpr List.mem_cons_self, .singleton _⟩

/-- What is written further back is told later. -/
theorem append (hw : Rising (w ++ w')) (h : Told tokens ps w bs) (h' : Told tokens ps w' bs') :
    Told tokens ps (w ++ w') (bs ++ bs') where
  among := List.forall_mem_append.mpr
    ⟨fun b hb => List.mem_append_left _ (h.among b hb),
      fun b hb => List.mem_append_right _ (h'.among b hb)⟩
  order := h.order.append h'.order fun b hb b' hb' =>
    .inl ((List.pairwise_append.mp hw).2.2 _ (h.among b hb) _ (h'.among b' hb'))

/-- What is written further back is told earlier, where the walk turns. -/
theorem turned (h : Told tokens ps w bs) (h' : Told tokens ps w' bs')
    (hturned : ∀ b' ∈ bs', ∀ b ∈ bs, IsTurned tokens ps b' b) :
    Told tokens ps (w ++ w') (bs' ++ bs) where
  among := List.forall_mem_append.mpr
    ⟨fun b hb => List.mem_append_right _ (h'.among b hb),
      fun b hb => List.mem_append_left _ (h.among b hb)⟩
  order := h'.order.append h.order fun b' hb' b hb => .inr (hturned b' hb' b hb)

/-- Two breaches can be at the same token. -/
theorem twice {token : Token} (h : Told tokens ps [token] bs) (h' : Told tokens ps [token] bs') :
    Told tokens ps [token] (bs ++ bs') where
  among := List.forall_mem_append.mpr ⟨h.among, h'.among⟩
  order := h.order.append h'.order fun b hb b' hb' => .inl <| by
    rw [List.mem_singleton.mp (h.among b hb), List.mem_singleton.mp (h'.among b' hb')]

/-- Two parts that are written one behind the other. -/
theorem consecutive (hrising : Rising tokens) {P Q : List Token → Prop} (hw : w.Sublist tokens)
    (h : Consecutive P Q w) (hP : ∀ w, w.Sublist tokens → P w → Told tokens ps w bs)
    (hQ : ∀ w, w.Sublist tokens → Q w → Told tokens ps w bs') : Told tokens ps w (bs ++ bs') := by
  obtain ⟨w₁, w₂, hsub, h₁, h₂⟩ := h
  have hparts : (w₁ ++ w₂).Sublist tokens := hsub.trans hw
  have hfirst := hP w₁ ((List.sublist_append_left w₁ w₂).trans hparts) h₁
  have hsecond := hQ w₂ ((List.sublist_append_right w₁ w₂).trans hparts) h₂
  exact (hfirst.append (hrising.sublist hparts) hsecond).mono hsub

/-- Two parts of which the walk comes to the one behind first. -/
theorem consecutive_turned {P Q : List Token → Prop} (hw : w.Sublist tokens)
    (h : Consecutive P Q w) (hP : ∀ w, w.Sublist tokens → P w → Told tokens ps w bs)
    (hQ : ∀ w, w.Sublist tokens → Q w → Told tokens ps w bs')
    (hturned : ∀ b' ∈ bs', ∀ b ∈ bs, IsTurned tokens ps b' b) :
    Told tokens ps w (bs' ++ bs) := by
  obtain ⟨w₁, w₂, hsub, h₁, h₂⟩ := h
  have hparts : (w₁ ++ w₂).Sublist tokens := hsub.trans hw
  have hfirst := hP w₁ ((List.sublist_append_left w₁ w₂).trans hparts) h₁
  have hsecond := hQ w₂ ((List.sublist_append_right w₁ w₂).trans hparts) h₂
  exact (hfirst.turned hsecond hturned).mono hsub

end Told

/-! ## Expressions -/

section

variable {tokens : List Token} {ps : List Site} {x : Option Token} {Γ : Frames}

/-- What is told of two expressions that are written one behind the other. -/
theorem Told.written {e e' : List Token} {qs qs' : List Site} (hw : Rising (e ++ e'))
    (h : Rising e → Told tokens ps e (qs.flatMap Site.breaches))
    (h' : Rising e' → Told tokens ps e' (qs'.flatMap Site.breaches)) :
    Told tokens ps (e ++ e') ((qs ++ qs').flatMap Site.breaches) := by
  obtain ⟨hleft, hright, -⟩ := List.pairwise_append.mp hw
  rw [List.flatMap_append]
  exact (h hleft).append hw (h' hright)

mutual

/-- What is told of an expression is told of its references, as they are written. -/
theorem Expr.told : ∀ e : Expr, Rising e.referenced → e.sites x Γ ⊆ ps →
    Told tokens ps e.referenced ((e.sites x Γ).flatMap Site.breaches)
  | .literal _, _, _ => .nil
  | .variable target, _, _ => by
      cases x with
      | none => exact .nil
      | some name => exact (Told.breachIf _ _ target.name).append (List.pairwise_singleton _ _) .nil
  | .receiver target, _, _ =>
      (Told.breachIf _ _ target.name).append (List.pairwise_singleton _ _) .nil
  | .inherited target method, _, _ => by
      rw [Expr.sites, List.flatMap_singleton, Site.breaches]
      split
      · exact .breachIf true _ _
      · exact .breachIf true _ _
      · exact .breachIf false .superOutsideClass _
  | .grouping inner, hw, hps => inner.told hw (List.cons_subset.mp hps).2
  | .unary _ _ operand, hw, hps => operand.told hw (List.cons_subset.mp hps).2
  | .binary _ _ left right, hw, hps => by
      obtain ⟨hleft, hright⟩ := List.append_subset.mp (List.cons_subset.mp hps).2
      exact .written hw (left.told · hleft) (right.told · hright)
  | .logical _ _ left right, hw, hps => by
      obtain ⟨hleft, hright⟩ := List.append_subset.mp (List.cons_subset.mp hps).2
      exact .written hw (left.told · hleft) (right.told · hright)
  | .assign _ value, hw, hps =>
      (value.told (List.pairwise_cons.mp hw).2 (List.cons_subset.mp hps).2).mono
        (List.sublist_cons_self _ _)
  | .get object _, hw, hps => object.told hw (List.cons_subset.mp hps).2
  | .set object name value, hw, hps => by
      obtain ⟨hroot, hparts⟩ := List.cons_subset.mp hps
      obtain ⟨hvalue, hobject⟩ := List.append_subset.mp hparts
      obtain ⟨hwobject, hwvalue, -⟩ := List.pairwise_append.mp hw
      change Told tokens ps _ ((value.sites x Γ ++ object.sites x Γ).flatMap Site.breaches)
      rw [List.flatMap_append]
      exact (object.told hwobject hobject).turned (value.told hwvalue hvalue)
        fun _ hb' _ hb => .value hroot hb' hb
  | .call callee _ arguments, hw, hps => by
      obtain ⟨hcallee, harguments⟩ := List.append_subset.mp (List.cons_subset.mp hps).2
      exact .written hw (callee.told · hcallee) (Expr.told_all arguments · harguments)

theorem Expr.told_all : ∀ es : List Expr, Rising (Expr.referencedAll es) →
    Expr.sitesAll x Γ es ⊆ ps →
    Told tokens ps (Expr.referencedAll es) ((Expr.sitesAll x Γ es).flatMap Site.breaches)
  | [], _, _ => .nil
  | e :: es, hw, hps => by
      obtain ⟨hfirst, hothers⟩ := List.append_subset.mp hps
      exact .written hw (e.told · hfirst) (Expr.told_all es · hothers)

end

theorem Expr.told_optional (e : Option Expr) (hw : Rising (Expr.referencedOptional e))
    (hps : Expr.sitesOptional x Γ e ⊆ ps) :
    Told tokens ps (Expr.referencedOptional e)
      ((Expr.sitesOptional x Γ e).flatMap Site.breaches) := by
  cases e with
  | none => exact .nil
  | some e => exact e.told hw hps

end

/-! ## Statements -/

section

variable {tokens : List Token} {ps : List Site}

theorem told_parameters {Γ : Frames} (names : List Token) (hw : Rising names) :
    Told tokens ps names ((parameterSites Γ names).flatMap Site.breaches) := by
  induction names generalizing Γ with
  | nil => exact .nil
  | cons name names ih =>
    rw [parameterSites, List.flatMap_cons]
    exact (Told.breachIf _ _ name).append hw (ih (List.pairwise_cons.mp hw).2)

/-- What is told of a name is told before what is behind it. -/
theorem Told.cons {t : Token} {w : List Token} {bs bs' : List ScopingError} (hw : Rising (t :: w))
    (h : Told tokens ps [t] bs) (h' : Rising w → Told tokens ps w bs') :
    Told tokens ps (t :: w) (bs ++ bs') :=
  h.append hw (h' (List.pairwise_cons.mp hw).2)

/-- What is told of a class before its methods is told of its name and its superclass. -/
theorem told_class {Γ : Frames} (name : Token) (superclass : Option Reference)
    (methods : List FunctionDecl) (hw : Rising (name :: (superclass.map Reference.name).toList)) :
    Told tokens ps (name :: (superclass.map Reference.name).toList)
      (Site.breaches ⟨.stmt (.classDecl name superclass methods), none, Γ⟩ ++
        (Expr.sitesOptional none (Γ.past [name]) (superclass.map .variable)).flatMap
          Site.breaches) := by
  cases superclass with
  | none => exact (Told.breachIf _ _ name).append hw .nil
  | some superclass =>
    exact (Told.cons hw (.breachIf _ _ name) fun _ => .breachIf _ _ superclass.name).append
      (hw.sublist (by simp)) .nil

theorem flatMap_sitesAll_expression (Γ : Frames) (value : Expr) :
    (Stmt.sitesAll Γ [.expression value]).flatMap Site.breaches =
      (value.sites none Γ).flatMap Site.breaches := by
  rw [Stmt.sitesAll, Stmt.sitesAll, List.append_nil, Stmt.sites, List.flatMap_cons]
  rfl

mutual

/-- What is told of a statement is told of its names, as they are written. -/
theorem Stmt.told (hrising : Rising tokens) : ∀ (s : Stmt) (Γ : Frames) (w : List Token),
    w.Sublist tokens → s.WrittenIn w → s.sites Γ ⊆ ps →
    Told tokens ps w ((s.sites Γ).flatMap Site.breaches)
  | .expression value, _, _, hw, h, hps =>
      (value.told (hrising.sublist (.trans h hw)) (List.cons_subset.mp hps).2).mono h
  | .print value, _, _, hw, h, hps =>
      (value.told (hrising.sublist (.trans h hw)) (List.cons_subset.mp hps).2).mono h
  | .varDecl name initializer, _, _, hw, h, hps =>
      (Told.cons (hrising.sublist (.trans h hw)) (.breachIf _ _ name)
        (Expr.told_optional initializer · (List.cons_subset.mp hps).2)).mono h
  | .funDecl function, _, w, hw, h, hps =>
      FunctionDecl.told hrising function _ _ w _ hw h (List.cons_subset.mp hps).2
        (.breachIf _ _ function.name)
  | .classDecl name superclass methods, Γ, w, hw, h, hps => by
      obtain ⟨-, hmethods⟩ := List.append_subset.mp (List.cons_subset.mp hps).2
      rw [Stmt.sites, List.flatMap_cons, List.flatMap_append, ← List.append_assoc]
      exact .consecutive hrising hw h
        (fun w hw h =>
          (told_class name superclass methods (hrising.sublist (.trans h hw))).mono h)
        fun w hw h => FunctionDecl.told_all hrising methods superclass _ w hw h hmethods
  | .block body, Γ, w, hw, h, hps =>
      Stmt.told_all hrising body _ w hw h (List.cons_subset.mp hps).2
  | .branch condition yes no, Γ, w, hw, h, hps => by
      obtain ⟨hcondition, hbranches⟩ := List.append_subset.mp (List.cons_subset.mp hps).2
      obtain ⟨hyes, hno⟩ := List.append_subset.mp hbranches
      change Told tokens ps w ((condition.sites none Γ ++ (yes.sites Γ ++ _)).flatMap Site.breaches)
      rw [List.flatMap_append, List.flatMap_append]
      refine .consecutive hrising hw h (fun w hw h => ?_) fun w hw h =>
        .consecutive hrising hw h (fun w hw h => Stmt.told hrising yes Γ w hw h hyes)
          fun w hw h => Stmt.told_optional hrising no _ w hw h hno
      exact (condition.told (hrising.sublist (.trans h hw)) hcondition).mono h
  | .loop condition body, Γ, w, hw, h, hps => by
      obtain ⟨hroot, hparts⟩ := List.cons_subset.mp hps
      obtain ⟨hcondition, hbody⟩ := List.append_subset.mp hparts
      change Told tokens ps w ((condition.sites none Γ ++ body.sites Γ).flatMap Site.breaches)
      rw [List.flatMap_append]
      obtain h | h := h
      · refine .consecutive hrising hw h (fun w hw h => ?_)
          fun w hw h => Stmt.told hrising body Γ w hw h hbody
        exact (condition.told (hrising.sublist (.trans h hw)) hcondition).mono h
      · exact Stmt.told_turned hrising body Γ w condition hw h hroot hcondition hbody
  | .ret keyword value, _, _, hw, h, hps =>
      (Told.cons (hrising.sublist (.trans h hw))
        ((Told.breachIf _ _ keyword).twice (.breachIf _ _ keyword))
        (Expr.told_optional value · (List.cons_subset.mp hps).2)).mono h

/-- Of a body and the increment that is written in front of it, the body is told first. -/
theorem Stmt.told_turned (hrising : Rising tokens) : ∀ (s : Stmt) (Γ : Frames) (w : List Token)
    (condition : Expr), w.Sublist tokens → s.TurnedIn condition w →
    ⟨.stmt (.loop condition s), none, Γ⟩ ∈ ps → condition.sites none Γ ⊆ ps → s.sites Γ ⊆ ps →
    Told tokens ps w ((condition.sites none Γ).flatMap Site.breaches ++
      (s.sites Γ).flatMap Site.breaches)
  | .block (body :: last), Γ, w, condition, hw, h, hroot, hcondition, hps => by
      have hturned := h.mono hw
      obtain ⟨semicolon, increment, parenthesis, rfl, -, -, hparts⟩ := h
      obtain ⟨hbody, hlast⟩ := List.append_subset.mp (List.cons_subset.mp hps).2
      have hincrement := (List.cons_subset.mp (List.append_subset.mp hlast).1).2
      refine .consecutive hrising hw hparts (fun w hw h => ?_) fun w hw h => ?_
      · have hwritten := (List.sublist_append_left _ _).trans h
        exact (condition.told (hrising.sublist (hwritten.trans hw)) hcondition).mono hwritten
      · change Told tokens ps w ((body.sites (⟨.block, []⟩ :: Γ) ++ Stmt.sitesAll
          (Frames.past (⟨.block, []⟩ :: Γ) body.names) [.expression increment]).flatMap
            Site.breaches)
        rw [List.flatMap_append, flatMap_sitesAll_expression]
        refine .consecutive_turned hw h (fun w hw h => ?_)
          (fun w hw h => Stmt.told hrising body _ w hw h hbody)
          fun b' hb' b hb => .increment hroot hturned hb' hb
        have hwritten := (List.sublist_append_left _ _).trans h
        exact (increment.told (hrising.sublist (hwritten.trans hw)) hincrement).mono hwritten
  | .block [], _, _, _, _, h, _, _, _ | .expression _, _, _, _, _, h, _, _, _ => h.elim
  | .print _, _, _, _, _, h, _, _, _ | .varDecl _ _, _, _, _, _, h, _, _, _ => h.elim
  | .funDecl _, _, _, _, _, h, _, _, _ | .classDecl _ _ _, _, _, _, _, h, _, _, _ => h.elim
  | .branch _ _ _, _, _, _, _, h, _, _, _ | .loop _ _, _, _, _, _, h, _, _, _ => h.elim
  | .ret _ _, _, _, _, _, h, _, _, _ => h.elim

/-- What is told of the name of a function is told before what is behind it. -/
theorem FunctionDecl.told (hrising : Rising tokens) : ∀ (d : FunctionDecl) (opening : Opening)
    (Γ : Frames) (w : List Token) (bs : List ScopingError), w.Sublist tokens → d.WrittenIn w →
    d.sites opening Γ ⊆ ps → Told tokens ps [d.name] bs →
    Told tokens ps w (bs ++ (d.sites opening Γ).flatMap Site.breaches)
  | ⟨name, parameters, body⟩, opening, Γ, w, bs, hw, h, hps, hname => by
      obtain ⟨-, hbody⟩ := List.append_subset.mp hps
      rw [FunctionDecl.sites, List.flatMap_append, ← List.append_assoc]
      refine .consecutive hrising hw h (fun w hw h => ?_)
        fun w hw h => Stmt.told_all hrising body _ w hw h hbody
      exact (Told.cons (hrising.sublist (.trans h hw)) hname (told_parameters parameters)).mono h

theorem Stmt.told_all (hrising : Rising tokens) : ∀ (ss : List Stmt) (Γ : Frames)
    (w : List Token), w.Sublist tokens → Stmt.AllWrittenIn ss w → Stmt.sitesAll Γ ss ⊆ ps →
    Told tokens ps w ((Stmt.sitesAll Γ ss).flatMap Site.breaches)
  | [], _, _, _, _, _ => .nil
  | s :: ss, Γ, _, hw, h, hps => by
      obtain ⟨hfirst, hothers⟩ := List.append_subset.mp hps
      rw [Stmt.sitesAll, List.flatMap_append]
      exact .consecutive hrising hw h (fun w hw h => Stmt.told hrising s Γ w hw h hfirst)
        fun w hw h => Stmt.told_all hrising ss _ w hw h hothers

theorem FunctionDecl.told_all (hrising : Rising tokens) : ∀ (ds : List FunctionDecl)
    (superclass : Option Reference) (Γ : Frames) (w : List Token), w.Sublist tokens →
    FunctionDecl.AllWrittenIn ds w → FunctionDecl.sitesAll superclass Γ ds ⊆ ps →
    Told tokens ps w ((FunctionDecl.sitesAll superclass Γ ds).flatMap Site.breaches)
  | [], _, _, _, _, _, _ => .nil
  | d :: ds, superclass, Γ, _, hw, h, hps => by
      obtain ⟨hfirst, hothers⟩ := List.append_subset.mp hps
      rw [FunctionDecl.sitesAll, List.flatMap_append]
      exact .consecutive hrising hw h
        (fun w hw h => FunctionDecl.told hrising d _ Γ w [] hw h hfirst .nil)
        fun w hw h => FunctionDecl.told_all hrising ds superclass Γ w hw h hothers

theorem Stmt.told_optional (hrising : Rising tokens) : ∀ (s : Option Stmt) (Γ : Frames)
    (w : List Token), w.Sublist tokens → Stmt.OptionalWrittenIn s w →
    Stmt.sitesOptional Γ s ⊆ ps → Told tokens ps w ((Stmt.sitesOptional Γ s).flatMap Site.breaches)
  | none, _, _, _, _, _ => .nil
  | some s, Γ, w, hw, h, hps => Stmt.told hrising s Γ w hw h hps

end

end

/-- What breaks the rules in a program is told in order, as the program is written. -/
theorem told_breaches {program : List Stmt} {tokens w : List Token} (hrising : Rising tokens)
    (hw : w.Sublist tokens) (h : Stmt.AllWrittenIn program w) :
    Told tokens (sites program) w (breaches program) :=
  Stmt.told_all hrising program [] w hw h (List.Subset.refl _)

end Lox
