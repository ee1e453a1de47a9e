import Lox.Proofs.Syntax.ReadStatements

/-!
# How trees are written

In which order the names of a tree stand in the tokens that it was read from. A tree does
not tell a `for` loop from the `while` loop that it is short for, so of a loop whose body is
a block of a statement and an expression, both orders are possible: the expression can be an
increment, which is written before the statement and carried out after it. Then it stands
between a semicolon and a closing parenthesis.
-/

namespace Lox

/-! ## Expressions -/

mutual

/-- The names of the references in an expression, as it is written. -/
def Expr.referenced : Expr → List Token
  | .literal _ => []
  | .variable target => [target.name]
  | .receiver target => [target.name]
  | .inherited target _ => [target.name]
  | .grouping inner => inner.referenced
  | .unary _ _ operand => operand.referenced
  | .binary _ _ left right => left.referenced ++ right.referenced
  | .logical _ _ left right => left.referenced ++ right.referenced
  | .assign target value => target.name :: value.referenced
  | .get object _ => object.referenced
  | .set object _ value => object.referenced ++ value.referenced
  | .call callee _ arguments => callee.referenced ++ Expr.referencedAll arguments

/-- The names of the references in expressions, as they are written. -/
def Expr.referencedAll : List Expr → List Token
  | [] => []
  | e :: es => e.referenced ++ Expr.referencedAll es

end

/-- The names of the references in an expression that may be left out. -/
def Expr.referencedOptional (e : Option Expr) : List Token :=
  e.elim [] Expr.referenced

mutual

@[simp] theorem Expr.referenced_unnumbered : ∀ e : Expr, e.unnumbered.referenced = e.referenced
  | .literal _ => rfl
  | .variable _ => rfl
  | .receiver _ => rfl
  | .inherited _ _ => rfl
  | .grouping inner => inner.referenced_unnumbered
  | .unary _ _ operand => operand.referenced_unnumbered
  | .binary _ _ left right => by
      simp only [Expr.unnumbered, Expr.referenced, left.referenced_unnumbered,
        right.referenced_unnumbered]
  | .logical _ _ left right => by
      simp only [Expr.unnumbered, Expr.referenced, left.referenced_unnumbered,
        right.referenced_unnumbered]
  | .assign _ value => by
      simp only [Expr.unnumbered, Expr.referenced, Reference.unnumbered,
        value.referenced_unnumbered]
  | .get object _ => object.referenced_unnumbered
  | .set object _ value => by
      simp only [Expr.unnumbered, Expr.referenced, object.referenced_unnumbered,
        value.referenced_unnumbered]
  | .call callee _ arguments => by
      simp only [Expr.unnumbered, Expr.referenced, callee.referenced_unnumbered,
        Expr.referencedAll_unnumbered arguments]

theorem Expr.referencedAll_unnumbered :
    ∀ es : List Expr, Expr.referencedAll (Expr.unnumberedAll es) = Expr.referencedAll es
  | [] => rfl
  | e :: es => by
      simp only [Expr.unnumberedAll, Expr.referencedAll, e.referenced_unnumbered,
        Expr.referencedAll_unnumbered es]

end

@[simp] theorem Expr.referencedOptional_unnumbered (e : Option Expr) :
    Expr.referencedOptional (e.map Expr.unnumbered) = Expr.referencedOptional e := by
  cases e with
  | none => rfl
  | some e => exact e.referenced_unnumbered

/-! ## Statements -/

/-- Whether one thing is written in some tokens and another one behind it. -/
def Consecutive (P Q : List Token → Prop) (w : List Token) : Prop :=
  ∃ w₁ w₂, (w₁ ++ w₂).Sublist w ∧ P w₁ ∧ Q w₂

namespace Consecutive

variable {P Q P' Q' : List Token → Prop} {w w' : List Token}

theorem mono (h : Consecutive P Q w) (hw : w.Sublist w') : Consecutive P Q w' := by
  obtain ⟨w₁, w₂, hsub, hP, hQ⟩ := h
  exact ⟨w₁, w₂, hsub.trans hw, hP, hQ⟩

theorem imp (h : Consecutive P Q w) (hP : ∀ w, P w → P' w) (hQ : ∀ w, Q w → Q' w) :
    Consecutive P' Q' w := by
  obtain ⟨w₁, w₂, hsub, h₁, h₂⟩ := h
  exact ⟨w₁, w₂, hsub, hP w₁ h₁, hQ w₂ h₂⟩

/-- There may be nothing behind the first thing. -/
theorem of_left (hP : P w) (hQ : Q []) : Consecutive P Q w :=
  ⟨w, [], by simp, hP, hQ⟩

end Consecutive

mutual

/-- Whether the names of a statement stand in some tokens as it is written. -/
def Stmt.WrittenIn : Stmt → List Token → Prop
  | .expression value, w => value.referenced.Sublist w
  | .print value, w => value.referenced.Sublist w
  | .varDecl name initializer, w => (name :: Expr.referencedOptional initializer).Sublist w
  | .funDecl function, w => function.WrittenIn w
  | .classDecl name superclass methods, w =>
      Consecutive (List.Sublist (name :: (superclass.map Reference.name).toList))
        (FunctionDecl.AllWrittenIn methods) w
  | .block body, w => Stmt.AllWrittenIn body w
  | .branch condition yes no, w =>
      Consecutive (List.Sublist condition.referenced)
        (Consecutive yes.WrittenIn (Stmt.OptionalWrittenIn no)) w
  | .loop condition body, w =>
      Consecutive (List.Sublist condition.referenced) body.WrittenIn w ∨ body.TurnedIn condition w
  | .ret keyword value, w => (keyword :: Expr.referencedOptional value).Sublist w

/-- Whether the body of a loop with some condition is written as in a `for` loop: it is a
statement and an increment, and the increment stands behind the condition, between a semicolon
and a closing parenthesis, and the statement behind that. -/
def Stmt.TurnedIn : Stmt → Expr → List Token → Prop
  | .block (body :: last), condition, w =>
      ∃ (semicolon : Token) (increment : Expr) (parenthesis : Token),
        last = [.expression increment] ∧ semicolon.kind = .symbol .semicolon ∧
        parenthesis.kind = .symbol .rightParen ∧
        Consecutive (List.Sublist (condition.referenced ++ [semicolon]))
          (Consecutive (List.Sublist (increment.referenced ++ [parenthesis])) body.WrittenIn) w
  | _, _, _ => False

/-- Whether the names of a function stand in some tokens as it is written. -/
def FunctionDecl.WrittenIn : FunctionDecl → List Token → Prop
  | ⟨name, parameters, body⟩, w =>
      Consecutive (List.Sublist (name :: parameters)) (Stmt.AllWrittenIn body) w

/-- Whether the names of statements stand in some tokens as they are written. -/
def Stmt.AllWrittenIn : List Stmt → List Token → Prop
  | [], _ => True
  | s :: ss, w => Consecutive s.WrittenIn (Stmt.AllWrittenIn ss) w

/-- Whether the names of functions stand in some tokens as they are written. -/
def FunctionDecl.AllWrittenIn : List FunctionDecl → List Token → Prop
  | [], _ => True
  | d :: ds, w => Consecutive d.WrittenIn (FunctionDecl.AllWrittenIn ds) w

/-- Whether the names of a statement that may be left out stand in some tokens. -/
def Stmt.OptionalWrittenIn : Option Stmt → List Token → Prop
  | none, _ => True
  | some s, w => s.WrittenIn w

end

section

variable {w w' : List Token}

theorem Stmt.AllWrittenIn.mono {ss : List Stmt} (h : Stmt.AllWrittenIn ss w) (hw : w.Sublist w') :
    Stmt.AllWrittenIn ss w' := by
  cases ss with
  | nil => exact h
  | cons s ss => exact Consecutive.mono h hw

theorem FunctionDecl.AllWrittenIn.mono {ds : List FunctionDecl}
    (h : FunctionDecl.AllWrittenIn ds w) (hw : w.Sublist w') : FunctionDecl.AllWrittenIn ds w' := by
  cases ds with
  | nil => exact h
  | cons d ds => exact Consecutive.mono h hw

theorem FunctionDecl.WrittenIn.mono {d : FunctionDecl} (h : d.WrittenIn w) (hw : w.Sublist w') :
    d.WrittenIn w' := by
  cases d
  exact Consecutive.mono h hw

theorem Stmt.TurnedIn.mono {s : Stmt} {condition : Expr} (h : s.TurnedIn condition w)
    (hw : w.Sublist w') : s.TurnedIn condition w' := by
  cases s with
  | block body =>
    cases body with
    | nil => exact h
    | cons body last =>
      obtain ⟨semicolon, increment, parenthesis, hlast, hsemicolon, hparenthesis, hparts⟩ := h
      exact ⟨semicolon, increment, parenthesis, hlast, hsemicolon, hparenthesis, hparts.mono hw⟩
  | _ => exact h

theorem Stmt.WrittenIn.mono {s : Stmt} (h : s.WrittenIn w) (hw : w.Sublist w') :
    s.WrittenIn w' := by
  cases s with
  | expression => exact List.Sublist.trans h hw
  | print => exact List.Sublist.trans h hw
  | varDecl => exact List.Sublist.trans h hw
  | ret => exact List.Sublist.trans h hw
  | funDecl => exact FunctionDecl.WrittenIn.mono h hw
  | block => exact Stmt.AllWrittenIn.mono h hw
  | classDecl => exact Consecutive.mono h hw
  | branch => exact Consecutive.mono h hw
  | loop => exact Or.imp (Consecutive.mono · hw) (Stmt.TurnedIn.mono · hw) h

end

/-! ## Trees with their numbers -/

theorem Stmt.unnumberedAll_eq_singleton {ss : List Stmt} {e : Expr}
    (h : Stmt.unnumberedAll ss = [.expression e]) :
    ∃ value, ss = [.expression value] ∧ value.unnumbered = e := by
  obtain _ | ⟨s, _ | ⟨s', ss⟩⟩ := ss
  · cases h
  · cases s <;> simp_all [Stmt.unnumberedAll, Stmt.unnumbered]
  · simp [Stmt.unnumberedAll] at h

mutual

theorem Stmt.WrittenIn.of_unnumbered :
    ∀ (s : Stmt) (w : List Token), s.unnumbered.WrittenIn w → s.WrittenIn w
  | .expression value, _, h => by
      simpa only [Stmt.unnumbered, Stmt.WrittenIn, Expr.referenced_unnumbered] using h
  | .print value, _, h => by
      simpa only [Stmt.unnumbered, Stmt.WrittenIn, Expr.referenced_unnumbered] using h
  | .varDecl name initializer, w, h => by
      simpa only [Stmt.unnumbered, Stmt.WrittenIn, Expr.referencedOptional_unnumbered] using h
  | .funDecl function, w, h => FunctionDecl.WrittenIn.of_unnumbered function w h
  | .classDecl name superclass methods, w, h => by
      refine Consecutive.imp h (fun w hw => ?_) (FunctionDecl.AllWrittenIn.of_unnumbered methods)
      cases superclass <;> exact hw
  | .block body, w, h => Stmt.AllWrittenIn.of_unnumbered body w h
  | .branch condition yes no, w, h => by
      refine Consecutive.imp h (fun w hw => condition.referenced_unnumbered ▸ hw) fun w hw => ?_
      exact Consecutive.imp hw (Stmt.WrittenIn.of_unnumbered yes)
        (Stmt.OptionalWrittenIn.of_unnumbered no)
  | .loop condition body, w, h => by
      refine Or.imp (fun h => ?_) (Stmt.TurnedIn.of_unnumbered body condition w) h
      exact Consecutive.imp h (fun w hw => condition.referenced_unnumbered ▸ hw)
        (Stmt.WrittenIn.of_unnumbered body)
  | .ret keyword value, w, h => by
      simpa only [Stmt.unnumbered, Stmt.WrittenIn, Expr.referencedOptional_unnumbered] using h

theorem Stmt.TurnedIn.of_unnumbered :
    ∀ (s : Stmt) (condition : Expr) (w : List Token),
      s.unnumbered.TurnedIn condition.unnumbered w → s.TurnedIn condition w
  | .block (body :: last), condition, w, h => by
      obtain ⟨semicolon, increment, parenthesis, hlast, hsemicolon, hparenthesis, hparts⟩ := h
      obtain ⟨increment, rfl, rfl⟩ := Stmt.unnumberedAll_eq_singleton hlast
      rw [condition.referenced_unnumbered, increment.referenced_unnumbered] at hparts
      refine ⟨semicolon, increment, parenthesis, rfl, hsemicolon, hparenthesis, ?_⟩
      exact hparts.imp (fun _ => id) fun _ hw =>
        hw.imp (fun _ => id) (Stmt.WrittenIn.of_unnumbered body)
  | .block [], _, _, h | .expression _, _, _, h | .print _, _, _, h => h.elim
  | .varDecl _ _, _, _, h | .funDecl _, _, _, h | .classDecl _ _ _, _, _, h => h.elim
  | .branch _ _ _, _, _, h | .loop _ _, _, _, h | .ret _ _, _, _, h => h.elim

theorem FunctionDecl.WrittenIn.of_unnumbered :
    ∀ (d : FunctionDecl) (w : List Token), d.unnumbered.WrittenIn w → d.WrittenIn w
  | ⟨_, _, body⟩, _, h => Consecutive.imp h (fun _ => id) (Stmt.AllWrittenIn.of_unnumbered body)

theorem Stmt.AllWrittenIn.of_unnumbered :
    ∀ (ss : List Stmt) (w : List Token), Stmt.AllWrittenIn (Stmt.unnumberedAll ss) w →
      Stmt.AllWrittenIn ss w
  | [], _, h => h
  | s :: ss, _, h => Consecutive.imp h (Stmt.WrittenIn.of_unnumbered s)
      (Stmt.AllWrittenIn.of_unnumbered ss)

theorem FunctionDecl.AllWrittenIn.of_unnumbered :
    ∀ (ds : List FunctionDecl) (w : List Token),
      FunctionDecl.AllWrittenIn (FunctionDecl.unnumberedAll ds) w → FunctionDecl.AllWrittenIn ds w
  | [], _, h => h
  | d :: ds, _, h => Consecutive.imp h (FunctionDecl.WrittenIn.of_unnumbered d)
      (FunctionDecl.AllWrittenIn.of_unnumbered ds)

theorem Stmt.OptionalWrittenIn.of_unnumbered :
    ∀ (s : Option Stmt) (w : List Token), Stmt.OptionalWrittenIn (Stmt.unnumberedOptional s) w →
      Stmt.OptionalWrittenIn s w
  | none, _, h => h
  | some s, w, h => Stmt.WrittenIn.of_unnumbered s w h

end

/-! ## Derivations -/

/-- Whether the names of what a rule derives stand in some tokens as it is written. -/
def Rule.WrittenIn : (r : Rule) → r.Tree → List Token → Prop
  | .primary, e, w | .call, e, w | .unary, e, w | .operand _, e, w | .tier _, e, w
  | .assignment, e, w | .expression, e, w => (Expr.referenced e).Sublist w
  | .optionalExpression, o, w => (Expr.referencedOptional o).Sublist w
  | .moreArguments, es, w | .arguments, es, w => (Expr.referencedAll es).Sublist w
  | .varDecl, s, w | .classDecl, s, w | .declaration, s, w | .exprStmt, s, w
  | .statement _, s, w => Stmt.WrittenIn s w
  | .forInitializer, o, w => Stmt.OptionalWrittenIn o w
  | .moreParameters, ps, w | .parameters, ps, w => List.Sublist ps w
  | .callable, d, w => FunctionDecl.WrittenIn d w
  | .methods, ds, w => FunctionDecl.AllWrittenIn ds w
  | .block, ss, w | .declarations, ss, w => Stmt.AllWrittenIn ss w

theorem Tier.Operator.referenced {t : Tier} {k : TokenKind} {node : Token → Expr → Expr → Expr}
    (h : t.Operator k node) (o : Token) (left right : Expr) :
    (node o left right).referenced = left.referenced ++ right.referenced := by
  cases h <;> rfl

/-- The increment of a loop is written in front of the body that it follows. -/
theorem forLoop_writtenIn {i : Option Stmt} {c e : Option Expr} {s : Stmt} {m r : Token}
    {w w₁ w₂ w' : List Token} (hi : Stmt.OptionalWrittenIn i w)
    (hc : (Expr.referencedOptional c).Sublist w₁) (hm : m.kind = .symbol .semicolon)
    (he : (Expr.referencedOptional e).Sublist w₂) (hr : r.kind = .symbol .rightParen)
    (hs : s.WrittenIn w') :
    (Stmt.forLoop i c e s).WrittenIn (w ++ (w₁ ++ m :: (w₂ ++ r :: w'))) := by
  have hcondition : (c.getD (.literal (.bool true))).referenced.Sublist w₁ := by
    cases c with
    | none => exact List.nil_sublist _
    | some c => exact hc
  have hloop : (Stmt.forLoop none c e s).WrittenIn (w₁ ++ m :: (w₂ ++ r :: w')) := by
    cases e with
    | none =>
      have hbody : w'.Sublist (w₂ ++ r :: w') :=
        (List.sublist_cons_self r w').trans (List.sublist_append_right w₂ _)
      exact .inl ⟨w₁, w', (List.Sublist.refl w₁).append (hbody.cons m), hcondition, hs⟩
    | some e =>
      have hsplit (t : Token) (u v : List Token) : (u ++ [t] ++ v).Sublist (u ++ t :: v) :=
        List.append_cons u t v ▸ List.Sublist.refl _
      exact .inr ⟨m, e, r, rfl, hm, hr, w₁ ++ [m], _, hsplit m _ _, hcondition.append_right [m],
        w₂ ++ [r], w', hsplit r _ _, he.append_right [r], hs⟩
  cases i with
  | none => exact hloop.mono (List.sublist_append_right w _)
  | some i => exact ⟨w, _, List.Sublist.refl _, hi, .of_left hloop trivial⟩

/-- Two parts behind a word and an opening parenthesis, with a closing one between them. -/
theorem sublist_parenthesized (k l r : Token) (w w' : List Token) :
    (w ++ w').Sublist (k :: l :: w ++ r :: w') :=
  (((List.Sublist.refl w).append (List.sublist_cons_self r w')).cons l).cons k

/-- The names of what is derived from tokens stand there as it is written. -/
theorem Derives.writtenIn {nearest : Prop} {r : Rule} {room : Nat} {w : List Token}
    {tree : r.Tree} (h : Derives nearest r room w tree) : r.WrittenIn tree w := by
  induction h with
  | application _ _ _ _ ih ih' =>
    exact (ih.append (ih'.cons _)).trans (List.sublist_append_left _ _)
  | nextArgument _ _ _ ih ih' => exact ih.append (ih'.cons _)
  | operator _ hop _ ih ih' =>
    rw [Rule.WrittenIn, hop.referenced]
    exact ih.append (ih'.cons _)
  | setProperty _ _ _ _ _ ih ih' => exact ih.append (((ih'.cons _).cons _).cons _)
  | initialized _ _ _ _ _ ih =>
    exact (((ih.cons _).cons_cons _).cons _).trans (List.sublist_append_left _ _)
  | «while» _ _ _ _ _ ih ih' => exact .inl ⟨_, _, sublist_parenthesized _ _ _ _ _, ih, ih'⟩
  | @«for» _ k l w w₁ m w₂ r w' _ _ _ _ _ _ _ _ _ hm _ hr _ ihi ihc ihe ihs =>
    have hparts : (w ++ (w₁ ++ m :: (w₂ ++ r :: w'))).Sublist
        (k :: l :: w ++ w₁ ++ m :: w₂ ++ r :: w') := by
      simp only [List.append_assoc, List.cons_append]
      exact ((List.Sublist.refl _).cons l).cons k
    exact (forLoop_writtenIn ihi ihc hm ihe hr ihs).mono hparts
  | ifThen _ _ _ _ _ ih ih' =>
    exact ⟨_, _, sublist_parenthesized _ _ _ _ _, ih, .of_left ih' trivial⟩
  | @ifThenElse _ k l w r w₁ x w₂ _ _ _ _ _ _ _ _ _ _ _ _ _ ih ih' ih'' =>
    refine ⟨w, w₁ ++ w₂, ?_, ih, w₁, w₂, List.Sublist.refl _, ih', ih''⟩
    rw [← List.append_assoc]
    exact (sublist_parenthesized k l r w w₁).append (List.sublist_cons_self x w₂)
  | @callable _ n l w r w' _ _ _ _ _ _ _ ih ih' =>
    refine ⟨n :: w, w', ?_, ih.cons_cons n, ih'⟩
    exact ((List.sublist_cons_self l w).cons_cons n).append (List.sublist_cons_self r w')
  | method _ _ ih ih' => exact ⟨_, _, List.Sublist.refl _, ih, ih'⟩
  | funMethod _ _ _ ih ih' => exact ⟨_, _, List.sublist_cons_self _ _, ih, ih'⟩
  | @baseClass _ c n l w r _ _ _ _ _ _ ih =>
    refine ⟨[n], w, ?_, List.Sublist.refl _, ih⟩
    exact (((List.sublist_append_left w [r]).cons l).cons_cons n).cons c
  | @subclass _ c n q p l w r _ _ _ _ _ _ _ _ ih =>
    refine ⟨[n, p], w, ?_, List.Sublist.refl _, ih⟩
    exact (((((List.sublist_append_left w [r]).cons l).cons_cons p).cons q).cons_cons n).cons c
  | block _ _ _ ih => exact ih.mono ((List.sublist_append_left _ _).cons _)
  | declareFunction _ _ ih => exact ih.mono (List.sublist_cons_self _ _)
  | declarations _ _ ih ih' => exact ⟨_, _, List.Sublist.refl _, ih, ih'⟩
  | _ =>
    simp_all [Rule.WrittenIn, Expr.referenced, Expr.referencedAll, Expr.referencedOptional,
      Stmt.WrittenIn, Stmt.AllWrittenIn, Stmt.OptionalWrittenIn, FunctionDecl.AllWrittenIn,
      Reference.to]

/-- The names of a program that is read stand in its tokens as it is written. -/
theorem writtenIn_of_parseProgram {body : List Token} {eof : Token} {firstId nextId : NodeId}
    {program : List Stmt} (heof : eof.isEnd = true) (hbody : ∀ t ∈ body, t.isEnd = false)
    (h : parseProgram (body ++ [eof]) firstId = (.ok program, nextId)) :
    Stmt.AllWrittenIn program body :=
  .of_unnumbered program body (parseProgram_sound heof hbody h).writtenIn

end Lox
