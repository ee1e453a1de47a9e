import Lox.Proofs.Scoping.Scoped
import Lox.Proofs.Syntax.Numbering

/-!
# Programs that resolve are well-scoped

A walk only ever adds errors. Where it has added none, the piece of program that
it went over fits the scopes in which the walk met it, for all who know of its
references what the walk has noted. A program that is resolved is therefore
well-scoped for its table.

## Implementation notes

References have distinct numbers, so what is noted of one piece of program is
not changed by what is noted of the next. `Walk.Notes` says this of two walks
one after the other; it is proved for each rule and composed by `trans`.
-/

namespace Lox

/-! ## Errors -/

namespace Walk

theorem errors_reportIf (w : Walk) (breach : Bool) (cause : ScopingCause) (token : Token) :
    w.errors <+: (w.reportIf breach cause token).errors := by
  cases breach
  · exact List.prefix_refl _
  · exact List.prefix_append _ _

@[simp] theorem errors_mark (w : Walk) (name : String) (ready : Bool) :
    (w.mark name ready).errors = w.errors := by
  unfold mark
  split <;> rfl

@[simp] theorem errors_lookUp (w : Walk) (target : Reference) :
    (w.lookUp target).errors = w.errors := by
  unfold lookUp
  split <;> rfl

theorem errors_declare (w : Walk) (name : Token) : w.errors <+: (w.declare name).errors := by
  unfold declare
  split
  · exact List.prefix_refl _
  · split
    · exact List.prefix_append _ _
    · exact (errors_mark w _ _).symm ▸ List.prefix_refl _

@[simp] theorem errors_define (w : Walk) (name : Token) : (w.define name).errors = w.errors :=
  errors_mark w _ _

theorem errors_introduce (w : Walk) (name : Token) : w.errors <+: (w.introduce name).errors := by
  rw [introduce, errors_define]
  exact errors_declare w name

theorem errors_foldl_introduce (names : List Token) (w : Walk) :
    w.errors <+: (names.foldl introduce w).errors := by
  induction names generalizing w with
  | nil => exact List.prefix_refl _
  | cons name names ih => exact (errors_introduce w name).trans (ih _)

theorem errors_inScope (w : Walk) {inner : Walk → Walk}
    (h : ∀ w, w.errors <+: (inner w).errors) : w.errors <+: (w.inScope inner).errors :=
  h { w with scopes := .empty :: w.scopes }

theorem errors_inScopeOf (w : Walk) (name : Keyword) {inner : Walk → Walk}
    (h : ∀ w, w.errors <+: (inner w).errors) : w.errors <+: (w.inScopeOf name inner).errors :=
  w.errors_inScope fun w => by
    have hinner := h (w.mark name.text true)
    rwa [errors_mark] at hinner

theorem errors_inFunction (w : Walk) (context : FunctionContext) {inner : Walk → Walk}
    (h : ∀ w, w.errors <+: (inner w).errors) : w.errors <+: (w.inFunction context inner).errors :=
  h { w with function := context }

theorem errors_inClass (w : Walk) (cls : ClassContext) {inner : Walk → Walk}
    (h : ∀ w, w.errors <+: (inner w).errors) : w.errors <+: (w.inClass cls inner).errors :=
  h { w with cls }

/-- If two stretches of a walk report nothing together, neither does. -/
theorem errors_eq {w w₁ w₂ : Walk} (h₁ : w.errors <+: w₁.errors) (h₂ : w₁.errors <+: w₂.errors)
    (h : w₂.errors = w.errors) : w₁.errors = w.errors ∧ w₂.errors = w₁.errors := by
  have heq : w₁.errors = w.errors := by
    have hlen := h₂.length_le
    rw [h] at hlen
    exact (h₁.eq_of_length_le hlen).symm
  exact ⟨heq, h.trans heq.symm⟩

end Walk

mutual

theorem Expr.errors_walk : ∀ (e : Expr) (w : Walk), w.errors <+: (e.walk w).errors
  | .literal _, _ => List.prefix_refl _
  | .variable _, w => by
      rw [Expr.walk, Walk.errors_lookUp]
      exact w.errors_reportIf _ _ _
  | .receiver _, w => by
      rw [Expr.walk]
      split
      · exact List.prefix_append _ _
      · exact (w.errors_lookUp _).symm ▸ List.prefix_refl _
  | .inherited _ _, w => by
      rw [Expr.walk, Walk.errors_lookUp]
      split
      · exact List.prefix_append _ _
      · exact List.prefix_append _ _
      · exact List.prefix_refl _
  | .grouping e, w => Expr.errors_walk e w
  | .unary _ _ e, w => Expr.errors_walk e w
  | .binary _ _ l r, w => (Expr.errors_walk l w).trans (Expr.errors_walk r _)
  | .logical _ _ l r, w => (Expr.errors_walk l w).trans (Expr.errors_walk r _)
  | .assign _ e, w => by
      rw [Expr.walk, Walk.errors_lookUp]
      exact Expr.errors_walk e w
  | .get e _, w => Expr.errors_walk e w
  | .set o _ v, w => (Expr.errors_walk v w).trans (Expr.errors_walk o _)
  | .call c _ as, w => (Expr.errors_walk c w).trans (Expr.errors_walkAll as _)

theorem Expr.errors_walkAll : ∀ (es : List Expr) (w : Walk),
    w.errors <+: (Expr.walkAll es w).errors
  | [], _ => List.prefix_refl _
  | e :: es, w => (Expr.errors_walk e w).trans (Expr.errors_walkAll es _)

end

theorem Expr.errors_walkOptional (e : Option Expr) (w : Walk) :
    w.errors <+: (Expr.walkOptional e w).errors := by
  cases e with
  | none => exact List.prefix_refl _
  | some e => exact e.errors_walk w

mutual

theorem Stmt.errors_walk : ∀ (s : Stmt) (w : Walk), w.errors <+: (s.walk w).errors
  | .expression e, w => e.errors_walk w
  | .print e, w => e.errors_walk w
  | .varDecl name initializer, w => by
      rw [Stmt.walk, Walk.errors_define]
      exact (w.errors_declare name).trans (Expr.errors_walkOptional initializer _)
  | .funDecl function, w =>
      (w.errors_introduce function.name).trans (FunctionDecl.errors_walk function _ _)
  | .classDecl name none methods, w =>
      w.errors_inClass .base fun w => (w.errors_introduce name).trans
        (Walk.errors_inScopeOf _ .this (FunctionDecl.errors_walkAll methods))
  | .classDecl name (some superclass) methods, w =>
      w.errors_inClass .derived fun w => (w.errors_introduce name).trans <|
        (Walk.errors_reportIf _ _ _ _).trans <| (Expr.errors_walk (.variable superclass) _).trans
          (Walk.errors_inScopeOf _ .super fun w =>
            w.errors_inScopeOf .this (FunctionDecl.errors_walkAll methods))
  | .block body, w => w.errors_inScope (Stmt.errors_walkAll body)
  | .branch c yes no, w =>
      (c.errors_walk w).trans ((Stmt.errors_walk yes _).trans (Stmt.errors_walkOptional no _))
  | .loop c body, w => (c.errors_walk w).trans (Stmt.errors_walk body _)
  | .ret keyword value, w => by
      rw [Stmt.walk]
      exact (w.errors_reportIf _ _ _).trans
        ((Walk.errors_reportIf _ _ _ _).trans (Expr.errors_walkOptional value _))

theorem FunctionDecl.errors_walk : ∀ (d : FunctionDecl) (context : FunctionContext) (w : Walk),
    w.errors <+: (d.walk context w).errors
  | ⟨_, parameters, body⟩, context, w =>
      w.errors_inFunction context fun w => w.errors_inScope fun w =>
        (Walk.errors_foldl_introduce parameters w).trans (Stmt.errors_walkAll body _)

theorem Stmt.errors_walkAll : ∀ (ss : List Stmt) (w : Walk),
    w.errors <+: (Stmt.walkAll ss w).errors
  | [], _ => List.prefix_refl _
  | s :: ss, w => (Stmt.errors_walk s w).trans (Stmt.errors_walkAll ss _)

theorem FunctionDecl.errors_walkAll : ∀ (ds : List FunctionDecl) (w : Walk),
    w.errors <+: (FunctionDecl.walkAll ds w).errors
  | [], _ => List.prefix_refl _
  | d :: ds, w => (FunctionDecl.errors_walk d _ w).trans (FunctionDecl.errors_walkAll ds _)

theorem Stmt.errors_walkOptional : ∀ (s : Option Stmt) (w : Walk),
    w.errors <+: (Stmt.walkOptional s w).errors
  | none, _ => List.prefix_refl _
  | some s, w => Stmt.errors_walk s w

end

/-! ## Classes and their scopes -/

/-- Whether the scopes have the names that the language gives in a class. -/
def ClassContext.Fits (Γ : Scopes) : ClassContext → Prop
  | .none => True
  | .base => ∃ d, Γ.depth? Keyword.this.text = some d
  | .derived =>
      ∃ d, Γ.depth? Keyword.super.text = some (d + 1) ∧ Γ.depth? Keyword.this.text = some d

namespace ClassContext.Fits

variable {cls : ClassContext} {Γ : Scopes}

theorem mark (h : cls.Fits Γ) {name : Token} (hname : name.IsName) (ready : Bool) :
    cls.Fits (Γ.mark name.lexeme ready) := by
  cases cls with
  | none => trivial
  | base => simpa only [Fits, Scopes.depth?_mark (hname .this)] using h
  | derived =>
      simpa only [Fits, Scopes.depth?_mark (hname .this), Scopes.depth?_mark (hname .super)] using h

theorem introduce (h : cls.Fits Γ) {name : Token} (hname : name.IsName) :
    cls.Fits (Γ.introduce name) :=
  (h.mark hname false).mark hname true

theorem foldl_introduce {names : List Token} (h : cls.Fits Γ) (hnames : ∀ n ∈ names, n.IsName) :
    cls.Fits (names.foldl Scopes.introduce Γ) := by
  induction names generalizing Γ with
  | nil => exact h
  | cons name names ih =>
      rw [List.forall_mem_cons] at hnames
      exact ih (h.introduce hnames.1) hnames.2

theorem after (h : cls.Fits Γ) {s : Stmt} (hs : s.unnumbered.IsSpelled) :
    cls.Fits (s.after Γ) := by
  cases s with
  | varDecl => exact h.introduce hs.1
  | funDecl function =>
      obtain ⟨name, parameters, body⟩ := function
      exact h.introduce hs.1
  | classDecl => exact h.introduce hs.1
  | _ => exact h

theorem push (h : cls.Fits Γ) : cls.Fits (.empty :: Γ) := by
  cases cls with
  | none => trivial
  | base =>
      obtain ⟨d, hd⟩ := h
      exact ⟨d + 1, by simp [hd]⟩
  | derived =>
      obtain ⟨d, hsuper, hthis⟩ := h
      exact ⟨d + 1, by simp [hsuper], by simp [hthis]⟩

theorem base (Γ : Scopes) : ClassContext.base.Fits (Γ.given .this) :=
  ⟨0, by simp [Scopes.depth?_given]⟩

theorem derived (Γ : Scopes) : ClassContext.derived.Fits ((Γ.given .super).given .this) := by
  refine ⟨0, ?_, ?_⟩
  · rw [Scopes.depth?_given, Scopes.depth?_given]
    rfl
  · rw [Scopes.depth?_given]
    rfl

end ClassContext.Fits

/-! ## Notes -/

/-- How many scopes out a reference is by some entries. -/
def noted (entries : List (NodeId × Binding)) (id : NodeId) : Option Nat :=
  (entries.lookup id).map Binding.depth

namespace Walk

/-- Between two moments of a walk that has nothing to report, the scopes have
become `Γ`, and entries about some references have been noted that prove a
property to all who know them. -/
structure Notes (w w' : Walk) (Γ : Scopes) (ids : List NodeId) (P : Known → Prop) : Prop where
  scopes : w'.scopes = Γ
  function : w'.function = w.function
  cls : w'.cls = w.cls
  found : ∃ new, w'.found = new ++ w.found ∧ (∀ e ∈ new, e.1 ∈ ids) ∧
    ∀ known : Known, (∀ id ∈ ids, known id = some (noted new id)) → P known

theorem lookup_eq_none {entries : List (NodeId × Binding)} {ids : List NodeId} {id : NodeId}
    (h : ∀ e ∈ entries, e.1 ∈ ids) (hid : id ∉ ids) : entries.lookup id = none := by
  rw [List.lookup_eq_none_iff]
  intro e he
  have hne : id ≠ e.1 := fun heq => hid (heq ▸ h e he)
  simpa using hne

namespace Notes

variable {w w₁ w₂ : Walk} {Γ Γ₁ Γ₂ : Scopes} {ids ids₁ ids₂ : List NodeId} {P P₁ P₂ : Known → Prop}

theorem refl (h : ∀ known, P known) : w.Notes w w.scopes [] P :=
  ⟨rfl, rfl, rfl, [], rfl, by simp, fun known _ => h known⟩

theorem weaken (h : w.Notes w₁ Γ ids P₁) (hP : ∀ known, P₁ known → P known) :
    w.Notes w₁ Γ ids P := by
  obtain ⟨new, hnew, hids, hknown⟩ := h.found
  exact ⟨h.scopes, h.function, h.cls, new, hnew, hids, fun known hk => hP known (hknown known hk)⟩

theorem perm (h : w.Notes w₁ Γ ids P) (hp : ids.Perm ids₁) : w.Notes w₁ Γ ids₁ P := by
  obtain ⟨new, hnew, hids, hknown⟩ := h.found
  exact ⟨h.scopes, h.function, h.cls, new, hnew, fun e he => hp.mem_iff.mp (hids e he),
    fun known hk => hknown known fun id hid => hk id (hp.mem_iff.mp hid)⟩

/-- Two stretches about different references. -/
theorem trans (h₁ : w.Notes w₁ Γ₁ ids₁ P₁) (h₂ : w₁.Notes w₂ Γ₂ ids₂ P₂)
    (hids : (ids₁ ++ ids₂).Nodup) :
    w.Notes w₂ Γ₂ (ids₁ ++ ids₂) fun known => P₁ known ∧ P₂ known := by
  obtain ⟨new₁, hnew₁, hids₁, hknown₁⟩ := h₁.found
  obtain ⟨new₂, hnew₂, hids₂, hknown₂⟩ := h₂.found
  have hdisjoint := (List.nodup_append.mp hids).2.2
  refine ⟨h₂.scopes, h₂.function.trans h₁.function, h₂.cls.trans h₁.cls, new₂ ++ new₁,
    by rw [hnew₂, hnew₁, List.append_assoc], ?_, fun known hk => ⟨hknown₁ known ?_, hknown₂ known ?_⟩⟩
  · intro e he
    rw [List.mem_append] at he ⊢
    exact he.symm.imp (hids₁ e) (hids₂ e)
  · intro id hid
    have hnone : new₂.lookup id = none :=
      lookup_eq_none hids₂ fun hid' => hdisjoint id hid id hid' rfl
    rw [hk id (List.mem_append_left _ hid), noted, noted, List.lookup_append, hnone, Option.none_or]
  · intro id hid
    have hnone : new₁.lookup id = none :=
      lookup_eq_none hids₁ fun hid' => hdisjoint id hid' id hid rfl
    rw [hk id (List.mem_append_right _ hid), noted, noted, List.lookup_append, hnone, Option.or_none]

/-- A stretch inside a scope, which is then closed. -/
theorem inScope (inner : Walk → Walk)
    (h : ({ w with scopes := .empty :: w.scopes } : Walk).Notes
      (inner { w with scopes := .empty :: w.scopes }) Γ ids P) (hΓ : Γ.tail = w.scopes) :
    w.Notes (w.inScope inner) w.scopes ids P :=
  ⟨by rw [← hΓ, ← h.scopes]; rfl, h.function, h.cls, h.found⟩

/-- A stretch inside a scope that holds a name of the language. -/
theorem inScopeOf (inner : Walk → Walk) {name : Keyword}
    (h : ({ w with scopes := Scopes.given w.scopes name } : Walk).Notes
      (inner { w with scopes := Scopes.given w.scopes name }) Γ ids P) (hΓ : Γ.tail = w.scopes) :
    w.Notes (w.inScopeOf name inner) w.scopes ids P :=
  inScope (fun w => inner (w.mark name.text true)) ⟨h.scopes, h.function, h.cls, h.found⟩ hΓ

theorem inFunction (inner : Walk → Walk) {context : FunctionContext}
    (h : ({ w with function := context } : Walk).Notes (inner { w with function := context })
      Γ ids P) : w.Notes (w.inFunction context inner) Γ ids P :=
  ⟨h.scopes, rfl, h.cls, h.found⟩

theorem inClass (inner : Walk → Walk) {cls : ClassContext}
    (h : ({ w with cls } : Walk).Notes (inner { w with cls }) Γ ids P) :
    w.Notes (w.inClass cls inner) Γ ids P :=
  ⟨h.scopes, h.function, rfl, h.found⟩

/-- Two stretches about different references, neither of which has anything to
report. The second is met with the scopes that the first has left. -/
theorem andThen {Q : Known → Prop} (first second : Walk → Walk)
    (hgrow₁ : w.errors <+: (first w).errors)
    (hgrow₂ : (first w).errors <+: (second (first w)).errors)
    (h₁ : ids₁.Nodup → (first w).errors = w.errors → w.Notes (first w) Γ ids₁ P)
    (h₂ : ∀ {w₁ : Walk}, w₁.scopes = Γ → w₁.function = w.function → w₁.cls = w.cls →
      ids₂.Nodup → (second w₁).errors = w₁.errors → w₁.Notes (second w₁) Γ₂ ids₂ Q)
    (hids : (ids₁ ++ ids₂).Nodup) (he : (second (first w)).errors = w.errors) :
    w.Notes (second (first w)) Γ₂ (ids₁ ++ ids₂) fun known => P known ∧ Q known := by
  obtain ⟨he₁, he₂⟩ := errors_eq hgrow₁ hgrow₂ he
  have hnodup := List.nodup_append.mp hids
  have hfirst := h₁ hnodup.1 he₁
  exact hfirst.trans (h₂ hfirst.scopes hfirst.function hfirst.cls hnodup.2.1 he₂) hids

end Notes

/-! ### Steps of a walk -/

theorem lookUp_notes (w : Walk) (target : Reference) :
    w.Notes (w.lookUp target) w.scopes [target.id] fun known => target.Found known w.scopes := by
  unfold lookUp
  split
  next h =>
    refine ⟨rfl, rfl, rfl, [], rfl, by simp, fun known hk => ?_⟩
    rw [Reference.Found, Scopes.depth?, h, hk target.id List.mem_cons_self]
    rfl
  next depth h =>
    refine ⟨rfl, rfl, rfl, [(target.id, ⟨depth, target.name.lexeme, target.name.line⟩)], rfl,
      by simp, fun known hk => ?_⟩
    rw [Reference.Found, Scopes.depth?, h, hk target.id List.mem_cons_self]
    rw [noted, List.lookup_cons_self]
    rfl

theorem mark_notes (w : Walk) (name : String) (ready : Bool) :
    w.Notes (w.mark name ready) (Scopes.mark w.scopes name ready) [] fun _ => True := by
  unfold mark Scopes.mark
  split <;> rename_i h
  · rw [h]
    exact ⟨h, rfl, rfl, [], rfl, by simp, fun _ _ => trivial⟩
  · rw [h]
    exact ⟨rfl, rfl, rfl, [], rfl, by simp, fun _ _ => trivial⟩

theorem scopes_mark (w : Walk) (name : String) (ready : Bool) :
    (w.mark name ready).scopes = Scopes.mark w.scopes name ready :=
  (w.mark_notes name ready).scopes

theorem declare_of_isNew {w : Walk} {name : Token} (h : Scopes.IsNew w.scopes name) :
    w.declare name = w.mark name.lexeme false := by
  unfold declare
  cases hs : w.scopes with
  | nil => simp [mark, hs]
  | cons scope outer =>
    rw [hs] at h
    simp [h scope rfl]

/-- Nothing is reported that does not break the rules. -/
theorem reportIf_eq {w : Walk} {breach : Bool} {cause : ScopingCause} {token : Token}
    (h : (w.reportIf breach cause token).errors = w.errors) :
    breach = false ∧ w.reportIf breach cause token = w := by
  cases breach with
  | false => exact ⟨rfl, rfl⟩
  | true => simp [reportIf, report] at h

/-- A name is declared without a report only for the first time. -/
theorem declare_eq {w : Walk} {name : Token} (h : (w.declare name).errors = w.errors) :
    Scopes.IsNew w.scopes name ∧ w.declare name = w.mark name.lexeme false := by
  unfold declare Scopes.IsNew at *
  cases hs : w.scopes with
  | nil => simp [mark, hs]
  | cons scope outer =>
      rw [hs] at h
      simp only at h ⊢
      cases hc : scope.contains name.lexeme with
      | false => simp [hc]
      | true => simp [hc, report] at h

theorem introduce_notes {w : Walk} {name : Token} (h : (w.introduce name).errors = w.errors) :
    w.Notes (w.introduce name) (Scopes.introduce w.scopes name) [] fun _ => Scopes.IsNew w.scopes name := by
  rw [introduce, errors_define] at h
  obtain ⟨hnew, hdeclare⟩ := declare_eq h
  have h₁ := w.mark_notes name.lexeme false
  have h₂ := (w.mark name.lexeme false).mark_notes name.lexeme true
  rw [h₁.scopes] at h₂
  rw [introduce, hdeclare]
  exact (h₁.trans h₂ List.nodup_nil).weaken fun _ _ => hnew

theorem foldl_introduce_notes {names : List Token} {w : Walk}
    (h : (names.foldl introduce w).errors = w.errors) :
    w.Notes (names.foldl introduce w) (names.foldl Scopes.introduce w.scopes) []
      fun _ => Scopes.AreNew w.scopes names := by
  induction names generalizing w with
  | nil => exact .refl fun _ => trivial
  | cons name names ih =>
      rw [List.foldl_cons] at h
      obtain ⟨he₁, he₂⟩ := errors_eq (errors_introduce w name) (errors_foldl_introduce names _) h
      have h₁ := introduce_notes he₁
      have h₂ := ih he₂
      rw [h₁.scopes] at h₂
      exact (h₁.trans h₂ List.nodup_nil).weaken fun _ hP => hP

end Walk

/-! ## Expressions -/

theorem Expr.variable_notes {target : Reference} {w : Walk} (hs : target.name.IsName)
    (he : ((Expr.variable target).walk w).errors = w.errors) :
    w.Notes ((Expr.variable target).walk w) w.scopes [target.id]
      fun known => (Expr.variable target).Scoped known True w.scopes := by
  rw [Expr.walk, Walk.errors_lookUp] at he
  obtain ⟨hready, heq⟩ := Walk.reportIf_eq he
  rw [Expr.walk, heq]
  refine (w.lookUp_notes target).weaken fun known hfound => ⟨hfound, hs, ?_⟩
  rintro ⟨scope, hscope, hunready⟩
  cases hw : w.scopes with
  | nil => simp [hw] at hscope
  | cons inner outer =>
      obtain rfl : inner = scope := by simpa [hw] using hscope
      simp [Walk.isUnready, hw, hunready] at hready

mutual

theorem Expr.walk_notes : ∀ (e : Expr) {w : Walk}, e.unnumbered.IsSpelled → w.cls.Fits w.scopes →
    e.ids.Nodup → (e.walk w).errors = w.errors →
    w.Notes (e.walk w) w.scopes e.ids fun known => e.Scoped known True w.scopes
  | .literal _, w, _, _, _, _ => .refl fun _ => trivial
  | .variable _, _, hs, _, _, he => Expr.variable_notes hs he
  | .receiver target, w, hs, hw, _, he => by
      rw [Expr.walk] at he ⊢
      cases hcls : w.cls with
      | none => simp [hcls, Walk.report] at he
      | base =>
          rw [hcls] at hw
          exact (w.lookUp_notes target).weaken fun known hfound => ⟨hfound, hs, fun _ => hw⟩
      | derived =>
          rw [hcls] at hw
          obtain ⟨d, -, hthis⟩ := hw
          exact (w.lookUp_notes target).weaken fun known hfound => ⟨hfound, hs, fun _ => ⟨d, hthis⟩⟩
  | .inherited target _, w, hs, hw, _, he => by
      rw [Expr.walk, Walk.errors_lookUp] at he
      rw [Expr.walk]
      cases hcls : w.cls with
      | none => simp [hcls, Walk.report] at he
      | base => simp [hcls, Walk.report] at he
      | derived =>
          rw [hcls] at hw
          exact (w.lookUp_notes target).weaken fun known hfound => ⟨hfound, hs, fun _ => hw⟩
  | .grouping e, _, hs, hw, hids, he => Expr.walk_notes e hs hw hids he
  | .unary _ _ e, _, hs, hw, hids, he =>
      (Expr.walk_notes e hs.2 hw hids he).weaken fun _ h => ⟨hs.1, h⟩
  | .binary _ _ left right, w, hs, hw, hids, he =>
      (Walk.Notes.andThen left.walk right.walk (left.errors_walk w) (right.errors_walk _)
        (Expr.walk_notes left hs.2.1 hw)
        (fun hΓ _ hcls => hΓ ▸ Expr.walk_notes right hs.2.2 (by rwa [hΓ, hcls])) hids he).weaken
          fun _ h => ⟨hs.1, h⟩
  | .logical _ _ left right, w, hs, hw, hids, he =>
      (Walk.Notes.andThen left.walk right.walk (left.errors_walk w) (right.errors_walk _)
        (Expr.walk_notes left hs.2.1 hw)
        (fun hΓ _ hcls => hΓ ▸ Expr.walk_notes right hs.2.2 (by rwa [hΓ, hcls])) hids he).weaken
          fun _ h => ⟨hs.1, h⟩
  | .assign target value, w, hs, hw, hids, he => by
      rw [Expr.walk, Walk.errors_lookUp] at he
      rw [Expr.walk]
      have h₁ := Expr.walk_notes value hs.2 hw (List.nodup_append.mp hids).1 he
      have h₂ := (value.walk w).lookUp_notes target
      rw [h₁.scopes] at h₂
      exact (h₁.trans h₂ hids).weaken fun _ h => ⟨h.2, hs.1, h.1⟩
  | .get e _, _, hs, hw, hids, he => Expr.walk_notes e hs hw hids he
  | .set object _ value, w, hs, hw, hids, he =>
      ((Walk.Notes.andThen value.walk object.walk (value.errors_walk w) (object.errors_walk _)
        (Expr.walk_notes value hs.2 hw)
        (fun hΓ _ hcls => hΓ ▸ Expr.walk_notes object hs.1 (by rwa [hΓ, hcls]))
        (List.perm_append_comm.nodup_iff.mp hids) he).perm List.perm_append_comm).weaken
          fun _ h => ⟨h.2, h.1⟩
  | .call callee _ arguments, w, hs, hw, hids, he =>
      Walk.Notes.andThen callee.walk (Expr.walkAll arguments) (callee.errors_walk w) (Expr.errors_walkAll arguments _)
        (Expr.walk_notes callee hs.1 hw)
        (fun hΓ _ hcls => hΓ ▸ Expr.walkAll_notes arguments hs.2 (by rwa [hΓ, hcls])) hids he

theorem Expr.walkAll_notes : ∀ (es : List Expr) {w : Walk}, Expr.AreSpelled (Expr.unnumberedAll es) →
    w.cls.Fits w.scopes → (Expr.idsAll es).Nodup → (Expr.walkAll es w).errors = w.errors →
    w.Notes (Expr.walkAll es w) w.scopes (Expr.idsAll es)
      fun known => Expr.AreScoped known True w.scopes es
  | [], _, _, _, _, _ => .refl fun _ => trivial
  | e :: es, w, hs, hw, hids, he =>
      Walk.Notes.andThen e.walk (Expr.walkAll es) (e.errors_walk w) (Expr.errors_walkAll es _) (Expr.walk_notes e hs.1 hw)
        (fun hΓ _ hcls => hΓ ▸ Expr.walkAll_notes es hs.2 (by rwa [hΓ, hcls])) hids he

end

theorem Expr.walkOptional_notes (o : Option Expr) {w : Walk}
    (hs : ∀ e ∈ o.map Expr.unnumbered, e.IsSpelled) (hw : w.cls.Fits w.scopes)
    (hids : (Expr.idsOptional o).Nodup) (he : (Expr.walkOptional o w).errors = w.errors) :
    w.Notes (Expr.walkOptional o w) w.scopes (Expr.idsOptional o)
      fun known => ∀ e ∈ o, e.Scoped known True w.scopes := by
  cases o with
  | none => exact .refl fun _ => nofun
  | some e =>
      apply (Expr.walk_notes e (hs _ rfl) hw hids he).weaken
      intro _ h e' he'
      obtain rfl := Option.mem_some.mp he'
      exact h

/-! ## Statements -/

theorem Stmt.isPlain_unnumbered {s : Stmt} : s.unnumbered.IsPlain ↔ s.IsPlain := by
  cases s <;> rfl

/-- A variable is declared around its initializer and defined after it. -/
theorem Stmt.varDecl_notes {name : Token} {o : Option Expr} {w : Walk} (hname : name.IsName)
    (hs : ∀ e ∈ o.map Expr.unnumbered, e.IsSpelled) (hw : w.cls.Fits w.scopes)
    (hids : (Expr.idsOptional o).Nodup)
    (he : (Stmt.walk (.varDecl name o) w).errors = w.errors) :
    w.Notes (Stmt.walk (.varDecl name o) w) (Scopes.introduce w.scopes name)
      (Expr.idsOptional o) fun known => (Stmt.varDecl name o).Scoped known w.scopes w.function := by
  rw [Stmt.walk, Walk.errors_define] at he
  obtain ⟨he₁, he₂⟩ := Walk.errors_eq (w.errors_declare name) (Expr.errors_walkOptional o _) he
  obtain ⟨hnew, hdeclare⟩ := Walk.declare_eq he₁
  rw [hdeclare] at he₂
  rw [Stmt.walk, hdeclare]
  have h₁ := w.mark_notes name.lexeme false
  have h₂ := Expr.walkOptional_notes o hs (by rw [h₁.cls, h₁.scopes]; exact hw.mark hname false)
    hids he₂
  have h₃ := (Expr.walkOptional o (w.mark name.lexeme false)).mark_notes name.lexeme true
  rw [h₁.scopes] at h₂
  rw [h₂.scopes] at h₃
  have h := (h₁.trans h₂ hids).trans h₃ (by simpa using hids)
  exact (h.perm (by simp)).weaken fun _ hP => ⟨hnew, hname, hP.1.2⟩

/-- What follows the introduction of a name. -/
theorem Walk.Notes.afterIntroduce {w : Walk} (name : Token) (second : Walk → Walk) {Γ : Scopes}
    {ids : List NodeId} {P : Known → Prop}
    (hgrow : ∀ w, w.errors <+: (second w).errors)
    (h : ∀ {w₁ : Walk}, w₁.scopes = Scopes.introduce w.scopes name → w₁.function = w.function →
      w₁.cls = w.cls → ids.Nodup → (second w₁).errors = w₁.errors → w₁.Notes (second w₁) Γ ids P)
    (hids : ids.Nodup) (he : (second (w.introduce name)).errors = w.errors) :
    w.Notes (second (w.introduce name)) Γ ids
      fun known => Scopes.IsNew w.scopes name ∧ P known :=
  Walk.Notes.andThen (fun w => w.introduce name) second (w.errors_introduce name) (hgrow _)
    (fun (_ : ([] : List NodeId).Nodup) he => Walk.introduce_notes he) h hids he

mutual

theorem Stmt.walk_notes : ∀ (s : Stmt) {w : Walk}, s.unnumbered.IsSpelled → w.cls.Fits w.scopes →
    s.ids.Nodup → (s.walk w).errors = w.errors →
    w.Notes (s.walk w) (s.after w.scopes) s.ids fun known => s.Scoped known w.scopes w.function
  | .expression e, _, hs, hw, hids, he => e.walk_notes hs hw hids he
  | .print e, _, hs, hw, hids, he => e.walk_notes hs hw hids he
  | .varDecl _ _, _, hs, hw, hids, he => Stmt.varDecl_notes hs.1 hs.2 hw hids he
  | .funDecl ⟨name, parameters, body⟩, w, hs, hw, hids, he => by
      refine (Walk.Notes.afterIntroduce name _
        (FunctionDecl.errors_walk ⟨name, parameters, body⟩ .function) ?_ hids he).weaken
          fun _ h => ⟨h.1, hs.1, h.2⟩
      intro w₁ hΓ _ hcls hids he
      have h := FunctionDecl.walk_notes ⟨name, parameters, body⟩ .function hs
        (by rw [hΓ, hcls]; exact hw.introduce hs.1) hids he
      rwa [hΓ] at h
  | .classDecl name none methods, w, hs, hw, hids, he => by
      refine .inClass _ <| (Walk.Notes.afterIntroduce name _
        (fun w => w.errors_inScopeOf .this (FunctionDecl.errors_walkAll methods)) ?_ hids he).weaken
          fun _ h => ⟨h.1, hs.1, h.2⟩
      intro w₁ hΓ _ hcls hids he
      have h := FunctionDecl.walkAll_notes methods
        (w := { w₁ with scopes := Scopes.given w₁.scopes .this }) hs.2.2
        (by rw [hcls]; exact .base _) hids he
      have h := Walk.Notes.inScopeOf _ h rfl
      rwa [hΓ] at h
  | .classDecl name (some superclass) methods, w, hs, hw, hids, he => by
      have hgrow (w : Walk) : w.errors <+: (w.inScopeOf .super fun w =>
          w.inScopeOf .this (FunctionDecl.walkAll methods)).errors :=
        w.errors_inScopeOf .super fun w =>
          w.errors_inScopeOf .this (FunctionDecl.errors_walkAll methods)
      refine .inClass _ <| (Walk.Notes.afterIntroduce name
        (fun w => ((Expr.variable superclass).walk (w.reportIf
          (superclass.name.lexeme == name.lexeme) .inheritsFromItself superclass.name)).inScopeOf
            .super fun w => w.inScopeOf .this (FunctionDecl.walkAll methods))
        (fun w => (w.errors_reportIf _ _ _).trans ((Expr.errors_walk _ _).trans (hgrow _)))
        ?_ hids he).weaken fun _ h => ⟨h.1, hs.1, h.2⟩
      intro w₁ hΓ _ hcls hids he
      obtain ⟨he₁, he₂⟩ := Walk.errors_eq (w₁.errors_reportIf _ _ _)
        ((Expr.errors_walk (.variable superclass) _).trans (hgrow _)) he
      rw [(Walk.reportIf_eq he₁).2] at he₂ ⊢
      have hsuper (_ : [superclass.id].Nodup)
          (he : ((Expr.variable superclass).walk w₁).errors = w₁.errors) :
          w₁.Notes ((Expr.variable superclass).walk w₁) (Scopes.introduce w.scopes name)
            [superclass.id] fun known =>
              (Expr.variable superclass).Scoped known True (Scopes.introduce w.scopes name) := by
        have hname : superclass.name.IsName := hs.2.1 superclass.unnumbered rfl
        have h := Expr.variable_notes hname he
        rwa [hΓ] at h
      refine Walk.Notes.andThen (Expr.variable superclass).walk
        (fun w => w.inScopeOf .super fun w => w.inScopeOf .this (FunctionDecl.walkAll methods))
        (Expr.errors_walk _ _) (hgrow _) hsuper ?_ hids he₂
      intro w₂ hΓ₂ _ hcls₂ hids he
      have h := FunctionDecl.walkAll_notes methods
        (w := { w₂ with scopes := Scopes.given (Scopes.given w₂.scopes .super) .this }) hs.2.2
        (by rw [hcls₂, hcls]; exact .derived _) hids he
      have h := Walk.Notes.inScopeOf (w := w₂)
        (fun w => w.inScopeOf .this (FunctionDecl.walkAll methods))
        (.inScopeOf (FunctionDecl.walkAll methods) h rfl) rfl
      rwa [hΓ₂] at h
  | .block body, w, hs, hw, hids, he =>
      .inScope _ (Stmt.walkAll_notes body hs hw.push hids he) (Stmt.tail_foldl_after _ body)
  | .branch condition yes no, w, hs, hw, hids, he => by
      have hplain : yes.IsPlain := Stmt.isPlain_unnumbered.mp hs.2.2.1
      refine (Walk.Notes.andThen condition.walk (fun w => Stmt.walkOptional no (yes.walk w))
        (condition.errors_walk w) ((yes.errors_walk _).trans (Stmt.errors_walkOptional no _))
        (Expr.walk_notes condition hs.1 hw) (Q := fun known =>
          yes.Scoped known w.scopes w.function ∧
            Stmt.ScopedOptional known w.scopes w.function no) ?_ hids he).weaken
          fun _ h => ⟨h.1, ⟨h.2.1, hplain⟩, h.2.2⟩
      intro w₁ hΓ hcontext hcls hids he
      have hyes (hids : yes.ids.Nodup) (he : (yes.walk w₁).errors = w₁.errors) :
          w₁.Notes (yes.walk w₁) w.scopes yes.ids
            fun known => yes.Scoped known w.scopes w.function := by
        have h := Stmt.walk_notes yes hs.2.1 (by rwa [hΓ, hcls]) hids he
        rwa [Stmt.after_of_isPlain hplain, hΓ, hcontext] at h
      refine Walk.Notes.andThen yes.walk (Stmt.walkOptional no) (yes.errors_walk _)
        (Stmt.errors_walkOptional no _) hyes ?_ hids he
      intro w₂ hΓ₂ hcontext₂ hcls₂ hids he
      have h := Stmt.walkOptional_notes no hs.2.2.2 (by rwa [hΓ₂, hcls₂, hcls]) hids he
      rwa [hΓ₂, hcontext₂, hcontext] at h
  | .loop condition body, w, hs, hw, hids, he => by
      have hplain : body.IsPlain := Stmt.isPlain_unnumbered.mp hs.2.2
      refine (Walk.Notes.andThen condition.walk body.walk (condition.errors_walk w)
        (body.errors_walk _) (Expr.walk_notes condition hs.1 hw) ?_ hids he).weaken
          fun _ h => ⟨h.1, h.2, hplain⟩
      intro w₁ hΓ hcontext hcls hids he
      have h := Stmt.walk_notes body hs.2.1 (by rwa [hΓ, hcls]) hids he
      rwa [Stmt.after_of_isPlain hplain, hΓ, hcontext] at h
  | .ret keyword value, w, hs, hw, hids, he => by
      rw [Stmt.walk] at he ⊢
      obtain ⟨he₁, he₂⟩ := Walk.errors_eq (w.errors_reportIf _ _ _)
        ((Walk.errors_reportIf _ _ _ _).trans (Expr.errors_walkOptional value _)) he
      obtain ⟨hcontext, heq₁⟩ := Walk.reportIf_eq he₁
      rw [heq₁] at he₂ ⊢
      obtain ⟨he₂, he₃⟩ := Walk.errors_eq (w.errors_reportIf _ _ _)
        (Expr.errors_walkOptional value _) he₂
      obtain ⟨-, heq₂⟩ := Walk.reportIf_eq he₂
      rw [heq₂] at he₃ ⊢
      exact (Expr.walkOptional_notes value hs hw hids he₃).weaken fun _ h =>
        ⟨by simpa using hcontext, h⟩

theorem FunctionDecl.walk_notes : ∀ (d : FunctionDecl) (context : FunctionContext) {w : Walk},
    d.unnumbered.IsSpelled → w.cls.Fits w.scopes → d.ids.Nodup →
    (d.walk context w).errors = w.errors →
    w.Notes (d.walk context w) w.scopes d.ids fun known => d.Scoped known w.scopes context
  | ⟨name, parameters, body⟩, context, w, hs, hw, hids, he => by
      have hbody : ({ w with function := context, scopes := .empty :: w.scopes } : Walk).Notes
          (Stmt.walkAll body (parameters.foldl Walk.introduce
            { w with function := context, scopes := .empty :: w.scopes }))
          (body.foldl Stmt.after (parameters.foldl Scopes.introduce (.empty :: w.scopes)))
          (Stmt.idsAll body) fun known =>
            Scopes.AreNew (.empty :: w.scopes) parameters ∧ Stmt.AreScoped known
              (parameters.foldl Scopes.introduce (.empty :: w.scopes)) context body := by
        refine Walk.Notes.andThen (parameters.foldl Walk.introduce) (Stmt.walkAll body)
          (Walk.errors_foldl_introduce parameters _) (Stmt.errors_walkAll body _)
          (fun (_ : ([] : List NodeId).Nodup) he => Walk.foldl_introduce_notes he) ?_ hids he
        intro w₁ hΓ hcontext hcls hids he
        have h := Stmt.walkAll_notes body hs.2.2
          (by rw [hΓ, hcls]; exact hw.push.foldl_introduce hs.2.1) hids he
        rwa [hΓ, hcontext] at h
      have htail : (body.foldl Stmt.after
          (parameters.foldl Scopes.introduce (.empty :: w.scopes))).tail = w.scopes := by
        rw [Stmt.tail_foldl_after, Scopes.tail_foldl_introduce, List.tail_cons]
      exact .inFunction (fun w => w.inScope fun w =>
        Stmt.walkAll body (parameters.foldl Walk.introduce w))
          (.inScope _ (hbody.weaken fun _ h => ⟨h.1, hs.2.1, h.2⟩) htail)

theorem Stmt.walkAll_notes : ∀ (ss : List Stmt) {w : Walk},
    Stmt.AreSpelled (Stmt.unnumberedAll ss) → w.cls.Fits w.scopes → (Stmt.idsAll ss).Nodup →
    (Stmt.walkAll ss w).errors = w.errors →
    w.Notes (Stmt.walkAll ss w) (ss.foldl Stmt.after w.scopes) (Stmt.idsAll ss)
      fun known => Stmt.AreScoped known w.scopes w.function ss
  | [], _, _, _, _, _ => .refl fun _ => trivial
  | s :: ss, w, hs, hw, hids, he => by
      refine Walk.Notes.andThen s.walk (Stmt.walkAll ss) (s.errors_walk w)
        (Stmt.errors_walkAll ss _) (Stmt.walk_notes s hs.1 hw) ?_ hids he
      intro w₁ hΓ hcontext hcls hids he
      have h := Stmt.walkAll_notes ss hs.2 (by rw [hΓ, hcls]; exact hw.after hs.1) hids he
      rwa [hΓ, hcontext] at h

theorem FunctionDecl.walkAll_notes : ∀ (ds : List FunctionDecl) {w : Walk},
    FunctionDecl.AreSpelled (FunctionDecl.unnumberedAll ds) → w.cls.Fits w.scopes →
    (FunctionDecl.idsAll ds).Nodup → (FunctionDecl.walkAll ds w).errors = w.errors →
    w.Notes (FunctionDecl.walkAll ds w) w.scopes (FunctionDecl.idsAll ds)
      fun known => FunctionDecl.AreScoped known w.scopes ds
  | [], _, _, _, _, _ => .refl fun _ => trivial
  | d :: ds, w, hs, hw, hids, he => by
      refine Walk.Notes.andThen (d.walk (.ofMethod d.name)) (FunctionDecl.walkAll ds)
        (d.errors_walk _ w) (FunctionDecl.errors_walkAll ds _)
        (FunctionDecl.walk_notes d _ hs.1 hw) ?_ hids he
      intro w₁ hΓ _ hcls hids he
      have h := FunctionDecl.walkAll_notes ds hs.2 (by rwa [hΓ, hcls]) hids he
      rwa [hΓ] at h

theorem Stmt.walkOptional_notes : ∀ (s : Option Stmt) {w : Walk},
    Stmt.IsSpelledOptional (Stmt.unnumberedOptional s) → w.cls.Fits w.scopes →
    (Stmt.idsOptional s).Nodup → (Stmt.walkOptional s w).errors = w.errors →
    w.Notes (Stmt.walkOptional s w) w.scopes (Stmt.idsOptional s)
      fun known => Stmt.ScopedOptional known w.scopes w.function s
  | none, _, _, _, _, _ => .refl fun _ => trivial
  | some s, w, hs, hw, hids, he => by
      have hplain : s.IsPlain := Stmt.isPlain_unnumbered.mp hs.2
      have h := Stmt.walk_notes s hs.1 hw hids he
      rw [Stmt.after_of_isPlain hplain] at h
      exact h.weaken fun _ h => ⟨h, hplain⟩

end

end Lox
