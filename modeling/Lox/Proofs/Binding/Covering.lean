import Lox.Proofs.Binding.Walking

/-!
# The walk comes to all sites

A walk over a piece of program comes to all sites in it, in order, and leaves behind it
the scopes that are around the next site.
-/

namespace Lox

/-! ## Expressions -/

section

variable {x : Option Token} {Γ : Frames} {w : Walk}

theorem Expr.variable_covers (target : Reference) (h : w.Sees x Γ) :
    w.Covers ((Expr.variable target).walk w) ((Expr.variable target).sites x Γ) := by
  have hsees : (w.reportIf (w.isUnready target.name) .readInOwnInitializer target.name).Sees x Γ :=
    h.of_scopes_eq (Walk.scopes_reportIf w _ _ _)
  apply Walk.Covers.single
  · rw [Expr.walk, Walk.function_lookUp, Walk.function_reportIf]
  · rw [Expr.walk, Walk.cls_lookUp, Walk.cls_reportIf]
  · rw [Expr.walk, Walk.errors_lookUp, Walk.errors_reportIf_eq, h.unready]
    cases x <;> rfl
  · rw [Expr.walk, hsees.found_lookUp, Walk.found_reportIf]
    rfl

theorem Expr.receiver_covers (target : Reference) (h : w.Sees x Γ)
    (hcls : w.cls = Γ.classContext) :
    w.Covers ((Expr.receiver target).walk w) ((Expr.receiver target).sites x Γ) := by
  unfold Expr.walk
  rw [hcls, Frames.classContext]
  rcases hΓ : Γ.class? with _ | _ | superclass
  · exact .single rfl rfl (by simp [Site.breaches, hΓ, breachIf, Walk.report])
      (by simp [Site.entries, hΓ, Walk.report])
  all_goals
    exact (Walk.Covers.refl w).lookUp h target (by simp [Site.breaches, hΓ, breachIf])
      (by simp [Site.entries, hΓ])

theorem Expr.inherited_covers (target : Reference) (method : Token) (h : w.Sees x Γ)
    (hcls : w.cls = Γ.classContext) :
    w.Covers ((Expr.inherited target method).walk w)
      ((Expr.inherited target method).sites x Γ) := by
  have hreport (cause : ScopingCause) (hbreaches :
      Site.breaches ⟨.expr (.inherited target method), x, Γ⟩ = [⟨cause, target.name⟩]) :
      w.Covers ((w.report cause target.name).lookUp target)
        ((Expr.inherited target method).sites x Γ) := by
    apply Walk.Covers.single
    · rw [Walk.function_lookUp, Walk.report]
    · rw [Walk.cls_lookUp, Walk.report]
    · rw [Walk.errors_lookUp, hbreaches, Walk.report]
    · have hsees : (w.report cause target.name).Sees x Γ := h.of_scopes_eq rfl
      exact hsees.found_lookUp target
  unfold Expr.walk
  rw [hcls, Frames.classContext]
  rcases hΓ : Γ.class? with _ | _ | superclass
  · exact hreport _ (by simp [Site.breaches, hΓ])
  · exact hreport _ (by simp [Site.breaches, hΓ])
  · exact (Walk.Covers.refl w).lookUp h target (by simp [Site.breaches, hΓ]) rfl

mutual

theorem Expr.covers : ∀ (e : Expr) {w : Walk}, w.Sees x Γ → w.cls = Γ.classContext →
    w.Covers (e.walk w) (e.sites x Γ)
  | .literal _, w, _, _ => (Walk.Covers.refl w).root rfl rfl
  | .variable target, _, h, _ => Expr.variable_covers target h
  | .receiver target, _, h, hcls => Expr.receiver_covers target h hcls
  | .inherited target method, _, h, hcls => Expr.inherited_covers target method h hcls
  | .grouping inner, _, h, hcls => (Expr.covers inner h hcls).root rfl rfl
  | .unary _ _ operand, _, h, hcls => (Expr.covers operand h hcls).root rfl rfl
  | .binary _ _ left right, _, h, hcls => by
      have hleft := Expr.covers left h hcls
      have hright := Expr.covers right (h.walked left) (hleft.cls.trans hcls)
      exact (hleft.trans hright).root rfl rfl
  | .logical _ _ left right, _, h, hcls => by
      have hleft := Expr.covers left h hcls
      have hright := Expr.covers right (h.walked left) (hleft.cls.trans hcls)
      exact (hleft.trans hright).root rfl rfl
  | .assign target value, _, h, hcls =>
      (Expr.covers value h hcls).lookUp (h.walked value) target rfl rfl
  | .get object _, _, h, hcls => (Expr.covers object h hcls).root rfl rfl
  | .set object _ value, _, h, hcls => by
      have hvalue := Expr.covers value h hcls
      have hobject := Expr.covers object (h.walked value) (hvalue.cls.trans hcls)
      exact (hvalue.trans hobject).root rfl rfl
  | .call callee _ arguments, _, h, hcls => by
      have hcallee := Expr.covers callee h hcls
      have harguments := Expr.covers_all arguments (h.walked callee) (hcallee.cls.trans hcls)
      exact (hcallee.trans harguments).root rfl rfl

theorem Expr.covers_all : ∀ (es : List Expr) {w : Walk}, w.Sees x Γ → w.cls = Γ.classContext →
    w.Covers (Expr.walkAll es w) (Expr.sitesAll x Γ es)
  | [], w, _, _ => .refl w
  | e :: es, _, h, hcls => by
      have hfirst := Expr.covers e h hcls
      exact hfirst.trans (Expr.covers_all es (h.walked e) (hfirst.cls.trans hcls))

end

theorem Expr.covers_optional (e : Option Expr) (h : w.Sees x Γ) (hcls : w.cls = Γ.classContext) :
    w.Covers (Expr.walkOptional e w) (Expr.sitesOptional x Γ e) := by
  cases e with
  | none => exact .refl w
  | some e => exact e.covers h hcls

end

/-! ## Declarations and scopes -/

namespace Walk

variable {w w' : Walk} {Γ : Frames} {ps : List Site} {name : Token}

theorem IsAt.sees (h : w.IsAt Γ) : w.Sees none Γ :=
  sees_of_scopes h.scopes

/-- What covers sites without touching the scopes stays at its site. -/
theorem IsAt.covered (h : w.IsAt Γ) (hw : w.Covers w' ps) (hscopes : w'.scopes = w.scopes) :
    w'.IsAt (Γ.past []) where
  scopes := by rw [hscopes, h.scopes, Frames.past_nil]
  function := by rw [hw.function, h.function, Frames.past_nil]
  cls := by rw [hw.cls, h.cls, Frames.past_nil]

/-- The walk is at the next site once the declared names are ready. -/
theorem IsAt.past {names : List Token} (h : w.IsAt Γ) (hw : w.Covers w' ps)
    (hscopes : w'.scopes.map NameMap.get? = (Γ.past names).scopes.map allReady) :
    w'.IsAt (Γ.past names) where
  scopes := hscopes
  function := by rw [hw.function, h.function, Frames.functionContext_past]
  cls := by rw [hw.cls, h.cls, Frames.classContext_past]

theorem Covers.define (h : w.Covers w' ps) (name : Token) : w.Covers (w'.define name) ps := by
  have hsame : (w'.define name).function = w'.function ∧ (w'.define name).cls = w'.cls ∧
      (w'.define name).found = w'.found := by
    unfold Walk.define mark
    split <;> exact ⟨rfl, rfl, rfl⟩
  obtain ⟨hfunction, hcls, hfound⟩ := hsame
  exact ⟨hfunction.trans h.function, hcls.trans h.cls, (errors_define w' name).trans h.errors,
    hfound ▸ h.found⟩

theorem introduce_scopes (h : w.scopes.map NameMap.get? = Γ.scopes.map allReady) (name : Token) :
    (w.introduce name).scopes.map NameMap.get? = (Γ.past [name]).scopes.map allReady := by
  rw [introduce, define, scopes_mark]
  exact mark_declare h name

/-- A new scope is empty. -/
theorem IsAt.opened {opening : Opening} (h : w.scopes.map NameMap.get? =
      (opening.given ++ Γ.scopes).map allReady)
    (hfunction : w.function = Frames.functionContext (⟨opening, []⟩ :: Γ))
    (hcls : w.cls = Frames.classContext (⟨opening, []⟩ :: Γ)) :
    w.opened.IsAt (⟨opening, []⟩ :: Γ) where
  scopes := by
    rw [Frames.scopes_cons, List.map_cons, ← h]
    rfl
  function := hfunction
  cls := hcls

/-- What is left when the innermost scope is. -/
theorem IsAt.scopes_tail {f : Frame} (h : w.IsAt (f :: Γ)) :
    w.scopes.tail.map NameMap.get? = (f.opening.given ++ Γ.scopes).map allReady := by
  rw [List.map_tail, h.scopes, Frames.scopes_cons, List.map_cons, List.tail_cons]

/-- A scope of the language holds its one name. -/
theorem openedWith_scopes {given : List (List String)}
    (h : w.scopes.map NameMap.get? = given.map allReady) (k : Keyword) :
    (w.openedWith k).scopes.map NameMap.get? = ([k.text] :: given).map allReady := by
  have hget : (NameMap.empty.insert k.text true).get? = allReady ([] ++ [k.text]) :=
    get?_insert_allReady rfl k.text
  rw [scopes_openedWith, Scopes.given, List.map_cons, List.map_cons, h, hget]
  rfl

theorem Covers.inScopeOf {k : Keyword} (inner : Walk → Walk)
    (h : (w.openedWith k).Covers (inner (w.openedWith k)) ps) :
    w.Covers (w.inScopeOf k inner) ps :=
  ⟨h.function, h.cls, h.errors, h.found⟩

/-- A scope that is left as it was entered uncovers the scopes around it. -/
theorem scopes_inScopeOf {k : Keyword} (inner : Walk → Walk)
    (h : (inner (w.openedWith k)).scopes.map NameMap.get? =
      (w.openedWith k).scopes.map NameMap.get?) :
    (w.inScopeOf k inner).scopes.map NameMap.get? = w.scopes.map NameMap.get? := by
  have htail := congrArg List.tail h
  rw [← List.map_tail, ← List.map_tail] at htail
  exact htail

/-- Parameters are declared one after the other. -/
theorem covers_parameters (names : List Token) (h : w.IsAt Γ) :
    w.Covers (names.foldl introduce w) (parameterSites Γ names) ∧
      (names.foldl introduce w).IsAt (Γ.past names) := by
  induction names generalizing w Γ with
  | nil => exact ⟨.refl w, h.covered (.refl w) rfl⟩
  | cons name names ih =>
    have hname : w.Covers (w.introduce name) [⟨.parameter name, none, Γ⟩] :=
      (declare_covers h.scopes name rfl rfl).define name
    obtain ⟨hnames, hat⟩ := ih (h.past hname (introduce_scopes h.scopes name))
    rw [Frames.past_past] at hat
    exact ⟨hname.trans hnames, hat⟩

/-- The name of a class is declared before its superclass is looked at. -/
theorem inheriting_covers {superclass : Reference} {methods : List FunctionDecl}
    (h : w.scopes.map NameMap.get? = Γ.scopes.map allReady) :
    ({ w with cls := .derived } : Walk).Covers (w.inheriting name superclass)
      [⟨.stmt (.classDecl name (some superclass) methods), none, Γ⟩] := by
  have hscopes : ({ w with cls := .derived } : Walk).scopes.map NameMap.get? =
      Γ.scopes.map allReady := h
  have hname : ({ w with cls := .derived } : Walk).Covers ({ w with cls := .derived }.introduce name)
      [⟨.stmt (.classDecl name none methods), none, Γ⟩] :=
    (declare_covers hscopes name rfl rfl).define name
  constructor
  · exact (function_reportIf _ _ _ _).trans hname.function
  · exact (cls_reportIf _ _ _ _).trans hname.cls
  · rw [inheriting, errors_reportIf_eq, hname.errors, List.flatMap_singleton, List.flatMap_singleton,
      List.append_assoc]
    rfl
  · rw [inheriting, found_reportIf]
    exact hname.found

end Walk

/-! ## Statements -/

/-- A return is judged by the function around it before its value is looked at. -/
theorem Walk.return_covers {w : Walk} {Γ : Frames} (keyword : Token) (value : Option Expr)
    (h : w.IsAt Γ) :
    w.Covers ((w.reportIf (w.function == .none) .returnAtTopLevel keyword).reportIf
        (value.isSome && (w.reportIf (w.function == .none) .returnAtTopLevel keyword).function ==
          .initializer) .returnValueFromInitializer keyword)
      [⟨.stmt (.ret keyword value), none, Γ⟩] := by
  have hnone : (w.function == .none) = Γ.function?.isNone := by
    rw [Bool.eq_iff_iff, beq_iff_eq, h.function, Frames.functionContext_eq_none]
  have hinitializer : (w.function == .initializer) = Γ.isInInitializer := by
    rw [Bool.eq_iff_iff, beq_iff_eq, h.function, Frames.functionContext_eq_initializer]
  apply Walk.Covers.single
  · rw [Walk.function_reportIf, Walk.function_reportIf]
  · rw [Walk.cls_reportIf, Walk.cls_reportIf]
  · rw [Walk.errors_reportIf_eq, Walk.errors_reportIf_eq, Walk.function_reportIf, hnone,
      hinitializer, List.append_assoc]
    rfl
  · rw [Walk.found_reportIf, Walk.found_reportIf]
    rfl

/-- The methods of a class are covered wherever they may stand. -/
def FunctionDecl.AreCovered (methods : List FunctionDecl) : Prop :=
  ∀ {superclass : Option Reference} {w : Walk} {Γ : Frames},
    (∀ d, w.scopes.map NameMap.get? =
      ((Opening.method superclass d).given ++ Γ.scopes).map allReady) →
    (∀ d, w.cls = Frames.classContext (⟨.method superclass d, []⟩ :: Γ)) →
    w.Covers (FunctionDecl.walkAll methods w) (FunctionDecl.sitesAll superclass Γ methods) ∧
      (FunctionDecl.walkAll methods w).scopes.map NameMap.get? = w.scopes.map NameMap.get?

namespace Walk.IsAt

variable {w : Walk} {Γ : Frames} {methods : List FunctionDecl}

/-- A class is covered if its methods are. -/
theorem class_covers (h : w.IsAt Γ) (name : Token) (hall : FunctionDecl.AreCovered methods) :
    w.Covers ((Stmt.classDecl name none methods).walk w)
        ((Stmt.classDecl name none methods).sites Γ) ∧
      ((Stmt.classDecl name none methods).walk w).IsAt (Γ.past [name]) := by
  have hscopes : ({ w with cls := .base } : Walk).scopes.map NameMap.get? =
      Γ.scopes.map allReady := h.scopes
  have hname : ({ w with cls := .base } : Walk).Covers ({ w with cls := .base }.introduce name)
      [⟨.stmt (.classDecl name none methods), none, Γ⟩] :=
    (declare_covers hscopes name rfl rfl).define name
  have hnamed := introduce_scopes hscopes name
  have hcls : ∀ d, (({ w with cls := .base }.introduce name).openedWith .this).cls =
      Frames.classContext (⟨.method none d, []⟩ :: Γ.past [name]) := fun _ => hname.cls
  obtain ⟨hmethods, hleft⟩ := hall (fun _ => openedWith_scopes hnamed .this) hcls
  have hinside := hname.trans (hmethods.inScopeOf _)
  have hcovers : w.Covers ((Stmt.classDecl name none methods).walk w)
      ((Stmt.classDecl name none methods).sites Γ) :=
    ⟨hinside.function, rfl, hinside.errors, hinside.found⟩
  exact ⟨hcovers, h.past hcovers ((scopes_inScopeOf _ hleft).trans hnamed)⟩

/-- A class with a superclass is covered if its methods are, one scope further in. -/
theorem subclass_covers (h : w.IsAt Γ) (name : Token) (superclass : Reference)
    (hall : FunctionDecl.AreCovered methods) :
    w.Covers ((Stmt.classDecl name (some superclass) methods).walk w)
        ((Stmt.classDecl name (some superclass) methods).sites Γ) ∧
      ((Stmt.classDecl name (some superclass) methods).walk w).IsAt (Γ.past [name]) := by
  have hname : ({ w with cls := .derived } : Walk).Covers (w.inheriting name superclass)
      [⟨.stmt (.classDecl name (some superclass) methods), none, Γ⟩] :=
    inheriting_covers h.scopes
  have hnamed : (w.inheriting name superclass).scopes.map NameMap.get? =
      (Γ.past [name]).scopes.map allReady := by
    have hscopes : ({ w with cls := .derived } : Walk).scopes.map NameMap.get? =
        Γ.scopes.map allReady := h.scopes
    rw [inheriting, scopes_reportIf]
    exact introduce_scopes hscopes name
  have hsuper := Expr.variable_covers superclass (sees_of_scopes hnamed)
  have hseen : ((Expr.variable superclass).walk (w.inheriting name superclass)).scopes.map
      NameMap.get? = (Γ.past [name]).scopes.map allReady := by
    rw [Expr.scopes_walk, hnamed]
  have hcls : ∀ d, ((((Expr.variable superclass).walk (w.inheriting name superclass)).openedWith
      .super).openedWith .this).cls =
      Frames.classContext (⟨.method (some superclass) d, []⟩ :: Γ.past [name]) :=
    fun _ => hsuper.cls.trans hname.cls
  obtain ⟨hmethods, hleft⟩ :=
    hall (fun _ => openedWith_scopes (openedWith_scopes hseen .super) .this) hcls
  -- The scope of the receiver lies in that of the superclass.
  have hscoped := hmethods.inScopeOf (FunctionDecl.walkAll methods)
  have hinside := hname.trans (hsuper.trans
    (hscoped.inScopeOf fun w => w.inScopeOf .this (FunctionDecl.walkAll methods)))
  have hcovers : w.Covers ((Stmt.classDecl name (some superclass) methods).walk w)
      ((Stmt.classDecl name (some superclass) methods).sites Γ) :=
    ⟨hinside.function, rfl, hinside.errors, hinside.found⟩
  have hafter := scopes_inScopeOf
    (fun w => w.inScopeOf .this (FunctionDecl.walkAll methods))
    (scopes_inScopeOf (FunctionDecl.walkAll methods) hleft)
  exact ⟨hcovers, h.past hcovers (hafter.trans hseen)⟩

end Walk.IsAt

mutual

theorem Stmt.covers : ∀ (s : Stmt) {w : Walk} {Γ : Frames}, w.IsAt Γ →
    w.Covers (s.walk w) (s.sites Γ) ∧ (s.walk w).IsAt (Γ.past s.names)
  | .expression value, w, _, h => by
      have hvalue := value.covers h.sees h.cls
      exact ⟨hvalue.root rfl rfl, h.covered hvalue (value.scopes_walk w)⟩
  | .print value, w, _, h => by
      have hvalue := value.covers h.sees h.cls
      exact ⟨hvalue.root rfl rfl, h.covered hvalue (value.scopes_walk w)⟩
  | .varDecl name initializer, w, Γ, h => by
      have hname : w.Covers (w.declare name) [⟨.stmt (.varDecl name initializer), none, Γ⟩] :=
        Walk.declare_covers h.scopes name rfl rfl
      have hcls : (w.declare name).cls = (Γ.past [name]).classContext := by
        rw [hname.cls, h.cls, Frames.classContext_past]
      have hinitializer :=
        Expr.covers_optional initializer (Walk.declare_sees h.scopes name) hcls
      have hall := (hname.trans hinitializer).define name
      refine ⟨hall, h.past hall ?_⟩
      rw [Stmt.walk, Walk.define, Walk.scopes_mark, Expr.scopes_walkOptional]
      exact Walk.mark_declare h.scopes name
  | .funDecl function, w, Γ, h => by
      have hname : w.Covers (w.introduce function.name)
          [⟨.stmt (.funDecl function), none, Γ⟩] :=
        (Walk.declare_covers h.scopes function.name rfl rfl).define function.name
      have hat := h.past hname (Walk.introduce_scopes h.scopes function.name)
      obtain ⟨hfunction, hscopes⟩ := FunctionDecl.covers function (.function function) hat.scopes hat.cls rfl
      have hall := hname.trans hfunction
      exact ⟨hall, h.past hall (hscopes.trans hat.scopes)⟩
  | .classDecl name none methods, _, _, h => h.class_covers name (FunctionDecl.covers_all methods)
  | .classDecl name (some superclass) methods, _, _, h =>
      h.subclass_covers name superclass (FunctionDecl.covers_all methods)
  | .block body, w, Γ, h => by
      have hopened : w.opened.IsAt (⟨.block, []⟩ :: Γ) := .opened h.scopes h.function h.cls
      obtain ⟨hbody, hat⟩ := Stmt.covers_all body hopened
      have hall : w.Covers (w.inScope (Stmt.walkAll body)) (Stmt.sitesAll (⟨.block, []⟩ :: Γ) body) :=
        ⟨hbody.function, hbody.cls, hbody.errors, hbody.found⟩
      refine ⟨hall.root rfl rfl, h.past hall ?_⟩
      rw [show (Stmt.block body).names = [] from rfl, Frames.past_nil]
      exact hat.scopes_tail
  | .branch condition yes no, w, Γ, h => by
      have hcondition := condition.covers h.sees h.cls
      have hat := h.covered hcondition (condition.scopes_walk w)
      rw [Frames.past_nil] at hat
      obtain ⟨hyes, hat⟩ := Stmt.covers yes hat
      obtain ⟨hno, hat⟩ := Stmt.covers_optional no hat
      rw [Frames.past_past] at hat
      exact ⟨(hcondition.trans (hyes.trans hno)).root rfl rfl, hat⟩
  | .loop condition body, w, Γ, h => by
      have hcondition := condition.covers h.sees h.cls
      have hat := h.covered hcondition (condition.scopes_walk w)
      rw [Frames.past_nil] at hat
      obtain ⟨hbody, hat⟩ := Stmt.covers body hat
      exact ⟨(hcondition.trans hbody).root rfl rfl, hat⟩
  | .ret keyword value, w, Γ, h => by
      have hreports := Walk.return_covers keyword value h
      have hat := h.covered hreports (by rw [Walk.scopes_reportIf, Walk.scopes_reportIf])
      rw [Frames.past_nil] at hat
      have hall := hreports.trans (Expr.covers_optional value hat.sees hat.cls)
      refine ⟨hall, h.covered hall ?_⟩
      rw [Stmt.walk, Expr.scopes_walkOptional, Walk.scopes_reportIf, Walk.scopes_reportIf]

theorem FunctionDecl.covers : ∀ (d : FunctionDecl) (opening : Opening) {context : FunctionContext}
    {w : Walk} {Γ : Frames},
    w.scopes.map NameMap.get? = (opening.given ++ Γ.scopes).map allReady →
    w.cls = Frames.classContext (⟨opening, []⟩ :: Γ) →
    context = Frames.functionContext (⟨opening, []⟩ :: Γ) →
    w.Covers (d.walk context w) (d.sites opening Γ) ∧
      (d.walk context w).scopes.map NameMap.get? = w.scopes.map NameMap.get?
  | ⟨name, parameters, body⟩, opening, context, w, Γ, hscopes, hcls, hcontext => by
      have hopened : ({ w with function := context } : Walk).opened.IsAt (⟨opening, []⟩ :: Γ) :=
        .opened hscopes hcontext hcls
      obtain ⟨hparameters, hat⟩ := Walk.covers_parameters parameters hopened
      obtain ⟨hbody, hat⟩ := Stmt.covers_all body hat
      have hall := hparameters.trans hbody
      exact ⟨⟨rfl, hall.cls, hall.errors, hall.found⟩, hat.scopes_tail.trans hscopes.symm⟩

theorem Stmt.covers_all : ∀ (ss : List Stmt) {w : Walk} {Γ : Frames}, w.IsAt Γ →
    w.Covers (Stmt.walkAll ss w) (Stmt.sitesAll Γ ss) ∧
      (Stmt.walkAll ss w).IsAt (Γ.past (ss.flatMap Stmt.names))
  | [], w, _, h => ⟨.refl w, h.covered (.refl w) rfl⟩
  | s :: ss, w, _, h => by
      obtain ⟨hfirst, hat⟩ := Stmt.covers s h
      obtain ⟨hrest, hat⟩ := Stmt.covers_all ss hat
      rw [Frames.past_past] at hat
      exact ⟨hfirst.trans hrest, hat⟩

theorem FunctionDecl.covers_all : ∀ (ds : List FunctionDecl) {superclass : Option Reference}
    {w : Walk} {Γ : Frames},
    (∀ d, w.scopes.map NameMap.get? =
      ((Opening.method superclass d).given ++ Γ.scopes).map allReady) →
    (∀ d, w.cls = Frames.classContext (⟨.method superclass d, []⟩ :: Γ)) →
    w.Covers (FunctionDecl.walkAll ds w) (FunctionDecl.sitesAll superclass Γ ds) ∧
      (FunctionDecl.walkAll ds w).scopes.map NameMap.get? = w.scopes.map NameMap.get?
  | [], _, w, _, _, _ => ⟨.refl w, rfl⟩
  | d :: ds, superclass, w, Γ, hscopes, hcls => by
      obtain ⟨hfirst, hscopes₁⟩ :=
        FunctionDecl.covers d (.method superclass d) (hscopes d) (hcls d) rfl
      obtain ⟨hrest, hscopes₂⟩ := FunctionDecl.covers_all ds
        (fun d => hscopes₁.trans (hscopes d)) fun d => hfirst.cls.trans (hcls d)
      exact ⟨hfirst.trans hrest, hscopes₂.trans hscopes₁⟩

theorem Stmt.covers_optional : ∀ (s : Option Stmt) {w : Walk} {Γ : Frames}, w.IsAt Γ →
    w.Covers (Stmt.walkOptional s w) (Stmt.sitesOptional Γ s) ∧
      (Stmt.walkOptional s w).IsAt (Γ.past (Stmt.namesOptional s))
  | none, w, _, h => ⟨.refl w, h.covered (.refl w) rfl⟩
  | some s, _, _, h => Stmt.covers s h

end

end Lox
