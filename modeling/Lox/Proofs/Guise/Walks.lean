import Lox.Proofs.Guise.Plain
import Lox.Proofs.Guise.Variables

/-!
# Binding programs in another guise

If the names of a program are bound without a complaint, so are those of a program that
is alike, as long as the new name is nowhere in the first. The walks over both have the
same scopes, each with the names as it tells them, and what the second one finds is what
the guise has of the references of the second program.

## Implementation notes

Both walks are followed at once, from a moment at which they correspond to the next. The
numbers of the references that have been visited are kept, since a table that is made at
the end has to have them all.
-/

namespace Lox

namespace Guise

variable {G : Guise} {b c : Bool} {n : String}

theorem name_name : G.name b (G.name c n) = G.name (Bool.xor b c) n := by
  cases b <;> cases c <;> simp [name]

end Guise

/-! ## Scopes -/

variable (G : Guise)

/-- Scopes with the same names as they are told by each. None of the first has the new
name. -/
inductive Scopes.Alike : List Bool → Scopes → Scopes → Prop
  | nil : Scopes.Alike [] [] []
  | cons {b : Bool} {K : List Bool} {names names' : NameMap Bool} {Γ Γ' : Scopes}
      (hnames : ∀ n, names'.get? (G.name b n) = names.get? n)
      (hnew : names.get? G.new = none) (h : Scopes.Alike K Γ Γ') :
      Scopes.Alike (b :: K) (names :: Γ) (names' :: Γ')

variable {G}

namespace Scopes.Alike

variable {b c : Bool} {K : List Bool} {names names' : NameMap Bool} {Γ Γ' : Scopes} {n : String}

theorem contains (hnames : ∀ n, names'.get? (G.name b n) = names.get? n) (n : String) :
    names'.contains (G.name b n) = names.contains n := by
  rw [NameMap.contains, hnames, NameMap.contains]

/-- A name that a scope does not have is not there under another name either. -/
theorem contains_eq_false (hnames : ∀ n, names'.get? (G.name b n) = names.get? n)
    (hnew : names.get? G.new = none) (h : names.contains n = false) (hn : n ≠ G.new) :
    names'.contains (G.name c n) = false := by
  have hget : names'.get? (G.name c n) = names.get? (G.name (Bool.xor b c) n) := by
    rw [← hnames, Guise.name_name, ← Bool.xor_assoc, Bool.xor_self, Bool.false_xor]
  rw [NameMap.contains, hget]
  cases Bool.xor b c with
  | false => exact h
  | true =>
    by_cases hold : n = G.old
    · rw [hold, Guise.name_old, hnew]
      rfl
    · rw [Guise.name_of_ne hold hn]
      exact h

theorem depth?_of_some (h : Scopes.Alike G K Γ Γ') (hn : n ≠ G.new) {d : Nat}
    (hd : Γ.depth? n = some d) (hb : K[d]? = some b) : Γ'.depth? (G.name b n) = some d := by
  induction h generalizing d with
  | nil => cases hd
  | @cons b' K names names' Γ Γ' hnames hnew _ ih =>
    rw [depth?_cons] at hd ⊢
    cases hcontains : names.contains n with
    | true =>
      rw [hcontains, if_pos rfl] at hd
      cases hd
      cases hb
      rw [contains hnames, hcontains, if_pos rfl]
    | false =>
      rw [hcontains, if_neg Bool.false_ne_true, Option.map_eq_some_iff] at hd
      obtain ⟨d, hd, rfl⟩ := hd
      rw [contains_eq_false hnames hnew hcontains hn, if_neg Bool.false_ne_true, ih hd hb]
      rfl

theorem depth?_of_none (h : Scopes.Alike G K Γ Γ') (hn : n ≠ G.new) (hd : Γ.depth? n = none) :
    Γ'.depth? n = none := by
  induction h with
  | nil => rfl
  | @cons b' K names names' Γ Γ' hnames hnew _ ih =>
    rw [depth?_cons] at hd ⊢
    cases hcontains : names.contains n with
    | true =>
      rw [hcontains, if_pos rfl] at hd
      cases hd
    | false =>
      rw [hcontains, if_neg Bool.false_ne_true, Option.map_eq_none_iff] at hd
      have hout : names'.contains (G.name false n) = false :=
        contains_eq_false hnames hnew hcontains hn
      rw [Guise.name_false] at hout
      rw [hout, if_neg Bool.false_ne_true, ih hd]
      rfl

theorem tail (h : Scopes.Alike G (b :: K) Γ Γ') : Scopes.Alike G K Γ.tail Γ'.tail := by
  cases h with
  | cons _ _ h => exact h

theorem mark (h : Scopes.Alike G K Γ Γ') (hn : n ≠ G.new) (ready : Bool) :
    Scopes.Alike G K (Γ.mark n ready) (Γ'.mark (G.name (K.headD false) n) ready) := by
  cases h with
  | nil => exact .nil
  | @cons b K names names' Γ Γ' hnames hnew h =>
    refine .cons (fun m => ?_) ?_ h
    · rw [List.headD_cons, NameMap.get?_insert, NameMap.get?_insert, hnames]
      simp only [(Guise.name_injective b).eq_iff]
    · rw [NameMap.get?_insert, if_neg hn]
      exact hnew

theorem introduce (h : Scopes.Alike G K Γ Γ') {name : Token} (hn : name.lexeme ≠ G.new) :
    Scopes.Alike G K (Γ.introduce name) (Γ'.introduce (G.declared K name)) :=
  (h.mark hn false).mark hn true

theorem push (h : Scopes.Alike G K Γ Γ') (b : Bool) :
    Scopes.Alike G (b :: K) (.empty :: Γ) (.empty :: Γ') :=
  .cons (fun _ => rfl) rfl h

theorem given (h : Scopes.Alike G K Γ Γ') (k : Keyword) :
    Scopes.Alike G (false :: K) (Γ.given k) (Γ'.given k) :=
  (h.push false).mark (G.new_ne k) true

/-- A name is new to one scope if it is new to the other. -/
theorem isNew (h : Scopes.Alike G K Γ Γ') {name : Token} (hnew : Γ.IsNew name) :
    Γ'.IsNew (G.declared K name) := by
  cases h with
  | nil => exact nofun
  | @cons b K names names' Γ Γ' hnames _ _ =>
    intro scope hscope
    cases hscope
    exact (contains hnames name.lexeme).trans (hnew names rfl)

/-- A reference that is alike is found as far out as the guise has it. -/
theorem depth?_of_refers (h : Scopes.Alike G K Γ Γ') (hwrapped : G.wrapped = false)
    {r r' : Reference} (hr : G.Refers K r r') (hd : G.distance r.id = Γ.depth? r.name.lexeme)
    (hn : r.name.lexeme ≠ G.new) : Γ'.depth? r'.name.lexeme = G.distance' r'.id := by
  cases hr with
  | bound hdistance hdistance' hK _ =>
    exact (h.depth?_of_some hn (hd.symm.trans hdistance) hK).trans hdistance'.symm
  | free hdistance hdistance' =>
    have htop : G.top K.length = none := by
      rw [Guise.top, if_neg (by rw [hwrapped]; exact Bool.false_ne_true)]
    exact (h.depth?_of_none hn (hd.symm.trans hdistance)).trans (hdistance'.trans htop).symm

/-- What is not to be read before it is defined is so under another name. -/
theorem isUnready (h : Scopes.Alike G K Γ Γ') {r r' : Reference} (hr : G.Refers K r r')
    (hd : G.distance r.id = Γ.depth? r.name.lexeme) (hn : r.name.lexeme ≠ G.new)
    (hready : ¬Γ.IsUnready r.name.lexeme) : ¬Γ'.IsUnready r'.name.lexeme := by
  rintro ⟨scope', hscope', hunready⟩
  cases h with
  | nil => cases hscope'
  | @cons b K names names' Γ Γ' hnames hnew h =>
    obtain rfl : names' = scope' := Option.some.inj hscope'
    have hin : names'.contains r'.name.lexeme = true := by
      rw [NameMap.contains, hunready]
      rfl
    -- The reference has the name that the innermost scope tells, or one that it has not.
    have hlexeme : r'.name.lexeme = G.name b r.name.lexeme := by
      have hout (c : Bool) (hdepth : Scopes.depth? (names :: Γ) r.name.lexeme ≠ some 0) :
          names'.contains (G.name c r.name.lexeme) = false := by
        refine contains_eq_false hnames hnew ?_ hn
        cases hcontains : names.contains r.name.lexeme with
        | false => rfl
        | true => exact absurd (by rw [depth?_cons, hcontains, if_pos rfl]) hdepth
      cases hr with
      | @bound id' d c hdistance _ hK _ =>
        cases d with
        | zero =>
          cases hK
          rfl
        | succ d =>
          have hfalse := hout c (by rw [← hd, hdistance]; simp)
          cases hin.symm.trans hfalse
      | free hdistance _ =>
        have hfalse := hout false (by rw [← hd, hdistance]; simp)
        cases hin.symm.trans hfalse
    rw [hlexeme, hnames] at hunready
    exact hready ⟨names, rfl, hunready⟩

end Scopes.Alike

/-! ## Walks -/

/-- What is known of the references of a program is what the guise has, and there are as
many scopes around the other one. -/
structure Guise.Reads (G : Guise) (known : Known) : Prop where
  distance : ∀ id d, known id = some d → G.distance id = d
  wrapped : G.wrapped = false

/-- Two walks at corresponding moments, in scopes `Γ`, the second of them behind the
references with the numbers `ids`. -/
structure Walk.Alike (G : Guise) (K : List Bool) (Γ : Scopes) (ids : List NodeId)
    (w w' : Walk) : Prop where
  scopes : w.scopes = Γ
  alike : Scopes.Alike G K Γ w'.scopes
  function : w'.function = w.function
  cls : w'.cls = w.cls
  errors : w'.errors = []
  found : ∀ p ∈ w'.found, G.distance' p.1 = some p.2.depth
  visited : ∀ id ∈ ids, ∀ d, G.distance' id = some d → ∃ p ∈ w'.found, p.1 = id

namespace Walk

variable {K : List Bool} {Γ : Scopes} {ids : List NodeId} {known : Known} {w w' : Walk}

namespace Alike

/-- Which of the references visited are kept does not matter. -/
theorem mono {ids' : List NodeId} (h : Walk.Alike G K Γ ids w w') (hids : ids' ⊆ ids) :
    Walk.Alike G K Γ ids' w w' :=
  { h with visited := fun id hid => h.visited id (hids hid) }

theorem mark (h : Walk.Alike G K Γ ids w w') {n : String} (hn : n ≠ G.new) (ready : Bool) :
    Walk.Alike G K (Γ.mark n ready) ids (w.mark n ready)
      (w'.mark (G.name (K.headD false) n) ready) := by
  have hsame (v : Walk) (m : String) : (v.mark m ready).function = v.function ∧
      (v.mark m ready).cls = v.cls ∧ (v.mark m ready).found = v.found := by
    unfold Walk.mark
    split <;> exact ⟨rfl, rfl, rfl⟩
  obtain ⟨hfunction, hcls, -⟩ := hsame w n
  obtain ⟨hfunction', hcls', hfound'⟩ := hsame w' (G.name (K.headD false) n)
  refine ⟨?_, ?_, ?_, ?_, ?_, ?_, ?_⟩
  · rw [scopes_mark, h.scopes]
  · rw [scopes_mark]
    exact h.alike.mark hn ready
  · rw [hfunction, hfunction', h.function]
  · rw [hcls, hcls', h.cls]
  · rw [errors_mark, h.errors]
  · rw [hfound']
    exact h.found
  · rw [hfound']
    exact h.visited

theorem declare (h : Walk.Alike G K Γ ids w w') {name : Token} (hnew : Γ.IsNew name)
    (hn : name.lexeme ≠ G.new) :
    Walk.Alike G K (Γ.mark name.lexeme false) ids (w.declare name)
      (w'.declare (G.declared K name)) := by
  rw [declare_of_isNew (h.scopes ▸ hnew), declare_of_isNew (h.alike.isNew hnew)]
  exact h.mark hn false

theorem define (h : Walk.Alike G K Γ ids w w') {name : Token} (hn : name.lexeme ≠ G.new) :
    Walk.Alike G K (Γ.mark name.lexeme true) ids (w.define name)
      (w'.define (G.declared K name)) :=
  h.mark hn true

theorem introduce (h : Walk.Alike G K Γ ids w w') {name : Token} (hnew : Γ.IsNew name)
    (hn : name.lexeme ≠ G.new) :
    Walk.Alike G K (Γ.introduce name) ids (w.introduce name)
      (w'.introduce (G.declared K name)) :=
  (h.declare hnew hn).define hn

theorem foldl_introduce {names : List Token} (h : Walk.Alike G K Γ ids w w')
    (hnew : Γ.AreNew names) (hn : ∀ name ∈ names, name.lexeme ≠ G.new) :
    Walk.Alike G K (names.foldl Scopes.introduce Γ) ids (names.foldl Walk.introduce w)
      ((names.map (G.declared K)).foldl Walk.introduce w') := by
  induction names generalizing Γ w w' with
  | nil => exact h
  | cons name names ih =>
    rw [List.forall_mem_cons] at hn
    exact ih (h.introduce hnew.1 hn.1) hnew.2 hn.2

/-- References that are alike are looked up. -/
theorem lookUp (h : Walk.Alike G K Γ ids w w') (hreads : G.Reads known) {r r' : Reference}
    (hr : G.Refers K r r') (hfound : r.Found known Γ) (hn : r.name.lexeme ≠ G.new) :
    Walk.Alike G K Γ (r'.id :: ids) (w.lookUp r) (w'.lookUp r') := by
  have hdepth := h.alike.depth?_of_refers hreads.wrapped hr (hreads.distance _ _ hfound) hn
  have hleft : Walk.Alike G K Γ ids (w.lookUp r) w' := by
    unfold Walk.lookUp
    split
    · exact h
    · exact { h with }
  cases hd : G.distance' r'.id with
  | none =>
    have hnone : w'.scopes.findIdx? (·.contains r'.name.lexeme) = none := hdepth.trans hd
    rw [show w'.lookUp r' = w' by simp only [Walk.lookUp, hnone]]
    refine { hleft with visited := List.forall_mem_cons.mpr ⟨fun d hsome => ?_, hleft.visited⟩ }
    rw [hd] at hsome
    cases hsome
  | some d =>
    have hsome : w'.scopes.findIdx? (·.contains r'.name.lexeme) = some d := hdepth.trans hd
    have hlookUp : w'.lookUp r' =
        { w' with found := (r'.id, ⟨d, r'.name.lexeme, r'.name.line⟩) :: w'.found } := by
      simp only [Walk.lookUp, hsome]
    rw [hlookUp]
    refine { hleft with
      found := List.forall_mem_cons.mpr ⟨hd, hleft.found⟩
      visited := List.forall_mem_cons.mpr
        ⟨fun _ _ => ⟨_, List.mem_cons_self, rfl⟩, fun id hid d hsome => ?_⟩ }
    obtain ⟨p, hp, hid⟩ := hleft.visited id hid d hsome
    exact ⟨p, List.mem_cons_of_mem _ hp, hid⟩

/-- A scope is opened by both and left again. -/
theorem inScope (h : Walk.Alike G K Γ ids w w') (b : Bool) {inner inner' : Walk → Walk}
    {Γ' : Scopes} {ids' : List NodeId} (hΓ : Γ'.tail = Γ)
    (hinner : ∀ {v v' : Walk}, Walk.Alike G (b :: K) (.empty :: Γ) ids v v' →
      (inner v).errors = [] → Walk.Alike G (b :: K) Γ' ids' (inner v) (inner' v'))
    (herrors : (w.inScope inner).errors = []) :
    Walk.Alike G K Γ ids' (w.inScope inner) (w'.inScope inner') := by
  have hopened : Walk.Alike G (b :: K) (.empty :: Γ) ids { w with scopes := .empty :: w.scopes }
      { w' with scopes := .empty :: w'.scopes } :=
    { h with
      scopes := congrArg (NameMap.empty :: ·) h.scopes
      alike := h.alike.push b }
  have hleft := hinner hopened herrors
  exact { hleft with
    scopes := hΓ ▸ congrArg List.tail hleft.scopes
    alike := hΓ ▸ hleft.alike.tail }

/-- A scope of the language holds its one name in both. -/
theorem inScopeOf (h : Walk.Alike G K Γ ids w w') (k : Keyword) {inner inner' : Walk → Walk}
    {Γ' : Scopes} {ids' : List NodeId} (hΓ : Γ'.tail = Γ)
    (hinner : ∀ {v v' : Walk}, Walk.Alike G (false :: K) (Γ.given k) ids v v' →
      (inner v).errors = [] → Walk.Alike G (false :: K) Γ' ids' (inner v) (inner' v'))
    (herrors : (w.inScopeOf k inner).errors = []) :
    Walk.Alike G K Γ ids' (w.inScopeOf k inner) (w'.inScopeOf k inner') :=
  h.inScope false hΓ (fun hv => hinner (hv.mark (G.new_ne k) true)) herrors

/-- A class is entered by both and left again. -/
theorem inClass (h : Walk.Alike G K Γ ids w w') (cls : ClassContext) {inner inner' : Walk → Walk}
    {Γ' : Scopes} {ids' : List NodeId}
    (hinner : ∀ {v v' : Walk}, Walk.Alike G K Γ ids v v' → (inner v).errors = [] →
      Walk.Alike G K Γ' ids' (inner v) (inner' v'))
    (herrors : (w.inClass cls inner).errors = []) :
    Walk.Alike G K Γ' ids' (w.inClass cls inner) (w'.inClass cls inner') := by
  have hopened : Walk.Alike G K Γ ids { w with cls } { w' with cls } := { h with cls := rfl }
  exact { hinner hopened herrors with cls := h.cls }

/-- A function is entered by both and left again. -/
theorem inFunction (h : Walk.Alike G K Γ ids w w') (context : FunctionContext)
    {inner inner' : Walk → Walk} {Γ' : Scopes} {ids' : List NodeId}
    (hinner : ∀ {v v' : Walk}, Walk.Alike G K Γ ids v v' → (inner v).errors = [] →
      Walk.Alike G K Γ' ids' (inner v) (inner' v'))
    (herrors : (w.inFunction context inner).errors = []) :
    Walk.Alike G K Γ' ids' (w.inFunction context inner) (w'.inFunction context inner') := by
  have hopened : Walk.Alike G K Γ ids { w with function := context }
      { w' with function := context } := { h with function := rfl }
  exact { hinner hopened herrors with function := h.function }

end Alike

end Walk

/-! ## Expressions -/

section

variable {K : List Bool} {Γ : Scopes} {ids : List NodeId} {known : Known}

/-- What has complained about nothing in the end has not done so before. -/
theorem Walk.errors_eq_nil {w w₁ : Walk} (h : w.errors <+: w₁.errors) (h₁ : w₁.errors = []) :
    w.errors = [] := by
  rw [h₁] at h
  exact List.prefix_nil.mp h

theorem Walk.reportIf_eq_nil {w : Walk} {breach : Bool} {cause : ScopingCause} {token : Token}
    (h : (w.reportIf breach cause token).errors = []) :
    breach = false ∧ w.reportIf breach cause token = w :=
  Walk.reportIf_eq (h.trans (Walk.errors_eq_nil (Walk.errors_reportIf w _ _ _) h).symm)

theorem Walk.isUnready_eq_false {w : Walk} {name : Token}
    (h : ¬Scopes.IsUnready w.scopes name.lexeme) : w.isUnready name = false := by
  unfold Walk.isUnready
  split
  · rfl
  next scope outer hscopes =>
    cases hget : scope.get? name.lexeme == some false with
    | false => rfl
    | true => exact absurd ⟨scope, by rw [hscopes]; rfl, beq_iff_eq.mp hget⟩ h

/-- A variable is looked up by both. -/
theorem Expr.walk_alike_variable (hreads : G.Reads known) {r r' : Reference} {w w' : Walk}
    (hr : G.Refers K r r') (hscoped : (Expr.variable r).Scoped known True Γ)
    (hn : r.name.lexeme ≠ G.new) (hw : Walk.Alike G K Γ ids w w') :
    Walk.Alike G K Γ (r'.id :: ids) ((Expr.variable r).walk w) ((Expr.variable r').walk w') := by
  obtain ⟨hfound, -, hready⟩ := hscoped
  have hready' := hw.alike.isUnready hr (hreads.distance _ _ hfound) hn hready
  rw [Expr.walk, Expr.walk, Walk.isUnready_eq_false (hw.scopes ▸ hready),
    Walk.isUnready_eq_false hready']
  exact hw.lookUp hreads hr hfound hn

mutual

theorem Expr.walk_alike (hreads : G.Reads known) {e e' : Expr} {ids : List NodeId} {w w' : Walk}
    (he : e.Alike G K e') (hscoped : e.Scoped known True Γ)
    (hn : ∀ r ∈ e.variables, r.name.lexeme ≠ G.new) (hw : Walk.Alike G K Γ ids w w')
    (herrors : (e.walk w).errors = []) :
    Walk.Alike G K Γ (e'.ids ++ ids) (e.walk w) (e'.walk w') := by
  cases e with
  | literal value =>
    cases he
    exact hw
  | «variable» r =>
    cases he with
    | «variable» hr => exact Expr.walk_alike_variable hreads hr hscoped (hn r List.mem_cons_self) hw
  | receiver r =>
    cases he with
    | receiver hr =>
      obtain ⟨hfound, hthis, -⟩ := hscoped
      rw [Expr.walk] at herrors ⊢
      rw [Expr.walk, hw.cls]
      cases hcls : w.cls with
      | none => simp [hcls, Walk.report] at herrors
      | base | derived => exact hw.lookUp hreads hr hfound (hthis ▸ G.new_ne .this)
  | inherited r method =>
    cases he with
    | @inherited id id' d name method hd hd' hlt =>
      obtain ⟨hfound, hsuper, -⟩ := hscoped
      have hname : G.token K[d] name = name := by
        refine Guise.token_of_name_eq ?_
        rw [hsuper, Guise.name_keyword]
      have hr : G.Refers K ⟨id, name⟩ ⟨id', name⟩ := by
        have hbound := Guise.Refers.bound (r := ⟨id, name⟩) hd hd' (List.getElem?_eq_getElem hlt)
          fun _ => hsuper ▸ G.new_ne .super
        rwa [hname] at hbound
      rw [Expr.walk] at herrors ⊢
      rw [Expr.walk, hw.cls]
      cases hcls : w.cls with
      | none | base => simp [hcls, Walk.report] at herrors
      | derived => exact hw.lookUp hreads hr hfound (hsuper ▸ G.new_ne .super)
  | grouping e =>
    cases he with
    | grouping he =>
      have hinner := Expr.walk_alike hreads he hscoped hn hw herrors
      exact hinner
  | unary op operator e =>
    cases he with
    | unary _ _ he =>
      have hinner := Expr.walk_alike hreads he hscoped.2 hn hw herrors
      exact hinner
  | binary op operator l r =>
    cases he with
    | binary _ _ hl hr =>
      rw [Expr.variables, List.forall_mem_append] at hn
      have hleft := Expr.walk_alike hreads hl hscoped.2.1 hn.1 hw
        (Walk.errors_eq_nil (r.errors_walk _) herrors)
      exact (Expr.walk_alike hreads hr hscoped.2.2 hn.2 hleft herrors).mono (by simp [Expr.ids])
  | logical op operator l r =>
    cases he with
    | logical _ _ hl hr =>
      rw [Expr.variables, List.forall_mem_append] at hn
      have hleft := Expr.walk_alike hreads hl hscoped.2.1 hn.1 hw
        (Walk.errors_eq_nil (r.errors_walk _) herrors)
      exact (Expr.walk_alike hreads hr hscoped.2.2 hn.2 hleft herrors).mono (by simp [Expr.ids])
  | assign r e =>
    cases he with
    | assign hr he =>
      rw [Expr.variables, List.forall_mem_cons] at hn
      rw [Expr.walk, Walk.errors_lookUp] at herrors
      have hvalue := Expr.walk_alike hreads he hscoped.2.2 hn.2 hw herrors
      exact (hvalue.lookUp hreads hr hscoped.1 hn.1).mono (by simp [Expr.ids])
  | get o name =>
    cases he with
    | get ho =>
      have hinner := Expr.walk_alike (e := o) hreads ho hscoped hn hw herrors
      exact hinner
  | set o name e =>
    cases he with
    | set ho _ he =>
      rw [Expr.variables, List.forall_mem_append] at hn
      have hvalue := Expr.walk_alike hreads he hscoped.2 hn.2 hw
        (Walk.errors_eq_nil (o.errors_walk _) herrors)
      exact (Expr.walk_alike hreads ho hscoped.1 hn.1 hvalue herrors).mono (by simp [Expr.ids])
  | call c closing es =>
    cases he with
    | call hc _ hes =>
      rw [Expr.variables, List.forall_mem_append] at hn
      have hcallee := Expr.walk_alike hreads hc hscoped.1 hn.1 hw
        (Walk.errors_eq_nil (Expr.errors_walkAll es _) herrors)
      exact (Expr.walkAll_alike hreads hes hscoped.2 hn.2 hcallee herrors).mono (by simp [Expr.ids])

theorem Expr.walkAll_alike (hreads : G.Reads known) {es es' : List Expr} {ids : List NodeId}
    {w w' : Walk} (hes : List.Forall₂ (Expr.Alike G K) es es')
    (hscoped : Expr.AreScoped known True Γ es)
    (hn : ∀ r ∈ Expr.variablesAll es, r.name.lexeme ≠ G.new) (hw : Walk.Alike G K Γ ids w w')
    (herrors : (Expr.walkAll es w).errors = []) :
    Walk.Alike G K Γ (Expr.idsAll es' ++ ids) (Expr.walkAll es w) (Expr.walkAll es' w') := by
  cases es with
  | nil =>
    cases hes
    exact hw
  | cons e es =>
    cases hes with
    | cons he hes =>
      rw [Expr.variablesAll, List.forall_mem_append] at hn
      have hfirst := Expr.walk_alike hreads he hscoped.1 hn.1 hw
        (Walk.errors_eq_nil (Expr.errors_walkAll es _) herrors)
      exact (Expr.walkAll_alike hreads hes hscoped.2 hn.2 hfirst herrors).mono
        (by simp [Expr.idsAll])

end

/-! ## Statements -/

/-- A class names its superclass, which is looked up before the class opens its scopes. -/
theorem Stmt.walk_alike_superclass (hreads : G.Reads known) {name : Token} {r r' : Reference}
    {w w' : Walk} (hr : G.Refers K r r') (hscoped : (Expr.variable r).Scoped known True Γ)
    (hn : r.name.lexeme ≠ G.new) (hname : name.lexeme ≠ G.new) (hw : Walk.Alike G K Γ ids w w')
    (herrors : (w.reportIf (r.name.lexeme == name.lexeme) .inheritsFromItself r.name).errors = []) :
    Walk.Alike G K Γ (r'.id :: ids)
      ((Expr.variable r).walk
        (w.reportIf (r.name.lexeme == name.lexeme) .inheritsFromItself r.name))
      ((Expr.variable r').walk
        (w'.reportIf (r'.name.lexeme == name.lexeme) .inheritsFromItself r'.name)) := by
  obtain ⟨hne, heq⟩ := Walk.reportIf_eq_nil herrors
  have hne' : (r'.name.lexeme == name.lexeme) = false := by
    have hspells := hr.spells
    rw [beq_eq_false_iff_ne] at hne ⊢
    generalize r'.name = t' at hspells
    generalize hold : r.name = t at hspells hne
    cases hspells with
    | same => exact hne
    | changed => exact hname.symm
  rw [heq, hne']
  exact Expr.walk_alike_variable hreads hr hscoped hn hw

/-- Neither walk complains about a `return` that stands where it may. -/
theorem Walk.Alike.ret {w w' : Walk} (hw : Walk.Alike G K Γ ids w w') (keyword : Token)
    (value value' : Option Expr) (hvalue : value'.isSome = value.isSome)
    (herrors : (Expr.walkOptional value
      ((w.reportIf (w.function == .none) .returnAtTopLevel keyword).reportIf
        (value.isSome && (w.reportIf (w.function == .none) .returnAtTopLevel keyword).function ==
          .initializer) .returnValueFromInitializer keyword)).errors = []) :
    (Stmt.ret keyword value).walk w = Expr.walkOptional value w ∧
      (Stmt.ret keyword value').walk w' = Expr.walkOptional value' w' := by
  have hsecond := Walk.errors_eq_nil (Expr.errors_walkOptional value _) herrors
  obtain ⟨hinitializer, heq⟩ := Walk.reportIf_eq_nil hsecond
  rw [heq] at hsecond
  obtain ⟨htop, heq⟩ := Walk.reportIf_eq_nil hsecond
  rw [heq] at hinitializer
  have hsame (v : Walk) (o : Option Expr) (hfunction : v.function = w.function)
      (ho : o.isSome = value.isSome) : (Stmt.ret keyword o).walk v = Expr.walkOptional o v := by
    have htop : (v.function == .none) = false := by rw [hfunction, htop]
    have hfirst : v.reportIf (v.function == .none) .returnAtTopLevel keyword = v := by
      rw [htop]
      rfl
    have hinitializer : (o.isSome && v.function == .initializer) = false := by
      rw [ho, hfunction, hinitializer]
    rw [Stmt.walk]
    simp only [hfirst, hinitializer]
    rfl
  exact ⟨hsame w value rfl rfl, hsame w' value' hw.function hvalue⟩

mutual

theorem Stmt.walk_alike (hreads : G.Reads known) {K : List Bool} {Γ : Scopes}
    {context : FunctionContext} {s s' : Stmt} {ids : List NodeId} {w w' : Walk}
    (hs : s.Alike G K s') (hscoped : s.Scoped known Γ context)
    (hn : Avoids G.new s.variables s.declarations) (hw : Walk.Alike G K Γ ids w w')
    (herrors : (s.walk w).errors = []) :
    Walk.Alike G K (s.after Γ) (s'.ids ++ ids) (s.walk w) (s'.walk w') := by
  cases s with
  | expression e =>
    cases hs with
    | expression he => exact Expr.walk_alike hreads he hscoped hn.references hw herrors
  | print e =>
    cases hs with
    | print he => exact Expr.walk_alike hreads he hscoped hn.references hw herrors
  | varDecl name initializer =>
    have hname := hn.names name List.mem_cons_self
    have hdeclared := hw.declare hscoped.1 hname
    cases hs with
    | varDecl => exact hdeclared.define hname
    | initialized _ he =>
      rw [Stmt.walk, Walk.errors_define] at herrors
      have hvalue := Expr.walk_alike hreads he (hscoped.2.2 _ rfl) hn.references hdeclared herrors
      exact hvalue.define hname
  | funDecl d =>
    cases hs with
    | funDecl hname hd =>
      have hintroduced := hw.introduce hscoped.1 (hn.names d.name List.mem_cons_self)
      rw [hname] at hintroduced
      have hfunction := FunctionDecl.walk_alike hreads hd hscoped.2.2 hn.tail hintroduced herrors
      rw [Stmt.walk, Stmt.walk, hd.name]
      exact hfunction
  | classDecl name superclass ds =>
    have hnew := hn.names name List.mem_cons_self
    cases hs with
    | baseClass hname hds =>
      rw [Stmt.walk] at herrors ⊢
      rw [Stmt.walk]
      refine hw.inClass .base (fun hv herrors => ?_) herrors
      have hintroduced := hv.introduce hscoped.1 hnew
      rw [hname] at hintroduced
      exact hintroduced.inScopeOf .this rfl
        (fun hv' herrors => FunctionDecl.walkAll_alike hreads hds hscoped.2.2 hn.tail hv' herrors)
        herrors
    | @subclass _ _ r r' _ ds' hname hr hds =>
      obtain ⟨hisNew, -, hsuper, hmethods⟩ := hscoped
      have hinside : Avoids G.new ([r] ++ FunctionDecl.variablesAll ds)
          ([name] ++ FunctionDecl.declarationsAll ds) := hn
      rw [Stmt.walk] at herrors ⊢
      rw [Stmt.walk]
      refine hw.inClass .derived (fun hv herrors => ?_) herrors
      have hintroduced := hv.introduce hisNew hnew
      rw [hname] at hintroduced
      have hbefore (v : Walk) : v.errors <+: (((Expr.variable r).walk v).inScopeOf .super fun w =>
          w.inScopeOf .this (FunctionDecl.walkAll ds)).errors :=
        (Expr.errors_walk (.variable r) v).trans (Walk.errors_inScopeOf _ .super
          fun w => w.errors_inScopeOf .this (FunctionDecl.errors_walkAll ds))
      have hlooked := Stmt.walk_alike_superclass hreads hr hsuper
        (hn.references r List.mem_cons_self) hnew hintroduced
        (Walk.errors_eq_nil (hbefore _) herrors)
      have hleft := hlooked.inScopeOf .super rfl (fun hv herrors => hv.inScopeOf .this rfl
        (fun hv herrors => FunctionDecl.walkAll_alike hreads hds hmethods hinside.right hv herrors)
        herrors) herrors
      exact hleft.mono (by simp [Stmt.ids])
  | block body =>
    cases hs with
    | @block _ b _ body' hbody =>
      exact hw.inScope b (by rw [Stmt.tail_foldl_after]; rfl)
        (fun hv herrors => Stmt.walkAll_alike hreads hbody hscoped hn hv herrors) herrors
  | branch condition yes no =>
    obtain ⟨e', yes', no', rfl, he, hyes, hno⟩ : ∃ e' yes' no', s' = .branch e' yes' no' ∧
        condition.Alike G K e' ∧ yes.Alike G K yes' ∧ Option.Rel (Stmt.Alike G K) no no' := by
      cases hs with
      | branch he hyes => exact ⟨_, _, _, rfl, he, hyes, .none⟩
      | branchElse he hyes hno => exact ⟨_, _, _, rfl, he, hyes, .some hno⟩
    have hinside : Avoids G.new (yes.variables ++ Stmt.variablesOptional no)
        (yes.declarations ++ Stmt.declarationsOptional no) := hn.behind
    have hsecond := Walk.errors_eq_nil (Stmt.errors_walkOptional no _) herrors
    have hcondition := Expr.walk_alike hreads he hscoped.1
      (fun r hr => hn.references r (List.mem_append_left _ hr)) hw
      (Walk.errors_eq_nil (yes.errors_walk _) hsecond)
    have hfirst := Stmt.walk_alike hreads hyes hscoped.2.1.1 hinside.left hcondition hsecond
    rw [Stmt.after_of_isPlain hscoped.2.1.2] at hfirst
    have hrest := Stmt.walkOptional_alike hreads hno hscoped.2.2 hinside.right hfirst herrors
    refine hrest.mono fun id hid => ?_
    simp only [Stmt.ids, List.mem_append] at hid ⊢
    grind
  | loop condition body =>
    cases hs with
    | loop he hbody =>
      have hcondition := Expr.walk_alike hreads he hscoped.1 (fun r hr => hn.references r (List.mem_append_left _ hr)) hw
        (Walk.errors_eq_nil (body.errors_walk _) herrors)
      have hrest := Stmt.walk_alike hreads hbody hscoped.2.1 hn.behind hcondition herrors
      rw [Stmt.after_of_isPlain hscoped.2.2] at hrest
      exact hrest.mono (by simp [Stmt.ids])
  | ret keyword value =>
    cases hs with
    | ret =>
      obtain ⟨hleft, hright⟩ := hw.ret keyword none none rfl herrors
      rw [hleft, hright]
      exact hw
    | @returned _ _ e e' he =>
      obtain ⟨hleft, hright⟩ := hw.ret keyword (some e) (some e') rfl herrors
      rw [hleft] at herrors
      rw [hleft, hright]
      exact Expr.walk_alike hreads he (hscoped.2 e rfl) hn.references hw herrors
termination_by structural s

theorem Stmt.walkAll_alike (hreads : G.Reads known) {K : List Bool} {Γ : Scopes}
    {context : FunctionContext} {ss ss' : List Stmt} {ids : List NodeId} {w w' : Walk}
    (hss : Stmt.AreAlike G K ss ss') (hscoped : Stmt.AreScoped known Γ context ss)
    (hn : Avoids G.new (Stmt.variablesAll ss) (Stmt.declarationsAll ss))
    (hw : Walk.Alike G K Γ ids w w') (herrors : (Stmt.walkAll ss w).errors = []) :
    Walk.Alike G K (ss.foldl Stmt.after Γ) (Stmt.idsAll ss' ++ ids) (Stmt.walkAll ss w)
      (Stmt.walkAll ss' w') := by
  cases ss with
  | nil =>
    cases hss
    exact hw
  | cons s ss =>
    cases hss with
    | cons hs hss =>
      have hfirst := Stmt.walk_alike hreads hs hscoped.1 hn.left hw
        (Walk.errors_eq_nil (Stmt.errors_walkAll ss _) herrors)
      have hrest := Stmt.walkAll_alike hreads hss hscoped.2 hn.right hfirst herrors
      exact hrest.mono (by simp [Stmt.idsAll])
termination_by structural ss

theorem Stmt.walkOptional_alike (hreads : G.Reads known) {K : List Bool} {Γ : Scopes}
    {context : FunctionContext} {s s' : Option Stmt} {ids : List NodeId} {w w' : Walk}
    (hs : Option.Rel (Stmt.Alike G K) s s') (hscoped : Stmt.ScopedOptional known Γ context s)
    (hn : Avoids G.new (Stmt.variablesOptional s) (Stmt.declarationsOptional s))
    (hw : Walk.Alike G K Γ ids w w') (herrors : (Stmt.walkOptional s w).errors = []) :
    Walk.Alike G K Γ (Stmt.idsOptional s' ++ ids) (Stmt.walkOptional s w)
      (Stmt.walkOptional s' w') := by
  cases s with
  | none =>
    cases hs
    exact hw
  | some s =>
    cases hs with
    | some hs =>
      have hsome := Stmt.walk_alike hreads hs hscoped.1 hn hw herrors
      rwa [Stmt.after_of_isPlain hscoped.2] at hsome
termination_by structural s

theorem FunctionDecl.walk_alike (hreads : G.Reads known) {K : List Bool} {Γ : Scopes}
    {context visited : FunctionContext} {d d' : FunctionDecl} {ids : List NodeId} {w w' : Walk}
    (hd : d.Alike G K d') (hscoped : d.Scoped known Γ context)
    (hn : Avoids G.new d.variables d.declarations) (hw : Walk.Alike G K Γ ids w w')
    (herrors : (d.walk visited w).errors = []) :
    Walk.Alike G K Γ (d'.ids ++ ids) (d.walk visited w) (d'.walk visited w') := by
  obtain ⟨name, parameters, body⟩ := d
  obtain ⟨hnew, -, hscoped⟩ := hscoped
  cases hd with
  | @of _ b _ _ _ body' hbody =>
    have hinside : Avoids G.new ([] ++ Stmt.variablesAll body)
        (parameters ++ Stmt.declarationsAll body) := hn
    rw [FunctionDecl.walk] at herrors ⊢
    rw [FunctionDecl.walk]
    refine hw.inFunction visited (fun hv herrors => ?_) herrors
    exact hv.inScope b (by rw [Stmt.tail_foldl_after, Scopes.tail_foldl_introduce]; rfl)
      (fun hv herrors => Stmt.walkAll_alike hreads hbody hscoped hinside.right
        (hv.foldl_introduce hnew hinside.left.names) herrors) herrors
termination_by structural d

theorem FunctionDecl.walkAll_alike (hreads : G.Reads known) {K : List Bool} {Γ : Scopes}
    {ds ds' : List FunctionDecl} {ids : List NodeId} {w w' : Walk}
    (hds : FunctionDecl.AreAlike G K ds ds') (hscoped : FunctionDecl.AreScoped known Γ ds)
    (hn : Avoids G.new (FunctionDecl.variablesAll ds) (FunctionDecl.declarationsAll ds))
    (hw : Walk.Alike G K Γ ids w w') (herrors : (FunctionDecl.walkAll ds w).errors = []) :
    Walk.Alike G K Γ (FunctionDecl.idsAll ds' ++ ids) (FunctionDecl.walkAll ds w)
      (FunctionDecl.walkAll ds' w') := by
  cases ds with
  | nil =>
    cases hds
    exact hw
  | cons d ds =>
    cases hds with
    | cons hd hds =>
      have hfirst := FunctionDecl.walk_alike hreads hd hscoped.1 hn.left hw
        (Walk.errors_eq_nil (FunctionDecl.errors_walkAll ds _) herrors)
      have hrest := FunctionDecl.walkAll_alike hreads hds hscoped.2 hn.right hfirst herrors
      rw [FunctionDecl.walkAll, FunctionDecl.walkAll, hd.name]
      exact hrest.mono (by simp [FunctionDecl.idsAll])
termination_by structural ds

end

end

/-! ## Tables -/

theorem mem_of_noted {entries : List (NodeId × Binding)} {id : NodeId} {d : Nat}
    (h : noted entries id = some d) : ∃ p ∈ entries, p.1 = id ∧ p.2.depth = d := by
  obtain ⟨b, hb, hdepth⟩ := Option.map_eq_some_iff.mp h
  obtain ⟨before, behind, rfl, -⟩ := List.lookup_eq_some_iff.mp hb
  exact ⟨(id, b), List.mem_append_right _ List.mem_cons_self, rfl, hdepth⟩

theorem noted_of_mem {entries : List (NodeId × Binding)} {p : NodeId × Binding}
    (h : p ∈ entries) : ∃ d, noted entries p.1 = some d := by
  unfold noted
  cases hlookup : entries.lookup p.1 with
  | none =>
    have hne := List.lookup_eq_none_iff.mp hlookup p h
    rw [bne_self_eq_false] at hne
    cases hne
  | some b => exact ⟨b.depth, rfl⟩

/-- A program that is alike to one that is accepted is accepted as well, and its table has
of its references what the guise has, and nothing else. -/
theorem resolve_alike {known : Known} (hreads : G.Reads known) {program program' : List Stmt}
    {table : BindingTable} (h : resolve program = .ok table)
    (halike : Stmt.AreAlike G [] program program')
    (hscoped : Stmt.AreScoped known [] .none program)
    (hn : Avoids G.new (Stmt.variablesAll program) (Stmt.declarationsAll program)) :
    ∃ table', resolve program' = .ok table' ∧
      (∀ id d, table'.distance? id = some d → G.distance' id = some d) ∧
      ∀ id ∈ Stmt.idsAll program', table'.distance? id = G.distance' id := by
  have hstart : Walk.Alike G [] [] [] .start .start :=
    ⟨rfl, .nil, rfl, rfl, rfl, nofun, nofun⟩
  have hend := Stmt.walkAll_alike hreads halike hscoped hn hstart (walkAll_of_resolve h).1
  have hresolve : resolve program' =
      .ok (BindingTable.addAll ∅ (Stmt.walkAll program' .start).found.reverse) := by
    rw [resolve, hend.errors]
    rfl
  have htable (id : NodeId) (d : Nat)
      (hd : noted (Stmt.walkAll program' .start).found id = some d) : G.distance' id = some d := by
    obtain ⟨p, hp, rfl, rfl⟩ := mem_of_noted hd
    exact hend.found p hp
  refine ⟨_, hresolve, fun id d hd => ?_, fun id hid => ?_⟩
  · rw [BindingTable.distance?_addAll_reverse] at hd
    exact htable id d hd
  · rw [BindingTable.distance?_addAll_reverse]
    cases hdistance : G.distance' id with
    | none =>
      cases hd : noted (Stmt.walkAll program' .start).found id with
      | none => rfl
      | some d => exact absurd ((htable id d hd).symm.trans hdistance) nofun
    | some d =>
      obtain ⟨p, hp, rfl⟩ := hend.visited id (List.mem_append_left _ hid) d hdistance
      obtain ⟨d', hd'⟩ := noted_of_mem hp
      rw [hd', ← htable _ d' hd', hdistance]

end Lox
