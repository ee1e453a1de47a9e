import Lox.Proofs.Binding.Sites
import Lox.Proofs.Mirror.Visited

/-!
# The walk comes to every site

The walk that binds the references of a program comes to its sites in order. At each
of them it reports what breaks the rules there and notes how far out a name is declared,
and nothing else.

## Implementation notes

Between two statements all names of all scopes are ready, so that the scopes of the walk
are determined by the names of the scopes around the site (`Walk.IsAt`). Inside an
initializer one name may not be ready; there it is enough to know what an expression can
find out about the scopes (`Walk.Sees`).
-/

namespace Lox

open scoped List

/-! ## What is noted at a site -/

/-- Where a reference finds its name. -/
def Frames.entries (Γ : Frames) (r : Reference) : List (NodeId × Binding) :=
  match Γ.scopes.findIdx? (r.name.lexeme ∈ ·) with
  | none => []
  | some depth => [(r.id, ⟨depth, r.name.lexeme, r.name.line⟩)]

/-- What is noted at a site itself. Outside of classes nothing is noted of a receiver. -/
def Site.entries : Site → List (NodeId × Binding)
  | ⟨.expr (.variable target), _, Γ⟩ => Γ.entries target
  | ⟨.expr (.receiver target), _, Γ⟩ => if Γ.class?.isNone then [] else Γ.entries target
  | ⟨.expr (.inherited target _), _, Γ⟩ => Γ.entries target
  | ⟨.expr (.assign target _), _, Γ⟩ => Γ.entries target
  | _ => []

/-- Between two moments a walk has come to sites in order. -/
structure Walk.Covers (w w' : Walk) (ps : List Site) : Prop where
  function : w'.function = w.function
  cls : w'.cls = w.cls
  errors : w'.errors = w.errors ++ ps.flatMap Site.breaches
  found : w'.found.Perm (ps.flatMap Site.entries ++ w.found)

namespace Walk.Covers

variable {w w' w'' : Walk} {p : Site} {ps qs : List Site}

theorem refl (w : Walk) : w.Covers w [] :=
  ⟨rfl, rfl, (List.append_nil _).symm, .refl _⟩

theorem trans (h : w.Covers w' ps) (h' : w'.Covers w'' qs) : w.Covers w'' (ps ++ qs) where
  function := h'.function.trans h.function
  cls := h'.cls.trans h.cls
  errors := by rw [h'.errors, h.errors, List.flatMap_append, List.append_assoc]
  found := by
    calc w''.found
      _ ~ qs.flatMap Site.entries ++ w'.found := h'.found
      _ ~ qs.flatMap Site.entries ++ (ps.flatMap Site.entries ++ w.found) := h.found.append_left _
      _ = (qs.flatMap Site.entries ++ ps.flatMap Site.entries) ++ w.found :=
        (List.append_assoc _ _ _).symm
      _ ~ (ps.flatMap Site.entries ++ qs.flatMap Site.entries) ++ w.found :=
        List.perm_append_comm.append_right _
      _ = (ps ++ qs).flatMap Site.entries ++ w.found := by rw [List.flatMap_append]

/-- There is nothing to say of the first site itself. -/
theorem root (h : w.Covers w' ps) (hbreaches : p.breaches = []) (hentries : p.entries = []) :
    w.Covers w' (p :: ps) where
  function := h.function
  cls := h.cls
  errors := by rw [List.flatMap_cons, hbreaches, h.errors, List.nil_append]
  found := by
    rw [List.flatMap_cons, hentries, List.nil_append]
    exact h.found

end Walk.Covers

/-! ## Scopes of the walk -/

namespace Frames

variable {f : Frame} {Γ : Frames} {names : List Token}

@[simp] theorem scopes_cons :
    scopes (f :: Γ) = f.declared.map Token.lexeme :: (f.opening.given ++ Γ.scopes) :=
  List.flatMap_cons

@[simp] theorem past_nil : past Γ [] = Γ := by
  cases Γ with
  | nil => rfl
  | cons f Γ => simp [past]

theorem past_past (others : List Token) : (past Γ names).past others = past Γ (names ++ others) := by
  cases Γ with
  | nil => rfl
  | cons f Γ => simp [past]

theorem count_pos_iff {name : Token} :
    0 < count (f :: Γ) name ↔ name.lexeme ∈ f.declared.map Token.lexeme := by
  simp [count, List.countP_pos_iff]

/-- The context of a return. -/
def functionContext (Γ : Frames) : FunctionContext :=
  match Γ.function? with
  | none => .none
  | some (.method _ d) => .ofMethod d.name
  | some _ => .function

/-- The context of a receiver. -/
def classContext (Γ : Frames) : ClassContext :=
  match Γ.class? with
  | none => .none
  | some none => .base
  | some (some _) => .derived

theorem functionContext_past : (past Γ names).functionContext = functionContext Γ := by
  obtain _ | ⟨⟨opening, declared⟩, Γ⟩ := Γ
  · rfl
  · cases opening <;> rfl

theorem classContext_past : (past Γ names).classContext = classContext Γ := by
  obtain _ | ⟨⟨opening, declared⟩, Γ⟩ := Γ
  · rfl
  · cases opening <;> rfl

theorem functionContext_eq_none : functionContext Γ = .none ↔ Γ.function?.isNone = true := by
  unfold functionContext
  rcases Γ.function? with _ | _ | d | ⟨superclass, d⟩
  · simp
  · simp
  · simp
  · by_cases h : d.name.lexeme = initializerName <;> simp [FunctionContext.ofMethod, h]

theorem functionContext_eq_initializer :
    functionContext Γ = .initializer ↔ Γ.isInInitializer = true := by
  unfold functionContext isInInitializer
  rcases Γ.function? with _ | _ | d | ⟨superclass, d⟩
  · simp
  · simp
  · simp
  · simp [FunctionContext.ofMethod]

end Frames

/-- The names of a scope, all of them ready. -/
def allReady (names : List String) (name : String) : Option Bool :=
  if name ∈ names then some true else none

theorem get?_insert_allReady {scope : NameMap Bool} {names : List String}
    (h : scope.get? = allReady names) (name : String) :
    (scope.insert name true).get? = allReady (names ++ [name]) := by
  funext other
  rw [NameMap.get?_insert, h]
  by_cases heq : name = other
  · simp [allReady, heq]
  · simp [allReady, heq, Ne.symm heq]

namespace Walk

/-- Whether a walk is at a site between two statements. -/
structure IsAt (w : Walk) (Γ : Frames) : Prop where
  scopes : w.scopes.map NameMap.get? = Γ.scopes.map allReady
  function : w.function = Γ.functionContext
  cls : w.cls = Γ.classContext

/-- Whether an expression sees the scopes around it. -/
structure Sees (w : Walk) (x : Option Token) (Γ : Frames) : Prop where
  declared : w.scopes.map NameMap.contains = Γ.scopes.map fun names name => decide (name ∈ names)
  unready : ∀ name : Token,
    w.isUnready name = x.any fun x => x.lexeme == name.lexeme && Γ.count x == 1

variable {w w' : Walk} {Γ : Frames} {x : Option Token}

/-- The scopes are none, or the innermost one holds the names of the innermost frame. -/
theorem scope_cases (h : w.scopes.map NameMap.get? = Γ.scopes.map allReady) :
    (Γ = [] ∧ w.scopes = []) ∨ ∃ f Γ' scope outer, Γ = f :: Γ' ∧ w.scopes = scope :: outer ∧
      scope.get? = allReady (f.declared.map Token.lexeme) ∧
      outer.map NameMap.get? = (f.opening.given ++ Frames.scopes Γ').map allReady := by
  cases Γ with
  | nil => exact .inl ⟨rfl, List.map_eq_nil_iff.mp h⟩
  | cons f Γ' =>
    rw [Frames.scopes_cons, List.map_cons, List.map_eq_cons_iff] at h
    obtain ⟨scope, outer, hw, hscope, houter⟩ := h
    exact .inr ⟨f, Γ', scope, outer, rfl, hw, hscope, houter⟩

theorem contains_of_get? {scope : NameMap Bool} {names : List String}
    (h : scope.get? = allReady names) :
    scope.contains = fun name => decide (name ∈ names) := by
  funext name
  rw [NameMap.contains, h, allReady]
  split <;> simp_all

theorem map_contains {scopes : List (NameMap Bool)} {names : List (List String)}
    (h : scopes.map NameMap.get? = names.map allReady) :
    scopes.map NameMap.contains = names.map fun names name => decide (name ∈ names) := by
  have hmap := congrArg (List.map fun (get? : String → Option Bool) name => (get? name).isSome) h
  rw [List.map_map, List.map_map] at hmap
  refine hmap.trans (List.map_congr_left fun names _ => ?_)
  funext name
  rw [Function.comp_apply, allReady]
  split <;> simp_all

/-- Outside of initializers all names are ready. -/
theorem sees_of_scopes (h : w.scopes.map NameMap.get? = Γ.scopes.map allReady) :
    w.Sees none Γ where
  declared := map_contains h
  unready name := by
    obtain ⟨rfl, hw⟩ | ⟨f, Γ', scope, outer, rfl, hw, hscope, -⟩ := scope_cases h
    · simp [isUnready, hw]
    · simp only [isUnready, hw, hscope, allReady]
      split <;> rfl

/-! ## Declarations -/

theorem errors_reportIf_eq (w : Walk) (cause : ScopingCause) (token : Token) (broken : Bool) :
    (w.reportIf broken cause token).errors = w.errors ++ breachIf broken cause token := by
  cases broken
  · exact (List.append_nil _).symm
  · rfl

theorem declare_eq_ite (h : w.scopes.map NameMap.get? = Γ.scopes.map allReady) (name : Token) :
    w.declare name =
      if 0 < Γ.count name then w.report .redeclaration name else w.mark name.lexeme false := by
  obtain ⟨rfl, hw⟩ | ⟨f, Γ', scope, outer, rfl, hw, hscope, -⟩ := scope_cases h
  · simp [declare, mark, hw, Frames.count]
  · have hcontains : scope.contains name.lexeme = true ↔ 0 < Frames.count (f :: Γ') name := by
      rw [Frames.count_pos_iff, contains_of_get? hscope, decide_eq_true_iff]
    simp only [declare, hw, hcontains]

/-- A name that was declared in its scope before is reported. -/
theorem declare_covers (h : w.scopes.map NameMap.get? = Γ.scopes.map allReady) (name : Token)
    {p : Site} (hbreaches : p.breaches = breachIf (0 < Γ.count name) .redeclaration name)
    (hentries : p.entries = []) : w.Covers (w.declare name) [p] := by
  have hps : [p].flatMap Site.breaches = breachIf (0 < Γ.count name) .redeclaration name := by
    rw [List.flatMap_singleton, hbreaches]
  have hps' : [p].flatMap Site.entries = [] := by rw [List.flatMap_singleton, hentries]
  rw [declare_eq_ite h name]
  split
  next hcount =>
    refine ⟨rfl, rfl, ?_, ?_⟩
    · rw [hps, decide_eq_true hcount]
      rfl
    · rw [hps']
      exact .refl _
  next hcount =>
    refine ⟨?_, ?_, ?_, ?_⟩
    · unfold mark
      split <;> rfl
    · unfold mark
      split <;> rfl
    · rw [hps, decide_eq_false hcount, errors_mark]
      exact (List.append_nil _).symm
    · rw [hps', List.nil_append]
      unfold mark
      split <;> exact .refl _

theorem declare_of_nil (hw : w.scopes = []) (name : Token) : w.declare name = w := by
  rw [declare, hw]

/-- A declared name is ready only if it was declared in its scope before. -/
theorem scopes_of_declare {f : Frame} {scope : NameMap Bool} {outer : List (NameMap Bool)}
    (h : w.scopes.map NameMap.get? = (Frames.scopes (f :: Γ)).map allReady)
    (hw : w.scopes = scope :: outer) (hscope : scope.get? = allReady (f.declared.map Token.lexeme))
    (name : Token) :
    ∃ scope' : NameMap Bool, (w.declare name).scopes = scope' :: outer ∧
      ∀ other, scope'.get? other = if name.lexeme = other
        then some (decide (name.lexeme ∈ f.declared.map Token.lexeme))
        else allReady (f.declared.map Token.lexeme) other := by
  rw [declare_eq_ite h name]
  split
  next hcount =>
    have hmem := Frames.count_pos_iff.mp hcount
    refine ⟨scope, hw, fun other => ?_⟩
    rw [hscope]
    split
    next heq =>
      rw [← heq, allReady, if_pos hmem, decide_eq_true hmem]
    next => rfl
  next hcount =>
    have hmem := mt Frames.count_pos_iff.mpr hcount
    refine ⟨scope.insert name.lexeme false, ?_, fun other => ?_⟩
    · rw [scopes_mark, hw, Scopes.mark]
    · rw [NameMap.get?_insert, hscope, decide_eq_false hmem]

/-- The initializer of a variable sees it in its scope, and not ready if it is new there. -/
theorem declare_sees (h : w.scopes.map NameMap.get? = Γ.scopes.map allReady) (name : Token) :
    (w.declare name).Sees (some name) (Γ.past [name]) := by
  obtain ⟨rfl, hw⟩ | ⟨f, Γ', scope, outer, rfl, hw, hscope, houter⟩ := scope_cases h
  · rw [declare_of_nil hw]
    refine ⟨?_, fun other => ?_⟩
    · rw [hw]
      rfl
    · simp [isUnready, hw, Frames.past, Frames.count]
  obtain ⟨scope', hw', hscope'⟩ := scopes_of_declare h hw hscope name
  have hcount : Frames.count (Frames.past (f :: Γ') [name]) name = 1 ↔
      ¬ name.lexeme ∈ f.declared.map Token.lexeme := by
    rw [← Frames.count_pos_iff (Γ := Γ')]
    simp [Frames.past, Frames.count]
  constructor
  · rw [hw', Frames.past, Frames.scopes_cons, List.map_cons, List.map_cons,
      map_contains houter]
    congr 1
    funext other
    rw [NameMap.contains, hscope', List.map_append]
    generalize f.declared.map Token.lexeme = names
    by_cases heq : name.lexeme = other
    · simp [heq]
    · by_cases hmem : other ∈ names <;> simp [allReady, heq, hmem, Ne.symm heq]
  · intro other
    simp only [isUnready, hw', hscope', Option.any_some]
    rw [Bool.eq_iff_iff, Bool.and_eq_true, beq_iff_eq, beq_iff_eq, beq_iff_eq, hcount]
    generalize f.declared.map Token.lexeme = names
    by_cases heq : name.lexeme = other.lexeme
    · simp [heq]
    · by_cases hmem : other.lexeme ∈ names <;> simp [allReady, heq, hmem]

/-- A variable is ready behind its initializer. -/
theorem mark_declare (h : w.scopes.map NameMap.get? = Γ.scopes.map allReady) (name : Token) :
    (Scopes.mark (w.declare name).scopes name.lexeme true).map NameMap.get? =
      (Γ.past [name]).scopes.map allReady := by
  obtain ⟨rfl, hw⟩ | ⟨f, Γ', scope, outer, rfl, hw, hscope, houter⟩ := scope_cases h
  · rw [declare_of_nil hw, hw]
    rfl
  obtain ⟨scope', hw', hscope'⟩ := scopes_of_declare h hw hscope name
  rw [hw', Scopes.mark, Frames.past, Frames.scopes_cons, List.map_cons, List.map_cons,
    houter, List.map_append]
  congr 1
  funext other
  rw [NameMap.get?_insert, hscope']
  by_cases heq : name.lexeme = other
  · simp [heq, allReady]
  · simp [heq, allReady, Ne.symm heq]

/-! ## Looking up -/

theorem findIdx?_eq_of_map {α β : Type} {q : α → String → Bool} {q' : β → String → Bool}
    {l : List α} {l' : List β} (h : l.map q = l'.map q') (name : String) :
    l.findIdx? (q · name) = l'.findIdx? (q' · name) := by
  have hmap := congrArg (List.findIdx? fun holds : String → Bool => holds name) h
  rwa [List.findIdx?_map, List.findIdx?_map] at hmap

theorem Sees.of_scopes_eq (h : w.Sees x Γ) (hscopes : w'.scopes = w.scopes) : w'.Sees x Γ where
  declared := by rw [hscopes, h.declared]
  unready name := by
    rw [← h.unready]
    unfold isUnready
    rw [hscopes]

theorem Sees.walked (h : w.Sees x Γ) (e : Expr) : (e.walk w).Sees x Γ :=
  h.of_scopes_eq (e.scopes_walk w)

theorem Sees.found_lookUp (h : w.Sees x Γ) (target : Reference) :
    (w.lookUp target).found = Γ.entries target ++ w.found := by
  have hdepth : w.scopes.findIdx? (·.contains target.name.lexeme) =
      Γ.scopes.findIdx? (target.name.lexeme ∈ ·) :=
    findIdx?_eq_of_map h.declared target.name.lexeme
  unfold lookUp Frames.entries
  rw [hdepth]
  cases Γ.scopes.findIdx? (target.name.lexeme ∈ ·) <;> rfl

@[simp] theorem function_lookUp (w : Walk) (target : Reference) :
    (w.lookUp target).function = w.function := by
  unfold lookUp
  split <;> rfl

@[simp] theorem cls_lookUp (w : Walk) (target : Reference) : (w.lookUp target).cls = w.cls := by
  unfold lookUp
  split <;> rfl

@[simp] theorem function_reportIf (w : Walk) (broken : Bool) (cause : ScopingCause)
    (token : Token) : (w.reportIf broken cause token).function = w.function := by
  cases broken <;> rfl

@[simp] theorem cls_reportIf (w : Walk) (broken : Bool) (cause : ScopingCause) (token : Token) :
    (w.reportIf broken cause token).cls = w.cls := by
  cases broken <;> rfl

@[simp] theorem found_reportIf (w : Walk) (broken : Bool) (cause : ScopingCause) (token : Token) :
    (w.reportIf broken cause token).found = w.found := by
  cases broken <;> rfl

namespace Covers

variable {p : Site} {ps : List Site}

/-- The walk comes to one site. -/
theorem single (hfunction : w'.function = w.function) (hcls : w'.cls = w.cls)
    (herrors : w'.errors = w.errors ++ p.breaches) (hfound : w'.found = p.entries ++ w.found) :
    w.Covers w' [p] where
  function := hfunction
  cls := hcls
  errors := by rw [List.flatMap_singleton, herrors]
  found := by rw [List.flatMap_singleton, hfound]

/-- The walk looks up a reference behind its parts. -/
theorem lookUp (h : w.Covers w' ps) (hsees : w'.Sees x Γ) (target : Reference)
    (hbreaches : p.breaches = []) (hentries : p.entries = Γ.entries target) :
    w.Covers (w'.lookUp target) (p :: ps) where
  function := by rw [function_lookUp, h.function]
  cls := by rw [cls_lookUp, h.cls]
  errors := by rw [errors_lookUp, h.errors, List.flatMap_cons, hbreaches, List.nil_append]
  found := by
    rw [hsees.found_lookUp, List.flatMap_cons, hentries, List.append_assoc]
    exact h.found.append_left _

end Covers

end Walk

end Lox
