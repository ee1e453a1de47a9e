import Lox.Proofs.Guise.Renaming
import Lox.Proofs.Guise.Stored

/-!
# Renamed programs are alike

A program in which a local variable has got another name is like the program before, in
the guise in which the scope of the variable tells its name by the new one.

## Implementation notes

What is known of the references is what the table has of them, so that those that are
rebound are those that lead to the scope of the variable. No other name of that scope has
to be told in another way, because it declares no name twice and the new name is nowhere
in the program.
-/

namespace Lox

namespace Scopes

/-! ## Names of the innermost scope -/

/-- Whether the innermost scope has declared a name. -/
def Declares (Γ : Scopes) (n : String) : Prop :=
  ∃ scope ∈ Γ.head?, scope.contains n = true

variable {Γ : Scopes} {n : String} {name : Token}

theorem Declares.mark (h : Γ.Declares n) (m : String) (ready : Bool) : (Γ.mark m ready).Declares n := by
  obtain ⟨scope, hscope, hn⟩ := h
  cases Γ with
  | nil => cases hscope
  | cons scope' outer =>
    cases hscope
    exact ⟨_, rfl, by rw [contains_insert, hn, Bool.or_true]⟩

theorem Declares.introduce (h : Γ.Declares n) (name : Token) : (Γ.introduce name).Declares n :=
  (h.mark _ _).mark _ _

theorem Declares.foldl_introduce (h : Γ.Declares n) (names : List Token) :
    (names.foldl Scopes.introduce Γ).Declares n := by
  induction names generalizing Γ with
  | nil => exact h
  | cons name names ih => exact ih (h.introduce name)

theorem Declares.after (h : Γ.Declares n) (s : Stmt) : (s.after Γ).Declares n := by
  cases s with
  | varDecl name _ => exact h.introduce name
  | funDecl function => exact h.introduce function.name
  | classDecl name _ _ => exact h.introduce name
  | _ => exact h

theorem declares_introduce (h : 0 < Γ.length) (name : Token) :
    (Γ.introduce name).Declares name.lexeme := by
  cases Γ with
  | nil => cases h
  | cons scope outer => exact ⟨_, rfl, by rw [contains_insert, beq_self_eq_true, Bool.true_or]⟩

theorem declares_foldl_introduce {names : List Token} (hpos : 0 < Γ.length) (h : name ∈ names) :
    (names.foldl Scopes.introduce Γ).Declares name.lexeme := by
  induction names generalizing Γ with
  | nil => cases h
  | cons first names ih =>
    rcases List.mem_cons.mp h with rfl | h
    · exact (declares_introduce hpos name).foldl_introduce names
    · exact ih (by rw [length_introduce]; exact hpos) h

theorem IsNew.ne (h : Γ.IsNew name) (hn : Γ.Declares n) : name.lexeme ≠ n := by
  rintro rfl
  obtain ⟨scope, hscope, hcontains⟩ := hn
  rw [h scope hscope] at hcontains
  cases hcontains

theorem AreNew.ne {names : List Token} (h : Γ.AreNew names) (hn : Γ.Declares n) :
    ∀ name ∈ names, name.lexeme ≠ n := by
  induction names generalizing Γ with
  | nil => exact nofun
  | cons first names ih =>
    rw [List.forall_mem_cons]
    exact ⟨h.1.ne hn, ih h.2 (hn.introduce first)⟩

/-- A name that is declared later is not among the earlier ones. -/
theorem AreNew.ne_of_append {before behind : List Token} (hpos : 0 < Γ.length)
    (h : Γ.AreNew (before ++ name :: behind)) :
    (∀ other ∈ before, other.lexeme ≠ name.lexeme) ∧
      ∀ other ∈ behind, other.lexeme ≠ name.lexeme := by
  induction before generalizing Γ with
  | nil => exact ⟨nofun, AreNew.ne h.2 (declares_introduce hpos name)⟩
  | cons first before ih =>
    obtain ⟨hbefore, hbehind⟩ := ih (by rw [length_introduce]; exact hpos) h.2
    refine ⟨List.forall_mem_cons.mpr ⟨?_, hbefore⟩, hbehind⟩
    have hlast : name.lexeme ≠ first.lexeme :=
      AreNew.ne h.2 (declares_introduce hpos first) name
        (List.mem_append_right _ List.mem_cons_self)
    exact hlast.symm

end Scopes

section

variable {known : Known} {Γ : Scopes} {context : FunctionContext} {n : String} {name : Token}

theorem Stmt.Scoped.isNew {s : Stmt} (h : s.Scoped known Γ context) (hname : s.declared? = some name) :
    Γ.IsNew name := by
  cases s with
  | varDecl | funDecl =>
    cases hname
    exact h.1
  | classDecl _ superclass =>
    cases hname
    cases superclass <;> exact h.1
  | _ => cases hname

theorem Stmt.declares_after {s : Stmt} (hpos : 0 < Γ.length) (hname : s.declared? = some name) :
    (s.after Γ).Declares name.lexeme := by
  cases s with
  | varDecl | funDecl | classDecl =>
    cases hname
    exact Scopes.declares_introduce hpos _
  | _ => cases hname

/-- No statement declares what the scope around it has already. -/
theorem Stmt.AreScoped.ne {ss : List Stmt} (h : Stmt.AreScoped known Γ context ss)
    (hn : Γ.Declares n) : ∀ s ∈ ss, ∀ name ∈ s.declared?, name.lexeme ≠ n := by
  induction ss generalizing Γ with
  | nil => exact nofun
  | cons s ss ih =>
    rw [List.forall_mem_cons]
    exact ⟨fun name hname => (h.1.isNew hname).ne hn, ih h.2 (hn.after s)⟩

/-- A variable that is declared later is not declared by earlier statements. -/
theorem Stmt.AreScoped.ne_of_append {before behind : List Stmt} {s : Stmt} (hpos : 0 < Γ.length)
    (h : Stmt.AreScoped known Γ context (before ++ s :: behind)) (hname : s.declared? = some name) :
    (∀ t ∈ before, ∀ other ∈ t.declared?, other.lexeme ≠ name.lexeme) ∧
      ∀ t ∈ behind, ∀ other ∈ t.declared?, other.lexeme ≠ name.lexeme := by
  induction before generalizing Γ with
  | nil => exact ⟨nofun, Stmt.AreScoped.ne h.2 (Stmt.declares_after hpos hname)⟩
  | cons first before ih =>
    obtain ⟨hbefore, hbehind⟩ := ih (by rw [Scopes.length_after]; exact hpos) h.2
    refine ⟨List.forall_mem_cons.mpr ⟨fun other hother => ?_, hbefore⟩, hbehind⟩
    have hlast : name.lexeme ≠ other.lexeme :=
      Stmt.AreScoped.ne h.2 (Stmt.declares_after hpos hother) s
        (List.mem_append_right _ List.mem_cons_self) name hname
    exact hlast.symm

end

/-! ## The scope of the variable -/

namespace Scopes

variable {Γ : Scopes} {k d : Nat}

/-- The marks of scopes of which one exchanges names. -/
def markedAt (Γ : Scopes) (k : Nat) : List Bool :=
  Γ.plain.set k true

@[simp] theorem markedAt_cons_zero (names : NameMap Bool) :
    markedAt (names :: Γ) 0 = true :: Γ.plain := rfl

@[simp] theorem markedAt_cons_succ (names : NameMap Bool) :
    markedAt (names :: Γ) (k + 1) = false :: Γ.markedAt k := rfl

@[simp] theorem markedAt_given_succ (name : Keyword) :
    (Γ.given name).markedAt (k + 1) = false :: Γ.markedAt k := rfl

@[simp] theorem markedAt_mark (name : String) (ready : Bool) :
    (Γ.mark name ready).markedAt k = Γ.markedAt k := by
  rw [markedAt, plain_mark, markedAt]

@[simp] theorem markedAt_introduce (name : Token) :
    (Γ.introduce name).markedAt k = Γ.markedAt k := by
  rw [markedAt, plain_introduce, markedAt]

@[simp] theorem markedAt_foldl_introduce (names : List Token) :
    (names.foldl introduce Γ).markedAt k = Γ.markedAt k := by
  rw [markedAt, plain_foldl_introduce, markedAt]

@[simp] theorem markedAt_after (s : Stmt) : (s.after Γ).markedAt k = Γ.markedAt k := by
  rw [markedAt, plain_after, markedAt]

theorem length_markedAt : (Γ.markedAt k).length = Γ.length := by
  rw [markedAt, List.length_set, plain, List.length_replicate]

theorem getElem?_markedAt (hd : d < Γ.length) : (Γ.markedAt k)[d]? = some (decide (k = d)) := by
  rw [markedAt, List.getElem?_set]
  have hplain := Γ.getElem?_plain hd
  by_cases h : k = d
  · subst h
    rw [if_pos rfl, if_pos (by rw [plain, List.length_replicate]; exact hd), decide_eq_true rfl]
  · rw [if_neg h, hplain, decide_eq_false h]

end Scopes

/-- What is known of the references of a program is what the guise and the table have. -/
structure Guise.Rebinds (G : Guise) (table : BindingTable) (known : Known) : Prop where
  distance : ∀ id d, known id = some d → G.distance id = d
  distance' : ∀ id d, known id = some d → G.distance' id = d
  table : ∀ id d, known id = some d → table.distance? id = d
  wrapped : G.wrapped = false

variable {G : Guise} {table : BindingTable} {known : Known}

theorem Guise.Rebinds.knows (h : G.Rebinds table known) : G.Knows known known :=
  ⟨h.distance, h.distance'⟩

/-- Only the references to the scope of the variable are told by another name. -/
theorem Guise.Rebinds.refers (h : G.Rebinds table known) {Γ : Scopes} {k : Nat} {r : Reference}
    (hr : r.Found known Γ) (hnew : r.name.lexeme ≠ G.new) :
    G.Refers (Γ.markedAt k) r (r.rebind table G.old G.new k) := by
  cases hd : Γ.depth? r.name.lexeme with
  | some d =>
    have hfound : known r.id = some (some d) := hr.trans (by rw [hd])
    have hrebind : r.rebind table G.old G.new k = ⟨r.id, G.token (decide (k = d)) r.name⟩ := by
      unfold Reference.rebind
      rw [h.table _ _ hfound]
      by_cases hk : k = d
      · by_cases hold : r.name.lexeme = G.old
        · rw [if_pos ⟨hold, by rw [hk]⟩, decide_eq_true hk, Guise.token, hold, Guise.name_old]
        · rw [if_neg fun hboth => hold hboth.1,
            Guise.token_of_name_eq (Guise.name_of_ne hold hnew)]
      · rw [if_neg fun hboth => hk (Option.some.inj hboth.2).symm, decide_eq_false hk,
          Guise.token_false]
    rw [hrebind]
    exact .bound (h.distance _ _ hfound) (h.distance' _ _ hfound)
      (Scopes.getElem?_markedAt (Scopes.lt_of_depth? hd)) fun _ => hnew
  | none =>
    have hfound : known r.id = some none := hr.trans (by rw [hd])
    have hrebind : r.rebind table G.old G.new k = r := by
      rw [Reference.rebind, if_neg]
      rintro ⟨-, hsome⟩
      rw [h.table _ _ hfound] at hsome
      cases hsome
    rw [hrebind]
    refine .free (h.distance _ _ hfound) ?_
    rw [h.distance' _ _ hfound, Guise.top, if_neg (by rw [h.wrapped]; exact Bool.false_ne_true)]

/-- In the scope of the variable, and in those inside, another name is told as it was. -/
theorem Guise.declared_markedAt {Γ : Scopes} {k : Nat} {name : Token}
    (hold : k = 0 → name.lexeme ≠ G.old) (hnew : name.lexeme ≠ G.new) :
    G.declared (Γ.markedAt k) name = name := by
  cases Γ with
  | nil => rfl
  | cons names Γ =>
    cases k with
    | zero => exact Guise.token_of_name_eq (Guise.name_of_ne (hold rfl) hnew)
    | succ k => rfl

/-! ## What stands in the scope -/

mutual

theorem Expr.alike_rebind (h : G.Rebinds table known) {Γ : Scopes} {k : Nat} {e : Expr}
    (he : e.Scoped known True Γ) (hnew : ∀ r ∈ e.variables, r.name.lexeme ≠ G.new) :
    e.Alike G (Γ.markedAt k) (e.rebind table G.old G.new k) := by
  cases e with
  | literal value => exact .literal value
  | «variable» r => exact .variable (h.refers he.1 (hnew r List.mem_cons_self))
  | receiver r =>
    obtain ⟨hfound, hthis, -⟩ := he
    have hne : r.name.lexeme ≠ G.new := by
      rw [hthis]
      exact G.new_ne .this
    have hrefers := h.refers (k := k) hfound hne
    rw [Reference.rebind, if_neg fun hboth => G.old_ne .this (hthis.symm.trans hboth.1)] at hrefers
    exact .receiver hrefers
  | inherited r method =>
    obtain ⟨hfound, hsuper, hstrict⟩ := he
    obtain ⟨d, hd, -⟩ := hstrict trivial
    rw [← hsuper] at hd
    have hknown : known r.id = some (some (d + 1)) := hfound.trans (by rw [hd])
    refine .inherited r.name method (h.distance _ _ hknown) (h.distance' _ _ hknown) ?_
    rw [Scopes.length_markedAt]
    exact Scopes.lt_of_depth? hd
  | grouping e => exact .grouping (Expr.alike_rebind h he hnew)
  | unary op operator e => exact .unary op operator (Expr.alike_rebind h he.2 hnew)
  | binary op operator l r =>
    rw [Expr.variables, List.forall_mem_append] at hnew
    exact .binary op operator (Expr.alike_rebind h he.2.1 hnew.1)
      (Expr.alike_rebind h he.2.2 hnew.2)
  | logical op operator l r =>
    rw [Expr.variables, List.forall_mem_append] at hnew
    exact .logical op operator (Expr.alike_rebind h he.2.1 hnew.1)
      (Expr.alike_rebind h he.2.2 hnew.2)
  | assign r e =>
    rw [Expr.variables, List.forall_mem_cons] at hnew
    exact .assign (h.refers he.1 hnew.1) (Expr.alike_rebind h he.2.2 hnew.2)
  | get o name => exact .get (Expr.alike_rebind (e := o) h he hnew) name
  | set o name e =>
    rw [Expr.variables, List.forall_mem_append] at hnew
    exact .set (Expr.alike_rebind h he.1 hnew.1) name (Expr.alike_rebind h he.2 hnew.2)
  | call c closing es =>
    rw [Expr.variables, List.forall_mem_append] at hnew
    exact .call (Expr.alike_rebind h he.1 hnew.1) closing (Expr.areAlike_rebindAll h he.2 hnew.2)

theorem Expr.areAlike_rebindAll (h : G.Rebinds table known) {Γ : Scopes} {k : Nat}
    {es : List Expr} (hes : Expr.AreScoped known True Γ es)
    (hnew : ∀ r ∈ Expr.variablesAll es, r.name.lexeme ≠ G.new) :
    List.Forall₂ (Expr.Alike G (Γ.markedAt k)) es (Expr.rebindAll table G.old G.new k es) := by
  cases es with
  | nil => exact .nil
  | cons e es =>
    rw [Expr.variablesAll, List.forall_mem_append] at hnew
    exact .cons (Expr.alike_rebind h hes.1 hnew.1) (Expr.areAlike_rebindAll h hes.2 hnew.2)

end

mutual

/-- What stands in the scope of the variable, or further inside, is alike if its own
declarations in that scope are of other names. -/
theorem Stmt.alike_rebind (h : G.Rebinds table known) {Γ : Scopes} {k : Nat}
    {context : FunctionContext} {s : Stmt} (hs : s.Scoped known Γ context)
    (hold : k = 0 → ∀ name ∈ s.declared?, name.lexeme ≠ G.old)
    (hnew : Avoids G.new s.variables s.declarations) :
    s.Alike G (Γ.markedAt k) (s.rebind table G.old G.new k) := by
  cases s with
  | expression e => exact .expression (Expr.alike_rebind h hs hnew.references)
  | print e => exact .print (Expr.alike_rebind h hs hnew.references)
  | varDecl name initializer =>
    have hname : G.declared (Γ.markedAt k) name = name :=
      Guise.declared_markedAt (fun hk => hold hk name rfl) (hnew.names name List.mem_cons_self)
    cases initializer with
    | none =>
      have halike := Stmt.Alike.varDecl (G := G) (Γ.markedAt k) name
      rwa [hname] at halike
    | some e =>
      have he := Expr.alike_rebind (k := k) h (hs.2.2 e rfl) hnew.references
      rw [Scopes.markedAt_mark] at he
      have halike := Stmt.Alike.initialized name he
      rwa [hname] at halike
  | funDecl d =>
    have hd := FunctionDecl.alike_rebind (k := k) h hs.2.2 hnew.tail
    rw [Scopes.markedAt_introduce] at hd
    exact .funDecl (Guise.declared_markedAt (fun hk => hold hk d.name rfl)
      (hnew.names d.name List.mem_cons_self)) hd
  | classDecl name superclass ds =>
    have hname : G.declared (Γ.markedAt k) name = name :=
      Guise.declared_markedAt (fun hk => hold hk name rfl) (hnew.names name List.mem_cons_self)
    cases superclass with
    | none =>
      have hds := FunctionDecl.areAlike_rebindAll (k := k + 1) h hs.2.2 hnew.tail
      rw [Scopes.markedAt_given_succ, Scopes.markedAt_introduce] at hds
      exact .baseClass hname hds
    | some r =>
      obtain ⟨-, -, hr, hds⟩ := hs
      have hrefers := h.refers (k := k) hr.1 (hnew.references r List.mem_cons_self)
      have hinside : Avoids G.new ([r] ++ FunctionDecl.variablesAll ds)
          ([name] ++ FunctionDecl.declarationsAll ds) := hnew
      have hds := FunctionDecl.areAlike_rebindAll (k := k + 2) h hds hinside.right
      rw [Scopes.markedAt_given_succ, Scopes.markedAt_given_succ, Scopes.markedAt_introduce] at hds
      rw [Scopes.markedAt_introduce] at hrefers
      exact .subclass hname hrefers hds
  | block body => exact .block (Stmt.areAlike_rebindAll (k := k + 1) h hs nofun hnew)
  | branch condition yes no =>
    have hcondition := Expr.alike_rebind (k := k) h hs.1
      fun r hr => hnew.references r (List.mem_append_left _ hr)
    have hinside : Avoids G.new (yes.variables ++ Stmt.variablesOptional no)
        (yes.declarations ++ Stmt.declarationsOptional no) := hnew.behind
    have hyes := Stmt.alike_rebind (k := k) h hs.2.1.1
      (fun _ => by rw [hs.2.1.2.declared?]; exact nofun) hinside.left
    cases Stmt.optionalAlike_rebind (k := k) h hs.2.2 hinside.right with
    | none => exact .branch hcondition hyes
    | some hno => exact .branchElse hcondition hyes hno
  | loop condition body =>
    have hcondition := Expr.alike_rebind (k := k) h hs.1
      fun r hr => hnew.references r (List.mem_append_left _ hr)
    exact .loop hcondition (Stmt.alike_rebind h hs.2.1
      (fun _ => by rw [hs.2.2.declared?]; exact nofun) hnew.behind)
  | ret keyword value =>
    cases value with
    | none => exact .ret _ keyword
    | some e => exact .returned keyword (Expr.alike_rebind h (hs.2 e rfl) hnew.references)
termination_by structural s

theorem Stmt.areAlike_rebindAll (h : G.Rebinds table known) {Γ : Scopes} {k : Nat}
    {context : FunctionContext} {ss : List Stmt} (hss : Stmt.AreScoped known Γ context ss)
    (hold : k = 0 → ∀ s ∈ ss, ∀ name ∈ s.declared?, name.lexeme ≠ G.old)
    (hnew : Avoids G.new (Stmt.variablesAll ss) (Stmt.declarationsAll ss)) :
    Stmt.AreAlike G (Γ.markedAt k) ss (Stmt.rebindAll table G.old G.new k ss) := by
  cases ss with
  | nil => exact .nil _
  | cons s ss =>
    have hs := Stmt.alike_rebind (k := k) h hss.1 (fun hk => hold hk s List.mem_cons_self) hnew.left
    have hrest := Stmt.areAlike_rebindAll (k := k) h hss.2
      (fun hk t ht => hold hk t (List.mem_cons_of_mem _ ht)) hnew.right
    rw [Scopes.markedAt_after] at hrest
    exact .cons hs hrest
termination_by structural ss

theorem Stmt.optionalAlike_rebind (h : G.Rebinds table known) {Γ : Scopes} {k : Nat}
    {context : FunctionContext} {s : Option Stmt} (hs : Stmt.ScopedOptional known Γ context s)
    (hnew : Avoids G.new (Stmt.variablesOptional s) (Stmt.declarationsOptional s)) :
    Option.Rel (Stmt.Alike G (Γ.markedAt k)) s (Stmt.rebindOptional table G.old G.new k s) := by
  cases s with
  | none => exact .none
  | some s =>
    exact .some (Stmt.alike_rebind h hs.1 (fun _ => by rw [hs.2.declared?]; exact nofun) hnew)
termination_by structural s

/-- A function inside the scope of the variable has a scope of its own. -/
theorem FunctionDecl.alike_rebind (h : G.Rebinds table known) {Γ : Scopes} {k : Nat}
    {context : FunctionContext} {d : FunctionDecl} (hd : d.Scoped known Γ context)
    (hnew : Avoids G.new d.variables d.declarations) :
    d.Alike G (Γ.markedAt k) (d.rebind table G.old G.new k) := by
  obtain ⟨name, parameters, body⟩ := d
  have hinside : Avoids G.new ([] ++ Stmt.variablesAll body)
      (parameters ++ Stmt.declarationsAll body) := hnew
  have hbody := Stmt.areAlike_rebindAll (k := k + 1) h hd.2.2 nofun hinside.right
  rw [Scopes.markedAt_foldl_introduce, Scopes.markedAt_cons_succ] at hbody
  have halike := FunctionDecl.Alike.of name parameters hbody
  rwa [show parameters.map (G.token false) = parameters from List.map_id parameters] at halike
termination_by structural d

theorem FunctionDecl.areAlike_rebindAll (h : G.Rebinds table known) {Γ : Scopes} {k : Nat}
    {ds : List FunctionDecl} (hds : FunctionDecl.AreScoped known Γ ds)
    (hnew : Avoids G.new (FunctionDecl.variablesAll ds) (FunctionDecl.declarationsAll ds)) :
    FunctionDecl.AreAlike G (Γ.markedAt k) ds (FunctionDecl.rebindAll table G.old G.new k ds) := by
  cases ds with
  | nil => exact .nil _
  | cons d ds =>
    exact .cons (FunctionDecl.alike_rebind h hds.1 hnew.left)
      (FunctionDecl.areAlike_rebindAll h hds.2 hnew.right)
termination_by structural ds

end

/-! ## The declaration -/

theorem Guise.token_old {t : Token} (h : t.lexeme = G.old) :
    G.token true t = { t with lexeme := G.new } := by
  rw [Guise.token, h, Guise.name_old]

/-- The scope of a variable, if the variable is declared under another name. -/
theorem Stmt.RenamesVariable.alike (h : G.Rebinds table known) {Γ : Scopes} (hpos : 0 < Γ.length)
    {context : FunctionContext} {ss ss' : List Stmt}
    (hrenames : Stmt.RenamesVariable table G.old G.new ss ss')
    (hss : Stmt.AreScoped known Γ context ss)
    (hnew : Avoids G.new (Stmt.variablesAll ss) (Stmt.declarationsAll ss)) :
    Stmt.AreAlike G (Γ.markedAt 0) ss ss' := by
  cases hrenames with
  | @of before name hname initializer behind =>
    obtain ⟨hbefore, hbehind⟩ := Stmt.AreScoped.ne_of_append hpos hss rfl
    rw [hname] at hbefore hbehind
    induction before generalizing Γ with
    | nil =>
      have hinside : Avoids G.new (Expr.variablesOptional initializer ++ Stmt.variablesAll behind)
          ([name] ++ Stmt.declarationsAll behind) := hnew
      have hrest := Stmt.areAlike_rebindAll (k := 0) h hss.2 (fun _ => hbehind) hinside.right
      rw [Scopes.markedAt_after] at hrest
      have hdeclared : G.declared (Γ.markedAt 0) name = { name with lexeme := G.new } := by
        cases Γ with
        | nil => cases hpos
        | cons names Γ => exact Guise.token_old hname
      refine .cons ?_ hrest
      cases initializer with
      | none =>
        have halike := Stmt.Alike.varDecl (G := G) (Γ.markedAt 0) name
        rwa [hdeclared] at halike
      | some e =>
        have he := Expr.alike_rebind (k := 0) h (hss.1.2.2 e rfl) hinside.left.references
        rw [Scopes.markedAt_mark] at he
        have halike := Stmt.Alike.initialized name he
        rwa [hdeclared] at halike
    | cons first before ih =>
      have hinside : Avoids G.new
          (first.variables ++ Stmt.variablesAll (before ++ .varDecl name initializer :: behind))
          (first.declarations ++
            Stmt.declarationsAll (before ++ .varDecl name initializer :: behind)) := hnew
      rw [List.forall_mem_cons] at hbefore
      have hfirst := Stmt.alike_rebind (k := 0) h hss.1 (fun _ => hbefore.1) hinside.left
      have hrest := ih (by rw [Scopes.length_after]; exact hpos) hss.2 hinside.right hbefore.2
      rw [Scopes.markedAt_after] at hrest
      exact .cons hfirst hrest

/-- Tokens of other names are told as they were. -/
theorem Guise.map_token {ts : List Token} (hold : ∀ t ∈ ts, t.lexeme ≠ G.old)
    (hnew : ∀ t ∈ ts, t.lexeme ≠ G.new) : ts.map (G.token true) = ts := by
  conv_rhs => rw [← List.map_id ts]
  exact List.map_congr_left fun t ht =>
    Guise.token_of_name_eq (Guise.name_of_ne (hold t ht) (hnew t ht))

/-- A function one of whose parameters has another name. -/
theorem FunctionDecl.Renames.alike_parameter (h : G.Rebinds table known) {Γ : Scopes}
    {context : FunctionContext} {function name : Token} {before behind : List Token}
    {body : List Stmt} (hname : name.lexeme = G.old)
    (hd : FunctionDecl.Scoped known Γ context ⟨function, before ++ name :: behind, body⟩)
    (hnew : Avoids G.new (Stmt.variablesAll body)
      ((before ++ name :: behind) ++ Stmt.declarationsAll body)) :
    FunctionDecl.Alike G Γ.plain ⟨function, before ++ name :: behind, body⟩
      ⟨function, before ++ { name with lexeme := G.new } :: behind,
        Stmt.rebindAll table G.old G.new 0 body⟩ := by
  obtain ⟨hparameters, -, hbody⟩ := hd
  have hpos : 0 < List.length (NameMap.empty :: Γ) := Nat.zero_lt_succ _
  have hmem : name ∈ before ++ name :: behind := List.mem_append_right _ List.mem_cons_self
  have hinside : Avoids G.new ([] ++ Stmt.variablesAll body)
      ((before ++ name :: behind) ++ Stmt.declarationsAll body) := hnew
  have hnames := List.forall_mem_append.mp hinside.left.names
  have hold := Stmt.AreScoped.ne hbody (Scopes.declares_foldl_introduce hpos hmem)
  rw [hname] at hold
  have halike := Stmt.areAlike_rebindAll (k := 0) h hbody (fun _ => hold) hinside.right
  rw [Scopes.markedAt_foldl_introduce, Scopes.markedAt_cons_zero] at halike
  have hfunction := FunctionDecl.Alike.of function (before ++ name :: behind) halike
  obtain ⟨hbefore, hbehind⟩ := hparameters.ne_of_append hpos
  rw [hname] at hbefore hbehind
  rwa [List.map_append, List.map_cons, Guise.map_token hbefore hnames.1, Guise.token_old hname,
    Guise.map_token hbehind (List.forall_mem_cons.mp hnames.2).2] at hfunction

/-- A function one of whose variables has another name. -/
theorem FunctionDecl.Renames.alike_variable (h : G.Rebinds table known) {Γ : Scopes}
    {context : FunctionContext} {function : Token} {parameters : List Token}
    {body body' : List Stmt} (hrenames : Stmt.RenamesVariable table G.old G.new body body')
    (hd : FunctionDecl.Scoped known Γ context ⟨function, parameters, body⟩)
    (hnew : Avoids G.new (Stmt.variablesAll body) (parameters ++ Stmt.declarationsAll body)) :
    FunctionDecl.Alike G Γ.plain ⟨function, parameters, body⟩ ⟨function, parameters, body'⟩ := by
  obtain ⟨-, -, hbody⟩ := hd
  have hpos : 0 < List.length (NameMap.empty :: Γ) := Nat.zero_lt_succ _
  have hinside : Avoids G.new ([] ++ Stmt.variablesAll body)
      (parameters ++ Stmt.declarationsAll body) := hnew
  have halike := hrenames.alike h (by rw [Scopes.length_foldl_introduce]; exact hpos) hbody
    hinside.right
  rw [Scopes.markedAt_foldl_introduce, Scopes.markedAt_cons_zero] at halike
  have hold : ∀ p ∈ parameters, p.lexeme ≠ G.old := by
    intro p hp
    cases hrenames with
    | @of before name hname initializer behind =>
      have hne := Stmt.AreScoped.ne hbody (Scopes.declares_foldl_introduce hpos hp)
        (.varDecl name initializer) (List.mem_append_right _ List.mem_cons_self) name rfl
      rw [hname] at hne
      exact hne.symm
  have hfunction := FunctionDecl.Alike.of function parameters halike
  rwa [Guise.map_token hold hinside.left.names] at hfunction

mutual

/-- A statement in which one local variable or parameter has another name. -/
theorem Stmt.Renames.alike (h : G.Rebinds table known) {Γ : Scopes} {context : FunctionContext} :
    ∀ {s s' : Stmt}, s.Renames table G.old G.new s' → s.Scoped known Γ context →
      Avoids G.new s.variables s.declarations → s.Alike G Γ.plain s'
  | .block _, _, .block hrenames, hs, hnew =>
      .block (hrenames.alike (Γ := .empty :: Γ) h (Nat.zero_lt_succ _) hs hnew)
  | _, _, .inBlock hrenames, hs, hnew => .block (Stmt.RenamesOne.alike h hrenames hs hnew)
  | .funDecl d, _, .inFunction hrenames, hs, hnew => by
      have hd := FunctionDecl.Renames.alike h hrenames hs.2.2 hnew.tail
      rw [Scopes.plain_introduce] at hd
      exact .funDecl (G.declared_plain Γ d.name) hd
  | _, _, .inClass name none hrenames, hs, hnew => by
      have hds := FunctionDecl.RenamesOne.alike h hrenames hs.2.2 hnew.tail
      rw [Scopes.plain_given, Scopes.plain_introduce] at hds
      exact .baseClass (G.declared_plain Γ name) hds
  | .classDecl _ _ ds, _, .inClass name (some r) hrenames, hs, hnew => by
      obtain ⟨-, -, hr, hds⟩ := hs
      have hinside : Avoids G.new ([r] ++ FunctionDecl.variablesAll ds)
          ([name] ++ FunctionDecl.declarationsAll ds) := hnew
      have hrefers := h.knows.refers (.refl h.wrapped _) rfl hr.1 hr.1
        fun hwrapped => by rw [h.wrapped] at hwrapped; cases hwrapped
      have hds := FunctionDecl.RenamesOne.alike h hrenames hds hinside.right
      rw [Scopes.plain_introduce] at hrefers
      rw [Scopes.plain_given, Scopes.plain_given, Scopes.plain_introduce] at hds
      exact .subclass (G.declared_plain Γ name) hrefers hds
  | .branch _ yes _, _, .inBranch condition hrenames no, hs, hnew => by
      have hinside : Avoids G.new (yes.variables ++ Stmt.variablesOptional no)
          (yes.declarations ++ Stmt.declarationsOptional no) := hnew.behind
      have hcondition := Expr.alike_self h.wrapped h.knows hs.1
      have hyes := Stmt.Renames.alike h hrenames hs.2.1.1 hinside.left
      cases no with
      | none => exact .branch hcondition hyes
      | some no =>
        exact .branchElse hcondition hyes (Stmt.alike_self h.wrapped h.knows hs.2.2.1)
  | .branch _ _ (some no), _, .inElse condition yes hrenames, hs, hnew => by
      have hinside : Avoids G.new (yes.variables ++ no.variables)
          (yes.declarations ++ no.declarations) := hnew.behind
      exact .branchElse (Expr.alike_self h.wrapped h.knows hs.1)
        (Stmt.alike_self h.wrapped h.knows hs.2.1.1)
        (Stmt.Renames.alike h hrenames hs.2.2.1 hinside.right)
  | _, _, .inLoop condition hrenames, hs, hnew =>
      .loop (Expr.alike_self h.wrapped h.knows hs.1)
        (Stmt.Renames.alike h hrenames hs.2.1 hnew.behind)

theorem Stmt.RenamesOne.alike (h : G.Rebinds table known) {Γ : Scopes}
    {context : FunctionContext} :
    ∀ {ss ss' : List Stmt}, Stmt.RenamesOne table G.old G.new ss ss' →
      Stmt.AreScoped known Γ context ss →
      Avoids G.new (Stmt.variablesAll ss) (Stmt.declarationsAll ss) →
      Stmt.AreAlike G Γ.plain ss ss'
  | _, _, .head hrenames ss, hss, hnew => by
      have hrest := Stmt.areAlike_self h.wrapped h.knows hss.2
      rw [Scopes.plain_after] at hrest
      exact .cons (Stmt.Renames.alike h hrenames hss.1 hnew.left) hrest
  | _, _, .tail s hrenames, hss, hnew => by
      have hrest := Stmt.RenamesOne.alike h hrenames hss.2 hnew.right
      rw [Scopes.plain_after] at hrest
      exact .cons (Stmt.alike_self h.wrapped h.knows hss.1) hrest

/-- A function in which one parameter or local variable has another name. -/
theorem FunctionDecl.Renames.alike (h : G.Rebinds table known) {Γ : Scopes}
    {context : FunctionContext} :
    ∀ {d d' : FunctionDecl}, d.Renames table G.old G.new d' → d.Scoped known Γ context →
      Avoids G.new d.variables d.declarations → d.Alike G Γ.plain d'
  | _, _, .parameter _ _ hname _ _, hd, hnew =>
      FunctionDecl.Renames.alike_parameter h hname hd hnew
  | _, _, .variable _ _ hrenames, hd, hnew =>
      FunctionDecl.Renames.alike_variable h hrenames hd hnew
  | ⟨_, _, body⟩, _, .inBody name parameters hrenames, hd, hnew => by
      have hinside : Avoids G.new ([] ++ Stmt.variablesAll body)
          (parameters ++ Stmt.declarationsAll body) := hnew
      have hbody := Stmt.RenamesOne.alike h hrenames hd.2.2 hinside.right
      rw [Scopes.plain_foldl_introduce, Scopes.plain_cons] at hbody
      have halike := FunctionDecl.Alike.of name parameters hbody
      rwa [show parameters.map (G.token false) = parameters from List.map_id parameters] at halike

theorem FunctionDecl.RenamesOne.alike (h : G.Rebinds table known) {Γ : Scopes} :
    ∀ {ds ds' : List FunctionDecl}, FunctionDecl.RenamesOne table G.old G.new ds ds' →
      FunctionDecl.AreScoped known Γ ds →
      Avoids G.new (FunctionDecl.variablesAll ds) (FunctionDecl.declarationsAll ds) →
      FunctionDecl.AreAlike G Γ.plain ds ds'
  | _, _, .head hrenames ds, hds, hnew =>
      .cons (FunctionDecl.Renames.alike h hrenames hds.1 hnew.left)
        (FunctionDecl.areAlike_self h.wrapped h.knows hds.2)
  | _, _, .tail d hrenames, hds, hnew =>
      .cons (FunctionDecl.alike_self h.wrapped h.knows hds.1)
        (FunctionDecl.RenamesOne.alike h hrenames hds.2 hnew.right)

end

/-! ## The old name -/

section

variable {x y : String}

theorem Stmt.RenamesVariable.isName {ss ss' : List Stmt}
    (hrenames : Stmt.RenamesVariable table x y ss ss') {Γ : Scopes} {context : FunctionContext}
    (hss : Stmt.AreScoped known Γ context ss) : ∀ k : Keyword, k.text ≠ x := by
  cases hrenames with
  | @of before name hname initializer behind =>
    induction before generalizing Γ with
    | nil => exact fun k hk => hss.1.2.1 k (hname.trans hk.symm)
    | cons first before ih => exact ih hss.2

mutual

/-- What a program declares is no word of the language. -/
theorem Stmt.Renames.isName {Γ : Scopes} {context : FunctionContext} :
    ∀ {s s' : Stmt}, s.Renames table x y s' → s.Scoped known Γ context →
      ∀ k : Keyword, k.text ≠ x
  | _, _, .block hrenames, hs => hrenames.isName hs
  | _, _, .inBlock hrenames, hs => Stmt.RenamesOne.isName hrenames hs
  | _, _, .inFunction hrenames, hs => FunctionDecl.Renames.isName hrenames hs.2.2
  | _, _, .inClass _ none hrenames, hs => FunctionDecl.RenamesOne.isName hrenames hs.2.2
  | _, _, .inClass _ (some _) hrenames, hs => FunctionDecl.RenamesOne.isName hrenames hs.2.2.2
  | _, _, .inBranch _ hrenames _, hs => Stmt.Renames.isName hrenames hs.2.1.1
  | _, _, .inElse _ _ hrenames, hs => Stmt.Renames.isName hrenames hs.2.2.1
  | _, _, .inLoop _ hrenames, hs => Stmt.Renames.isName hrenames hs.2.1

theorem Stmt.RenamesOne.isName {Γ : Scopes} {context : FunctionContext} :
    ∀ {ss ss' : List Stmt}, Stmt.RenamesOne table x y ss ss' →
      Stmt.AreScoped known Γ context ss → ∀ k : Keyword, k.text ≠ x
  | _, _, .head hrenames _, hss => Stmt.Renames.isName hrenames hss.1
  | _, _, .tail _ hrenames, hss => Stmt.RenamesOne.isName hrenames hss.2

theorem FunctionDecl.Renames.isName {Γ : Scopes} {context : FunctionContext} :
    ∀ {d d' : FunctionDecl}, d.Renames table x y d' → d.Scoped known Γ context →
      ∀ k : Keyword, k.text ≠ x
  | _, _, .parameter _ _ hname _ _, hd => fun k hk =>
      hd.2.1 _ (List.mem_append_right _ List.mem_cons_self) k (hname.trans hk.symm)
  | _, _, .variable _ _ hrenames, hd => hrenames.isName hd.2.2
  | _, _, .inBody _ _ hrenames, hd => Stmt.RenamesOne.isName hrenames hd.2.2

theorem FunctionDecl.RenamesOne.isName {Γ : Scopes} :
    ∀ {ds ds' : List FunctionDecl}, FunctionDecl.RenamesOne table x y ds ds' →
      FunctionDecl.AreScoped known Γ ds → ∀ k : Keyword, k.text ≠ x
  | _, _, .head hrenames _, hds => FunctionDecl.Renames.isName hrenames hds.1
  | _, _, .tail _ hrenames, hds => FunctionDecl.RenamesOne.isName hrenames hds.2

end

end

end Lox
