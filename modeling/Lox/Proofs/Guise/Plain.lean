import Lox.Proofs.Guise.States
import Lox.Proofs.Guise.Variables
import Lox.Proofs.Scoping.Tables

/-!
# Guises that change no name

A program that fits the scopes around it is alike to one that differs in the numbers of
its references only, and that fits the same scopes or the same scopes inside one more. In
that case all its variables have to be found. So a program is alike to itself, and what
a session has stored is alike to what it has stored.
-/

namespace Lox

/-! ## Scopes that exchange no names -/

namespace Scopes

variable (Γ : Scopes)

theorem length_mark (name : String) (ready : Bool) : (Γ.mark name ready).length = Γ.length := by
  cases Γ <;> rfl

theorem length_introduce (name : Token) : (Γ.introduce name).length = Γ.length := by
  rw [introduce, length_mark, length_mark]

theorem length_foldl_introduce (names : List Token) :
    (names.foldl introduce Γ).length = Γ.length := by
  induction names generalizing Γ with
  | nil => rfl
  | cons name names ih => rw [List.foldl_cons, ih, length_introduce]

/-- The marks of scopes of which none exchanges names. -/
def plain : List Bool :=
  List.replicate Γ.length false

@[simp] theorem plain_cons (names : NameMap Bool) : plain (names :: Γ) = false :: Γ.plain := rfl

@[simp] theorem plain_given (k : Keyword) : (Γ.given k).plain = false :: Γ.plain := rfl

@[simp] theorem plain_mark (name : String) (ready : Bool) : (Γ.mark name ready).plain = Γ.plain := by
  rw [plain, length_mark, plain]

@[simp] theorem plain_introduce (name : Token) : (Γ.introduce name).plain = Γ.plain := by
  rw [plain, length_introduce, plain]

@[simp] theorem plain_foldl_introduce (names : List Token) :
    (names.foldl introduce Γ).plain = Γ.plain := by
  rw [plain, length_foldl_introduce, plain]

theorem length_after (s : Stmt) : (s.after Γ).length = Γ.length := by
  cases s with
  | varDecl name _ => exact Γ.length_introduce name
  | funDecl function => exact Γ.length_introduce function.name
  | classDecl name _ _ => exact Γ.length_introduce name
  | _ => rfl

@[simp] theorem plain_after (s : Stmt) : (s.after Γ).plain = Γ.plain := by
  rw [plain, length_after, plain]

theorem getElem?_plain {d : Nat} (h : d < Γ.length) : Γ.plain[d]? = some false :=
  List.getElem?_replicate_of_lt h

theorem lt_of_depth? {Γ : Scopes} {name : String} {d : Nat} (h : Γ.depth? name = some d) :
    d < Γ.length := by
  obtain ⟨hlt, -⟩ := List.findIdx?_eq_some_iff_getElem.mp h
  exact hlt

end Scopes

@[simp] theorem Guise.declared_plain (G : Guise) (Γ : Scopes) (name : Token) :
    G.declared Γ.plain name = name := by
  cases Γ <;> rfl

/-! ## Scopes inside others -/

/-- Scopes are the same, but for one more around them if the guise has one more. -/
structure Guise.Within (G : Guise) (Γ Γ' : Scopes) : Prop where
  inner : Γ <+: Γ'
  length : Γ'.length = Γ.length + G.shift

namespace Guise.Within

variable {G : Guise} {Γ Γ' : Scopes}

theorem cons (h : G.Within Γ Γ') (names : NameMap Bool) : G.Within (names :: Γ) (names :: Γ') :=
  ⟨List.cons_prefix_cons.mpr ⟨rfl, h.inner⟩, by rw [List.length_cons, List.length_cons, h.length,
    Nat.add_right_comm]⟩

theorem mark (h : G.Within Γ Γ') (name : String) (ready : Bool) :
    G.Within (Γ.mark name ready) (Γ'.mark name ready) := by
  refine ⟨?_, by rw [Scopes.length_mark, Scopes.length_mark, h.length]⟩
  obtain ⟨outer, rfl⟩ := h.inner
  cases Γ with
  | nil => exact List.nil_prefix
  | cons names Γ => exact ⟨outer, rfl⟩

theorem introduce (h : G.Within Γ Γ') (name : Token) :
    G.Within (Γ.introduce name) (Γ'.introduce name) :=
  (h.mark _ _).mark _ _

theorem foldl_introduce (h : G.Within Γ Γ') (names : List Token) :
    G.Within (names.foldl Scopes.introduce Γ) (names.foldl Scopes.introduce Γ') := by
  induction names generalizing Γ Γ' with
  | nil => exact h
  | cons name names ih => exact ih (h.introduce name)

theorem depth?_of_some (h : G.Within Γ Γ') {name : String} {d : Nat} (hd : Γ.depth? name = some d) :
    Γ'.depth? name = some d := by
  obtain ⟨outer, rfl⟩ := h.inner
  rw [Scopes.depth?, List.findIdx?_append, show Γ.findIdx? _ = some d from hd]
  rfl

/-- What is not found inside is found in the scope around, or not at all. -/
theorem depth?_of_none (h : G.Within Γ Γ') {name : String} (hd : Γ.depth? name = none)
    (hbound : G.wrapped = true → (Γ'.depth? name).isSome) :
    Γ'.depth? name = G.top Γ.length := by
  obtain ⟨outer, rfl⟩ := h.inner
  have hlength : outer.length = G.shift := by
    have hlength := h.length
    rw [List.length_append] at hlength
    exact Nat.add_left_cancel hlength
  have happend : Scopes.depth? (Γ ++ outer) name =
      (outer.findIdx? (·.contains name)).map (· + Γ.length) := by
    rw [Scopes.depth?, List.findIdx?_append, show Γ.findIdx? _ = none from hd, Option.none_or]
  rw [happend] at hbound ⊢
  unfold Guise.top
  cases hwrapped : G.wrapped with
  | false =>
    rw [Guise.shift, hwrapped] at hlength
    rw [List.eq_nil_of_length_eq_zero hlength]
    rfl
  | true =>
    rw [Guise.shift, hwrapped] at hlength
    obtain ⟨names, rfl⟩ := List.length_eq_one_iff.mp hlength
    have hsome := hbound hwrapped
    rw [List.findIdx?_cons] at hsome ⊢
    split at hsome
    · rename_i hcontains
      rw [if_pos hcontains, Option.map_some, Nat.zero_add]
      rfl
    · cases hsome

theorem after (h : G.Within Γ Γ') (s : Stmt) : G.Within (s.after Γ) (s.after Γ') := by
  cases s with
  | varDecl name _ => exact h.introduce name
  | funDecl function => exact h.introduce function.name
  | classDecl name _ _ => exact h.introduce name
  | _ => exact h

end Guise.Within

/-! ## Programs that differ in their numbers -/

/-- What is known of two programs is what the guise has of their references. -/
structure Guise.Knows (G : Guise) (known known' : Known) : Prop where
  left : ∀ id d, known id = some d → G.distance id = d
  right : ∀ id d, known' id = some d → G.distance' id = d

/-- Whether references are to declarations, as they have to be in one more scope. -/
def Guise.Binds (G : Guise) (references : List Reference) : Prop :=
  G.wrapped = true → ∀ r ∈ references, (G.distance' r.id).isSome

theorem Stmt.after_unnumbered (Γ : Scopes) (s : Stmt) : s.unnumbered.after Γ = s.after Γ := by
  cases s with
  | funDecl function => cases function; rfl
  | _ => rfl

theorem Stmt.after_congr {s s' : Stmt} (h : s.unnumbered = s'.unnumbered) (Γ : Scopes) :
    s'.after Γ = s.after Γ := by
  rw [← Stmt.after_unnumbered Γ s', ← h, Stmt.after_unnumbered]

section

variable {G : Guise} {known known' : Known}

namespace Guise.Binds

variable {rs rs' : List Reference} {r : Reference}

theorem left (h : G.Binds (rs ++ rs')) : G.Binds rs :=
  fun hwrapped => (List.forall_mem_append.mp (h hwrapped)).1

theorem right (h : G.Binds (rs ++ rs')) : G.Binds rs' :=
  fun hwrapped => (List.forall_mem_append.mp (h hwrapped)).2

theorem head (h : G.Binds (r :: rs)) : G.wrapped = true → (G.distance' r.id).isSome :=
  fun hwrapped => (List.forall_mem_cons.mp (h hwrapped)).1

theorem tail (h : G.Binds (r :: rs)) : G.Binds rs :=
  fun hwrapped => (List.forall_mem_cons.mp (h hwrapped)).2

end Guise.Binds

/-- References to the same name are to the same declaration. -/
theorem Guise.Knows.refers (hknows : G.Knows known known') {Γ Γ' : Scopes} (h : G.Within Γ Γ')
    {r r' : Reference} (hname : r.unnumbered = r'.unnumbered) (hr : r.Found known Γ)
    (hr' : r'.Found known' Γ') (hbound : G.wrapped = true → (G.distance' r'.id).isSome) :
    G.Refers Γ.plain r r' := by
  obtain ⟨id', name'⟩ := r'
  obtain rfl : r.name = name' := congrArg Reference.name hname
  have hdistance' : G.distance' id' = Γ'.depth? r.name.lexeme := hknows.right _ _ hr'
  cases hd : Γ.depth? r.name.lexeme with
  | some d =>
    refine .bound (d := d) (b := false) ?_ ?_ (Γ.getElem?_plain (Scopes.lt_of_depth? hd)) nofun
    · rw [hknows.left _ _ hr, hd]
    · rw [hdistance', h.depth?_of_some hd]
  | none =>
    refine .free ?_ ?_
    · rw [hknows.left _ _ hr, hd]
    · rw [hdistance'] at hbound ⊢
      rw [h.depth?_of_none hd hbound, Scopes.plain, List.length_replicate]

/-- A word of the language that is found inside is to be found in one more scope. -/
theorem Guise.Knows.isSome_of_depth? (hknows : G.Knows known known') {Γ Γ' : Scopes}
    (h : G.Within Γ Γ') {r : Reference} (hr : r.Found known' Γ') {d : Nat}
    (hd : Γ.depth? r.name.lexeme = some d) : (G.distance' r.id).isSome := by
  rw [hknows.right _ _ hr, h.depth?_of_some hd]
  rfl

mutual

theorem Expr.alike_of_unnumbered (hknows : G.Knows known known') {Γ Γ' : Scopes}
    (h : G.Within Γ Γ') {e e' : Expr} (heq : e.unnumbered = e'.unnumbered)
    (he : e.Scoped known True Γ) (he' : e'.Scoped known' True Γ') (hbinds : G.Binds e'.variables) :
    e.Alike G Γ.plain e' := by
  cases e with
  | literal value =>
    cases e' with
    | literal value' =>
      simp only [Expr.unnumbered, Expr.literal.injEq] at heq
      rw [heq]
      exact .literal value'
    | _ => simp only [Expr.unnumbered, reduceCtorEq] at heq
  | «variable» r =>
    cases e' with
    | «variable» r' =>
      simp only [Expr.unnumbered, Expr.variable.injEq] at heq
      exact .variable (hknows.refers h heq he.1 he'.1 hbinds.head)
    | _ => simp only [Expr.unnumbered, reduceCtorEq] at heq
  | receiver r =>
    cases e' with
    | receiver r' =>
      simp only [Expr.unnumbered, Expr.receiver.injEq] at heq
      obtain ⟨hfound, hthis, hstrict⟩ := he
      obtain ⟨hfound', hthis', -⟩ := he'
      obtain ⟨d, hd⟩ := hstrict trivial
      refine .receiver (hknows.refers h heq hfound hfound' fun _ => ?_)
      exact hknows.isSome_of_depth? h hfound' (by rw [hthis', hd])
    | _ => simp only [Expr.unnumbered, reduceCtorEq] at heq
  | inherited r method =>
    cases e' with
    | inherited r' method' =>
      simp only [Expr.unnumbered, Expr.inherited.injEq] at heq
      obtain ⟨id, name⟩ := r
      obtain ⟨id', name'⟩ := r'
      obtain ⟨hname, rfl⟩ := heq
      obtain rfl : name = name' := congrArg Reference.name hname
      obtain ⟨hfound, hsuper, hstrict⟩ := he
      obtain ⟨d, hd, -⟩ := hstrict trivial
      have hdepth : Γ.depth? name.lexeme = some (d + 1) := by rw [hsuper, hd]
      refine .inherited name method (hknows.left _ _ (hfound.trans (by rw [hdepth]))) ?_ ?_
      · exact hknows.right _ _ (he'.1.trans (by rw [h.depth?_of_some hdepth]))
      · rw [Scopes.plain, List.length_replicate]
        exact Scopes.lt_of_depth? hdepth
    | _ => simp only [Expr.unnumbered, reduceCtorEq] at heq
  | grouping e =>
    cases e' with
    | grouping e' =>
      simp only [Expr.unnumbered, Expr.grouping.injEq] at heq
      exact .grouping (Expr.alike_of_unnumbered hknows h heq he he' hbinds)
    | _ => simp only [Expr.unnumbered, reduceCtorEq] at heq
  | unary op operator e =>
    cases e' with
    | unary op' operator' e' =>
      simp only [Expr.unnumbered, Expr.unary.injEq] at heq
      obtain ⟨rfl, rfl, heq⟩ := heq
      exact .unary op operator (Expr.alike_of_unnumbered hknows h heq he.2 he'.2 hbinds)
    | _ => simp only [Expr.unnumbered, reduceCtorEq] at heq
  | binary op operator l r =>
    cases e' with
    | binary op' operator' l' r' =>
      simp only [Expr.unnumbered, Expr.binary.injEq] at heq
      obtain ⟨rfl, rfl, hl, hr⟩ := heq
      exact .binary op operator (Expr.alike_of_unnumbered hknows h hl he.2.1 he'.2.1 hbinds.left)
        (Expr.alike_of_unnumbered hknows h hr he.2.2 he'.2.2 hbinds.right)
    | _ => simp only [Expr.unnumbered, reduceCtorEq] at heq
  | logical op operator l r =>
    cases e' with
    | logical op' operator' l' r' =>
      simp only [Expr.unnumbered, Expr.logical.injEq] at heq
      obtain ⟨rfl, rfl, hl, hr⟩ := heq
      exact .logical op operator (Expr.alike_of_unnumbered hknows h hl he.2.1 he'.2.1 hbinds.left)
        (Expr.alike_of_unnumbered hknows h hr he.2.2 he'.2.2 hbinds.right)
    | _ => simp only [Expr.unnumbered, reduceCtorEq] at heq
  | assign r e =>
    cases e' with
    | assign r' e' =>
      simp only [Expr.unnumbered, Expr.assign.injEq] at heq
      exact .assign (hknows.refers h heq.1 he.1 he'.1 hbinds.head)
        (Expr.alike_of_unnumbered hknows h heq.2 he.2.2 he'.2.2 hbinds.tail)
    | _ => simp only [Expr.unnumbered, reduceCtorEq] at heq
  | get o name =>
    cases e' with
    | get o' name' =>
      simp only [Expr.unnumbered, Expr.get.injEq] at heq
      obtain ⟨ho, rfl⟩ := heq
      exact .get (Expr.alike_of_unnumbered hknows h ho he he' hbinds) name
    | _ => simp only [Expr.unnumbered, reduceCtorEq] at heq
  | set o name e =>
    cases e' with
    | set o' name' e' =>
      simp only [Expr.unnumbered, Expr.set.injEq] at heq
      obtain ⟨ho, rfl, heq⟩ := heq
      exact .set (Expr.alike_of_unnumbered hknows h ho he.1 he'.1 hbinds.left) name
        (Expr.alike_of_unnumbered hknows h heq he.2 he'.2 hbinds.right)
    | _ => simp only [Expr.unnumbered, reduceCtorEq] at heq
  | call c closing es =>
    cases e' with
    | call c' closing' es' =>
      simp only [Expr.unnumbered, Expr.call.injEq] at heq
      obtain ⟨hc, rfl, hes⟩ := heq
      exact .call (Expr.alike_of_unnumbered hknows h hc he.1 he'.1 hbinds.left) closing
        (Expr.areAlike_of_unnumbered hknows h hes he.2 he'.2 hbinds.right)
    | _ => simp only [Expr.unnumbered, reduceCtorEq] at heq

theorem Expr.areAlike_of_unnumbered (hknows : G.Knows known known') {Γ Γ' : Scopes}
    (h : G.Within Γ Γ') {es es' : List Expr}
    (heq : Expr.unnumberedAll es = Expr.unnumberedAll es') (hes : Expr.AreScoped known True Γ es)
    (hes' : Expr.AreScoped known' True Γ' es') (hbinds : G.Binds (Expr.variablesAll es')) :
    List.Forall₂ (Expr.Alike G Γ.plain) es es' := by
  cases es with
  | nil =>
    cases es' with
    | nil => exact .nil
    | cons e' es' => simp only [Expr.unnumberedAll, reduceCtorEq] at heq
  | cons e es =>
    cases es' with
    | nil => simp only [Expr.unnumberedAll, reduceCtorEq] at heq
    | cons e' es' =>
      simp only [Expr.unnumberedAll, List.cons.injEq] at heq
      exact .cons (Expr.alike_of_unnumbered hknows h heq.1 hes.1 hes'.1 hbinds.left)
        (Expr.areAlike_of_unnumbered hknows h heq.2 hes.2 hes'.2 hbinds.right)

end

theorem FunctionDecl.name_of_unnumbered {d d' : FunctionDecl} (heq : d.unnumbered = d'.unnumbered) :
    d'.name = d.name := by
  cases d
  cases d'
  exact (congrArg FunctionDecl.name heq).symm

mutual

/-- Statements that differ in their numbers, and perhaps in one more scope around. -/
theorem Stmt.alike_of_unnumbered (hknows : G.Knows known known') {Γ Γ' : Scopes}
    (h : G.Within Γ Γ') {context context' : FunctionContext} {s s' : Stmt}
    (heq : s.unnumbered = s'.unnumbered) (hs : s.Scoped known Γ context)
    (hs' : s'.Scoped known' Γ' context') (hbinds : G.Binds s'.variables) :
    s.Alike G Γ.plain s' := by
  cases s with
  | expression e =>
    cases s' with
    | expression e' =>
      simp only [Stmt.unnumbered, Stmt.expression.injEq] at heq
      exact .expression (Expr.alike_of_unnumbered hknows h heq hs hs' hbinds)
    | _ => simp only [Stmt.unnumbered, reduceCtorEq] at heq
  | print e =>
    cases s' with
    | print e' =>
      simp only [Stmt.unnumbered, Stmt.print.injEq] at heq
      exact .print (Expr.alike_of_unnumbered hknows h heq hs hs' hbinds)
    | _ => simp only [Stmt.unnumbered, reduceCtorEq] at heq
  | varDecl name initializer =>
    cases s' with
    | varDecl name' initializer' =>
      simp only [Stmt.unnumbered, Stmt.varDecl.injEq] at heq
      obtain ⟨rfl, heq⟩ := heq
      have hname : G.declared Γ.plain name = name := G.declared_plain Γ name
      cases initializer with
      | none =>
        cases initializer' with
        | none =>
          have halike := Stmt.Alike.varDecl (G := G) Γ.plain name
          rwa [hname] at halike
        | some e' => simp only [Option.map_none, Option.map_some, reduceCtorEq] at heq
      | some e =>
        cases initializer' with
        | none => simp only [Option.map_none, Option.map_some, reduceCtorEq] at heq
        | some e' =>
          simp only [Option.map_some, Option.some.injEq] at heq
          have he := Expr.alike_of_unnumbered hknows (h.mark name.lexeme false) heq
            (hs.2.2 e rfl) (hs'.2.2 e' rfl) hbinds
          rw [Scopes.plain_mark] at he
          have halike := Stmt.Alike.initialized name he
          rwa [hname] at halike
    | _ => simp only [Stmt.unnumbered, reduceCtorEq] at heq
  | funDecl d =>
    cases s' with
    | funDecl d' =>
      simp only [Stmt.unnumbered, Stmt.funDecl.injEq] at heq
      have hname := FunctionDecl.name_of_unnumbered heq
      have hscoped' := hs'.2.2
      rw [hname] at hscoped'
      have hd := FunctionDecl.alike_of_unnumbered hknows (h.introduce d.name) heq hs.2.2 hscoped'
        hbinds
      rw [Scopes.plain_introduce] at hd
      exact .funDecl (G.declared_plain Γ d.name) hd
    | _ => simp only [Stmt.unnumbered, reduceCtorEq] at heq
  | classDecl name superclass ds =>
    cases s' with
    | classDecl name' superclass' ds' =>
      simp only [Stmt.unnumbered, Stmt.classDecl.injEq] at heq
      obtain ⟨rfl, hsuper, hds⟩ := heq
      have hname : G.declared Γ.plain name = name := G.declared_plain Γ name
      cases superclass with
      | none =>
        cases superclass' with
        | none =>
          have hmethods := FunctionDecl.areAlike_of_unnumbered hknows ((h.introduce name).cons _) hds
            hs.2.2 hs'.2.2 hbinds
          simp only [Scopes.plain_cons, Scopes.plain_introduce] at hmethods
          exact .baseClass hname hmethods
        | some r' => simp only [Option.map_none, Option.map_some, reduceCtorEq] at hsuper
      | some r =>
        cases superclass' with
        | none => simp only [Option.map_none, Option.map_some, reduceCtorEq] at hsuper
        | some r' =>
          simp only [Option.map_some, Option.some.injEq] at hsuper
          obtain ⟨-, -, hr, hmethods⟩ := hs
          obtain ⟨-, -, hr', hmethods'⟩ := hs'
          have hrefers := hknows.refers (h.introduce name) hsuper hr.1 hr'.1 hbinds.left.head
          have hmethods := FunctionDecl.areAlike_of_unnumbered hknows
            (((h.introduce name).cons _).cons _) hds hmethods hmethods' hbinds.right
          simp only [Scopes.plain_cons, Scopes.plain_introduce] at hrefers hmethods
          exact .subclass hname hrefers hmethods
    | _ => simp only [Stmt.unnumbered, reduceCtorEq] at heq
  | block body =>
    cases s' with
    | block body' =>
      simp only [Stmt.unnumbered, Stmt.block.injEq] at heq
      exact .block (Stmt.areAlike_of_unnumbered hknows (h.cons .empty) heq hs hs' hbinds)
    | _ => simp only [Stmt.unnumbered, reduceCtorEq] at heq
  | branch condition yes no =>
    cases s' with
    | branch condition' yes' no' =>
      simp only [Stmt.unnumbered, Stmt.branch.injEq] at heq
      obtain ⟨hcondition, hyes, hno⟩ := heq
      have hc := Expr.alike_of_unnumbered hknows h hcondition hs.1 hs'.1 hbinds.left
      have hy := Stmt.alike_of_unnumbered hknows h hyes hs.2.1.1 hs'.2.1.1 hbinds.right.left
      cases Stmt.optionalAlike_of_unnumbered hknows h hno hs.2.2 hs'.2.2 hbinds.right.right with
      | none => exact .branch hc hy
      | some hn => exact .branchElse hc hy hn
    | _ => simp only [Stmt.unnumbered, reduceCtorEq] at heq
  | loop condition body =>
    cases s' with
    | loop condition' body' =>
      simp only [Stmt.unnumbered, Stmt.loop.injEq] at heq
      exact .loop (Expr.alike_of_unnumbered hknows h heq.1 hs.1 hs'.1 hbinds.left)
        (Stmt.alike_of_unnumbered hknows h heq.2 hs.2.1 hs'.2.1 hbinds.right)
    | _ => simp only [Stmt.unnumbered, reduceCtorEq] at heq
  | ret keyword value =>
    cases s' with
    | ret keyword' value' =>
      simp only [Stmt.unnumbered, Stmt.ret.injEq] at heq
      obtain ⟨rfl, heq⟩ := heq
      cases value with
      | none =>
        cases value' with
        | none => exact .ret Γ.plain keyword
        | some e' => simp only [Option.map_none, Option.map_some, reduceCtorEq] at heq
      | some e =>
        cases value' with
        | none => simp only [Option.map_none, Option.map_some, reduceCtorEq] at heq
        | some e' =>
          simp only [Option.map_some, Option.some.injEq] at heq
          exact .returned keyword (Expr.alike_of_unnumbered hknows h heq (hs.2 e rfl) (hs'.2 e' rfl)
            hbinds)
    | _ => simp only [Stmt.unnumbered, reduceCtorEq] at heq
termination_by structural s

theorem Stmt.areAlike_of_unnumbered (hknows : G.Knows known known') {Γ Γ' : Scopes}
    (h : G.Within Γ Γ') {context context' : FunctionContext} {ss ss' : List Stmt}
    (heq : Stmt.unnumberedAll ss = Stmt.unnumberedAll ss') (hss : Stmt.AreScoped known Γ context ss)
    (hss' : Stmt.AreScoped known' Γ' context' ss') (hbinds : G.Binds (Stmt.variablesAll ss')) :
    Stmt.AreAlike G Γ.plain ss ss' := by
  cases ss with
  | nil =>
    cases ss' with
    | nil => exact .nil _
    | cons s' ss' => simp only [Stmt.unnumberedAll, reduceCtorEq] at heq
  | cons s ss =>
    cases ss' with
    | nil => simp only [Stmt.unnumberedAll, reduceCtorEq] at heq
    | cons s' ss' =>
      simp only [Stmt.unnumberedAll, List.cons.injEq] at heq
      have hrest' := hss'.2
      rw [Stmt.after_congr heq.1] at hrest'
      have hrest := Stmt.areAlike_of_unnumbered hknows (h.after s) heq.2 hss.2 hrest' hbinds.right
      rw [Scopes.plain_after] at hrest
      exact .cons (Stmt.alike_of_unnumbered hknows h heq.1 hss.1 hss'.1 hbinds.left) hrest
termination_by structural ss

theorem Stmt.optionalAlike_of_unnumbered (hknows : G.Knows known known') {Γ Γ' : Scopes}
    (h : G.Within Γ Γ') {context context' : FunctionContext} {s s' : Option Stmt}
    (heq : Stmt.unnumberedOptional s = Stmt.unnumberedOptional s')
    (hs : Stmt.ScopedOptional known Γ context s) (hs' : Stmt.ScopedOptional known' Γ' context' s')
    (hbinds : G.Binds (Stmt.variablesOptional s')) :
    Option.Rel (Stmt.Alike G Γ.plain) s s' := by
  cases s with
  | none =>
    cases s' with
    | none => exact .none
    | some s' => simp only [Stmt.unnumberedOptional, reduceCtorEq] at heq
  | some s =>
    cases s' with
    | none => simp only [Stmt.unnumberedOptional, reduceCtorEq] at heq
    | some s' =>
      simp only [Stmt.unnumberedOptional, Option.some.injEq] at heq
      exact .some (Stmt.alike_of_unnumbered hknows h heq hs.1 hs'.1 hbinds)
termination_by structural s

/-- Functions that differ in their numbers, and perhaps in one more scope around. -/
theorem FunctionDecl.alike_of_unnumbered (hknows : G.Knows known known') {Γ Γ' : Scopes}
    (h : G.Within Γ Γ') {context context' : FunctionContext} {d d' : FunctionDecl}
    (heq : d.unnumbered = d'.unnumbered) (hd : d.Scoped known Γ context)
    (hd' : d'.Scoped known' Γ' context') (hbinds : G.Binds d'.variables) :
    d.Alike G Γ.plain d' := by
  obtain ⟨name, parameters, body⟩ := d
  obtain ⟨name', parameters', body'⟩ := d'
  simp only [FunctionDecl.unnumbered, FunctionDecl.mk.injEq] at heq
  obtain ⟨rfl, rfl, heq⟩ := heq
  have hbody := Stmt.areAlike_of_unnumbered hknows ((h.cons .empty).foldl_introduce parameters) heq
    hd.2.2 hd'.2.2 hbinds
  rw [Scopes.plain_foldl_introduce, Scopes.plain_cons] at hbody
  have halike := FunctionDecl.Alike.of name parameters hbody
  rwa [show parameters.map (G.token false) = parameters from List.map_id parameters] at halike
termination_by structural d

theorem FunctionDecl.areAlike_of_unnumbered (hknows : G.Knows known known') {Γ Γ' : Scopes}
    (h : G.Within Γ Γ') {ds ds' : List FunctionDecl}
    (heq : FunctionDecl.unnumberedAll ds = FunctionDecl.unnumberedAll ds')
    (hds : FunctionDecl.AreScoped known Γ ds) (hds' : FunctionDecl.AreScoped known' Γ' ds')
    (hbinds : G.Binds (FunctionDecl.variablesAll ds')) :
    FunctionDecl.AreAlike G Γ.plain ds ds' := by
  cases ds with
  | nil =>
    cases ds' with
    | nil => exact .nil _
    | cons d' ds' => simp only [FunctionDecl.unnumberedAll, reduceCtorEq] at heq
  | cons d ds =>
    cases ds' with
    | nil => simp only [FunctionDecl.unnumberedAll, reduceCtorEq] at heq
    | cons d' ds' =>
      simp only [FunctionDecl.unnumberedAll, List.cons.injEq] at heq
      exact .cons (FunctionDecl.alike_of_unnumbered hknows h heq.1 hds.1 hds'.1 hbinds.left)
        (FunctionDecl.areAlike_of_unnumbered hknows h heq.2 hds.2 hds'.2 hbinds.right)
termination_by structural ds

end

end

end Lox
