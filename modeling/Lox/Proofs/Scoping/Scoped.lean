import Lox.Proofs.Scoping.Spelling
import Lox.Scoping

/-!
# Well-scoped programs

What it means that a piece of program fits the scopes around it: each reference
is known to be as many scopes out as the innermost scope is that declares its
name, no scope declares a name twice, and `this`, `super` and `return` stand only
where they have a meaning.

## Implementation notes

The scopes are those of the walk, innermost first. What is known of references is
a partial function, so that a program stays well-scoped when more becomes known.
An expression outside of all scopes may be one that was never bound; in `strict`
programs, which were, `this` and `super` are always found.
-/

namespace Lox

/-! ## Scopes -/

/-- The open scopes, each saying of its names whether they are ready to be read;
the innermost scope comes first. -/
abbrev Scopes := List (NameMap Bool)

namespace Scopes

/-- How many scopes out a name is declared. -/
def depth? (Γ : Scopes) (name : String) : Option Nat :=
  Γ.findIdx? (·.contains name)

/-- Give a name of the innermost scope, if there is one, a readiness. -/
def mark (Γ : Scopes) (name : String) (ready : Bool) : Scopes :=
  match Γ with
  | [] => []
  | scope :: outer => scope.insert name ready :: outer

/-- Declare a name that is ready at once. -/
def introduce (Γ : Scopes) (name : Token) : Scopes :=
  (Γ.mark name.lexeme false).mark name.lexeme true

/-- Open a scope that holds one name given by the language. -/
def given (Γ : Scopes) (name : Keyword) : Scopes :=
  NameMap.empty.insert name.text true :: Γ

/-- Whether the innermost scope does not declare a name. -/
def IsNew (Γ : Scopes) (name : Token) : Prop :=
  ∀ scope ∈ Γ.head?, scope.contains name.lexeme = false

/-- Whether the innermost scope has declared a name that is not ready. -/
def IsUnready (Γ : Scopes) (name : String) : Prop :=
  ∃ scope ∈ Γ.head?, scope.get? name = some false

/-- Whether names are declared one after the other, each for the first time. -/
def AreNew (Γ : Scopes) : List Token → Prop
  | [] => True
  | name :: names => Γ.IsNew name ∧ (Γ.introduce name).AreNew names

/-! ### Declaring and finding -/

variable {Γ : Scopes} {name other : String}

theorem depth?_cons (scope : NameMap Bool) :
    depth? (scope :: Γ) name =
      if scope.contains name then some 0 else (Γ.depth? name).map (· + 1) :=
  List.findIdx?_cons

@[simp] theorem depth?_empty_cons :
    depth? (.empty :: Γ) name = (Γ.depth? name).map (· + 1) := by
  rw [depth?_cons, if_neg (by simp [NameMap.contains])]

theorem contains_insert (m : NameMap Bool) (ready : Bool) :
    (m.insert name ready).contains other = (name == other || m.contains other) := by
  rw [NameMap.contains, NameMap.get?_insert, NameMap.contains]
  by_cases h : name = other <;> simp [h]

theorem depth?_given (k : Keyword) :
    (Γ.given k).depth? name =
      if k.text = name then some 0 else (Γ.depth? name).map (· + 1) := by
  rw [given, depth?_cons, contains_insert]
  simp [NameMap.contains]

theorem depth?_mark (h : name ≠ other) (ready : Bool) :
    (Γ.mark name ready).depth? other = Γ.depth? other := by
  cases Γ with
  | nil => rfl
  | cons scope outer => simp [mark, depth?_cons, contains_insert, h]

@[simp] theorem tail_mark (ready : Bool) : (Γ.mark name ready).tail = Γ.tail := by
  cases Γ <;> rfl

@[simp] theorem tail_introduce (name : Token) : (Γ.introduce name).tail = Γ.tail := by
  rw [introduce, tail_mark, tail_mark]

@[simp] theorem tail_foldl_introduce (names : List Token) :
    (names.foldl introduce Γ).tail = Γ.tail := by
  induction names generalizing Γ with
  | nil => rfl
  | cons name names ih => rw [List.foldl_cons, ih, tail_introduce]

end Scopes

/-- What is known about references: how many scopes out each is, or that no scope
declares its name. -/
abbrev Known := NodeId → Option (Option Nat)

/-- Whether no less is known later on. -/
def Known.Grows (known known' : Known) : Prop :=
  ∀ id d, known id = some d → known' id = some d

/-- Whether a reference is known to be where the scopes have its name. -/
def Reference.Found (known : Known) (Γ : Scopes) (r : Reference) : Prop :=
  known r.id = some (Γ.depth? r.name.lexeme)

/-! ## Programs -/

section

variable (known : Known)

mutual

/-- Whether an expression fits the scopes around it. -/
def Expr.Scoped (strict : Prop) (Γ : Scopes) : Expr → Prop
  | .literal _ => True
  | .variable target => target.Found known Γ ∧ target.name.IsName ∧ ¬Γ.IsUnready target.name.lexeme
  | .receiver target =>
      target.Found known Γ ∧ target.name.lexeme = Keyword.this.text ∧
        (strict → ∃ d, Γ.depth? Keyword.this.text = some d)
  | .inherited target _ =>
      target.Found known Γ ∧ target.name.lexeme = Keyword.super.text ∧
        (strict → ∃ d, Γ.depth? Keyword.super.text = some (d + 1) ∧
          Γ.depth? Keyword.this.text = some d)
  | .grouping inner => inner.Scoped strict Γ
  | .unary op operator operand => UnaryOp.Operator operator.kind op ∧ operand.Scoped strict Γ
  | .binary op operator left right =>
      (∃ t : Tier, t.Operator operator.kind (.binary op)) ∧ left.Scoped strict Γ ∧ right.Scoped strict Γ
  | .logical op operator left right =>
      (∃ t : Tier, t.Operator operator.kind (.logical op)) ∧ left.Scoped strict Γ ∧ right.Scoped strict Γ
  | .assign target value => target.Found known Γ ∧ target.name.IsName ∧ value.Scoped strict Γ
  | .get object _ => object.Scoped strict Γ
  | .set object _ value => object.Scoped strict Γ ∧ value.Scoped strict Γ
  | .call callee _ arguments => callee.Scoped strict Γ ∧ Expr.AreScoped strict Γ arguments

/-- Whether expressions fit the scopes around them. -/
def Expr.AreScoped (strict : Prop) (Γ : Scopes) : List Expr → Prop
  | [] => True
  | e :: es => e.Scoped strict Γ ∧ Expr.AreScoped strict Γ es

end

/-- The scopes after a statement, which may have declared a name. -/
def Stmt.after (Γ : Scopes) : Stmt → Scopes
  | .varDecl name _ => Γ.introduce name
  | .funDecl function => Γ.introduce function.name
  | .classDecl name _ _ => Γ.introduce name
  | _ => Γ

theorem Stmt.after_of_isPlain {s : Stmt} (h : s.IsPlain) (Γ : Scopes) : s.after Γ = Γ := by
  cases s <;> first | rfl | cases h

@[simp] theorem Stmt.tail_after (Γ : Scopes) (s : Stmt) : (s.after Γ).tail = Γ.tail := by
  cases s <;> simp [Stmt.after]

@[simp] theorem Stmt.tail_foldl_after (Γ : Scopes) (ss : List Stmt) :
    (ss.foldl Stmt.after Γ).tail = Γ.tail := by
  induction ss generalizing Γ with
  | nil => rfl
  | cons s ss ih => rw [List.foldl_cons, ih, Stmt.tail_after]

mutual

/-- Whether a statement fits the scopes and the function around it. -/
def Stmt.Scoped (Γ : Scopes) (context : FunctionContext) : Stmt → Prop
  | .expression value => value.Scoped known True Γ
  | .print value => value.Scoped known True Γ
  | .varDecl name initializer =>
      Γ.IsNew name ∧ name.IsName ∧
        ∀ e ∈ initializer, e.Scoped known True (Γ.mark name.lexeme false)
  | .funDecl function =>
      Γ.IsNew function.name ∧ function.name.IsName ∧
        function.Scoped (Γ.introduce function.name) .function
  | .classDecl name none methods =>
      Γ.IsNew name ∧ name.IsName ∧
        FunctionDecl.AreScoped ((Γ.introduce name).given .this) methods
  | .classDecl name (some superclass) methods =>
      Γ.IsNew name ∧ name.IsName ∧
        (Expr.variable superclass).Scoped known True (Γ.introduce name) ∧
        FunctionDecl.AreScoped (((Γ.introduce name).given .super).given .this) methods
  | .block body => Stmt.AreScoped (.empty :: Γ) context body
  | .branch condition yes no =>
      condition.Scoped known True Γ ∧ (yes.Scoped Γ context ∧ yes.IsPlain) ∧
        Stmt.ScopedOptional Γ context no
  | .loop condition body =>
      condition.Scoped known True Γ ∧ body.Scoped Γ context ∧ body.IsPlain
  | .ret _ value => context ≠ .none ∧ ∀ e ∈ value, e.Scoped known True Γ

/-- Whether statements in order fit the scopes and the function around them. -/
def Stmt.AreScoped (Γ : Scopes) (context : FunctionContext) : List Stmt → Prop
  | [] => True
  | s :: ss => s.Scoped Γ context ∧ Stmt.AreScoped (s.after Γ) context ss

/-- Whether a statement after `else` fits the scopes and the function around it. -/
def Stmt.ScopedOptional (Γ : Scopes) (context : FunctionContext) : Option Stmt → Prop
  | none => True
  | some s => s.Scoped Γ context ∧ s.IsPlain

/-- Whether a function fits the scopes around it. -/
def FunctionDecl.Scoped (Γ : Scopes) (context : FunctionContext) : FunctionDecl → Prop
  | ⟨_, parameters, body⟩ =>
      Scopes.AreNew (.empty :: Γ) parameters ∧ (∀ p ∈ parameters, p.IsName) ∧
        Stmt.AreScoped (parameters.foldl Scopes.introduce (.empty :: Γ)) context body

/-- Whether methods fit the scopes around them. -/
def FunctionDecl.AreScoped (Γ : Scopes) : List FunctionDecl → Prop
  | [] => True
  | d :: ds => d.Scoped Γ (.ofMethod d.name) ∧ FunctionDecl.AreScoped Γ ds

end

end

/-- The body of a function fits a scope of its parameters. -/
theorem FunctionDecl.Scoped.body {known : Known} {Γ : Scopes} {context : FunctionContext}
    {d : FunctionDecl} (h : d.Scoped known Γ context) :
    Scopes.AreNew (.empty :: Γ) d.parameters ∧ (∀ p ∈ d.parameters, p.IsName) ∧
      Stmt.AreScoped known (d.parameters.foldl Scopes.introduce (.empty :: Γ)) context d.body := by
  cases d
  exact h

/-! ## Knowing more -/

section

variable {known known' : Known} {strict strict' : Prop}

mutual

theorem Expr.Scoped.mono (hknown : known.Grows known')
    (hstrict : strict' → strict) {Γ : Scopes} :
    ∀ {e : Expr}, e.Scoped known strict Γ → e.Scoped known' strict' Γ
  | .literal _, h => h
  | .variable _, ⟨hfound, h⟩ => ⟨hknown _ _ hfound, h⟩
  | .receiver _, ⟨hfound, hname, h⟩ => ⟨hknown _ _ hfound, hname, h ∘ hstrict⟩
  | .inherited _ _, ⟨hfound, hname, h⟩ => ⟨hknown _ _ hfound, hname, h ∘ hstrict⟩
  | .grouping e, h => Expr.Scoped.mono hknown hstrict (e := e) h
  | .unary _ _ _, ⟨hop, h⟩ => ⟨hop, Expr.Scoped.mono hknown hstrict h⟩
  | .binary _ _ _ _, ⟨hop, hl, hr⟩ =>
      ⟨hop, Expr.Scoped.mono hknown hstrict hl, Expr.Scoped.mono hknown hstrict hr⟩
  | .logical _ _ _ _, ⟨hop, hl, hr⟩ =>
      ⟨hop, Expr.Scoped.mono hknown hstrict hl, Expr.Scoped.mono hknown hstrict hr⟩
  | .assign _ _, ⟨hfound, hname, h⟩ =>
      ⟨hknown _ _ hfound, hname, Expr.Scoped.mono hknown hstrict h⟩
  | .get e _, h => Expr.Scoped.mono hknown hstrict (e := e) h
  | .set _ _ _, ⟨ho, hv⟩ =>
      ⟨Expr.Scoped.mono hknown hstrict ho, Expr.Scoped.mono hknown hstrict hv⟩
  | .call _ _ _, ⟨hc, ha⟩ =>
      ⟨Expr.Scoped.mono hknown hstrict hc, Expr.AreScoped.mono hknown hstrict ha⟩

theorem Expr.AreScoped.mono (hknown : known.Grows known')
    (hstrict : strict' → strict) {Γ : Scopes} :
    ∀ {es : List Expr}, Expr.AreScoped known strict Γ es → Expr.AreScoped known' strict' Γ es
  | [], h => h
  | _ :: _, ⟨he, hes⟩ => ⟨Expr.Scoped.mono hknown hstrict he, Expr.AreScoped.mono hknown hstrict hes⟩

end

mutual

theorem Stmt.Scoped.mono (hknown : known.Grows known') {Γ : Scopes}
    {context : FunctionContext} :
    ∀ {s : Stmt}, s.Scoped known Γ context → s.Scoped known' Γ context
  | .expression _, h => Expr.Scoped.mono hknown id h
  | .print _, h => Expr.Scoped.mono hknown id h
  | .varDecl _ _, ⟨hnew, hname, h⟩ =>
      ⟨hnew, hname, fun e he => Expr.Scoped.mono hknown id (h e he)⟩
  | .funDecl _, ⟨hnew, hname, h⟩ => ⟨hnew, hname, FunctionDecl.Scoped.mono hknown h⟩
  | .classDecl _ none _, ⟨hnew, hname, h⟩ => ⟨hnew, hname, FunctionDecl.AreScoped.mono hknown h⟩
  | .classDecl _ (some _) _, ⟨hnew, hname, hsuper, h⟩ =>
      ⟨hnew, hname, Expr.Scoped.mono hknown id hsuper, FunctionDecl.AreScoped.mono hknown h⟩
  | .block _, h => Stmt.AreScoped.mono hknown h
  | .branch _ _ _, ⟨hc, ⟨hyes, hplain⟩, hno⟩ =>
      ⟨Expr.Scoped.mono hknown id hc, ⟨Stmt.Scoped.mono hknown hyes, hplain⟩,
        Stmt.ScopedOptional.mono hknown hno⟩
  | .loop _ _, ⟨hc, hbody, hplain⟩ =>
      ⟨Expr.Scoped.mono hknown id hc, Stmt.Scoped.mono hknown hbody, hplain⟩
  | .ret _ _, ⟨hcontext, h⟩ => ⟨hcontext, fun e he => Expr.Scoped.mono hknown id (h e he)⟩

theorem Stmt.AreScoped.mono (hknown : known.Grows known')
    {Γ : Scopes} {context : FunctionContext} :
    ∀ {ss : List Stmt}, Stmt.AreScoped known Γ context ss → Stmt.AreScoped known' Γ context ss
  | [], h => h
  | _ :: _, ⟨hs, hss⟩ => ⟨Stmt.Scoped.mono hknown hs, Stmt.AreScoped.mono hknown hss⟩

theorem Stmt.ScopedOptional.mono (hknown : known.Grows known')
    {Γ : Scopes} {context : FunctionContext} :
    ∀ {s : Option Stmt}, Stmt.ScopedOptional known Γ context s →
      Stmt.ScopedOptional known' Γ context s
  | none, h => h
  | some _, ⟨hs, hplain⟩ => ⟨Stmt.Scoped.mono hknown hs, hplain⟩

theorem FunctionDecl.Scoped.mono (hknown : known.Grows known')
    {Γ : Scopes} {context : FunctionContext} :
    ∀ {d : FunctionDecl}, d.Scoped known Γ context → d.Scoped known' Γ context
  | ⟨_, _, _⟩, ⟨hnew, hnames, hbody⟩ => ⟨hnew, hnames, Stmt.AreScoped.mono hknown hbody⟩

theorem FunctionDecl.AreScoped.mono (hknown : known.Grows known')
    {Γ : Scopes} :
    ∀ {ds : List FunctionDecl}, FunctionDecl.AreScoped known Γ ds →
      FunctionDecl.AreScoped known' Γ ds
  | [], h => h
  | _ :: _, ⟨hd, hds⟩ => ⟨FunctionDecl.Scoped.mono hknown hd, FunctionDecl.AreScoped.mono hknown hds⟩

end

end

end Lox
