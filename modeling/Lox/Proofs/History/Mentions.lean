import Lox.Proofs.History.Holdings
import Lox.Proofs.Scoping.Scoped

/-!
# Where receivers are mentioned

A method mentions its receiver by `this` and by `super`, itself or in functions and
blocks inside it. Each mention is known to be as many scopes out as blocks and
functions are around it in the method, one more for the scope of the superclass. So
what a mention refers to depends on its place in the method alone.

## Implementation notes

The methods of a class that is declared inside a method have a receiver of their own, so
the mentions in them do not count. Depths are counted from the node at which one starts.
-/

namespace Lox

/-- A mention of the receiver or the superclass: the number of the reference, the number
of scopes that are opened on the way to it, and the word that it is. -/
structure Mention where
  id : NodeId
  depth : Nat
  word : Keyword

/-- How many scopes out a mention finds what it refers to, from a method. The scope of
the superclass is around that of the receiver. -/
def Mention.distance (r : Mention) : Nat :=
  match r.word with
  | .super => r.depth + 1
  | _ => r.depth

/-! ## Mentions of a node -/

mutual

/-- The mentions in an expression that stands so many scopes in. -/
def Expr.mentions (depth : Nat) : Expr → List Mention
  | .literal _ => []
  | .variable _ => []
  | .receiver target => [⟨target.id, depth, .this⟩]
  | .inherited target _ => [⟨target.id, depth, .super⟩]
  | .grouping inner => inner.mentions depth
  | .unary _ _ operand => operand.mentions depth
  | .binary _ _ left right => left.mentions depth ++ right.mentions depth
  | .logical _ _ left right => left.mentions depth ++ right.mentions depth
  | .assign _ value => value.mentions depth
  | .get object _ => object.mentions depth
  | .set object _ value => object.mentions depth ++ value.mentions depth
  | .call callee _ arguments => callee.mentions depth ++ Expr.mentionsAll depth arguments

/-- The mentions in expressions that stand so many scopes in. -/
def Expr.mentionsAll (depth : Nat) : List Expr → List Mention
  | [] => []
  | e :: es => e.mentions depth ++ Expr.mentionsAll depth es

end

/-- The mentions in an expression that may be left out. -/
def Expr.mentionsOptional (depth : Nat) : Option Expr → List Mention
  | none => []
  | some e => e.mentions depth

mutual

/-- The mentions in a statement that stands so many scopes in. -/
def Stmt.mentions (depth : Nat) : Stmt → List Mention
  | .expression value => value.mentions depth
  | .print value => value.mentions depth
  | .varDecl _ initializer => Expr.mentionsOptional depth initializer
  | .funDecl function => function.mentions depth
  | .classDecl _ _ _ => []
  | .block body => Stmt.mentionsAll (depth + 1) body
  | .branch condition yes no =>
      condition.mentions depth ++ yes.mentions depth ++ Stmt.mentionsOptional depth no
  | .loop condition body => condition.mentions depth ++ body.mentions depth
  | .ret _ value => Expr.mentionsOptional depth value

/-- The mentions in statements that stand so many scopes in. -/
def Stmt.mentionsAll (depth : Nat) : List Stmt → List Mention
  | [] => []
  | t :: ts => t.mentions depth ++ Stmt.mentionsAll depth ts

/-- The mentions in a statement after `else`. -/
def Stmt.mentionsOptional (depth : Nat) : Option Stmt → List Mention
  | none => []
  | some t => t.mentions depth

/-- The mentions in a function that stands so many scopes in. -/
def FunctionDecl.mentions (depth : Nat) : FunctionDecl → List Mention
  | ⟨_, _, body⟩ => Stmt.mentionsAll (depth + 1) body

end

/-- The mentions in a node that stands so many scopes in. -/
def Node.mentions (depth : Nat) : Node → List Mention
  | .expr e => e.mentions depth
  | .stmt t => t.mentions depth
  | .function d => d.mentions depth

section

variable {depth : Nat} {r : Mention}

theorem Expr.mem_mentionsAll {es : List Expr} :
    r ∈ Expr.mentionsAll depth es ↔ ∃ e ∈ es, r ∈ e.mentions depth := by
  induction es with
  | nil => simp [Expr.mentionsAll]
  | cons e es ih => simp [Expr.mentionsAll, ih]

theorem Stmt.mem_mentionsAll {ts : List Stmt} :
    r ∈ Stmt.mentionsAll depth ts ↔ ∃ t ∈ ts, r ∈ t.mentions depth := by
  induction ts with
  | nil => simp [Stmt.mentionsAll]
  | cons t ts ih => simp [Stmt.mentionsAll, ih]

theorem FunctionDecl.mentions_eq (d : FunctionDecl) :
    d.mentions depth = Stmt.mentionsAll (depth + 1) d.body := by
  cases d
  rw [FunctionDecl.mentions]

/-- What a part mentions, the node mentions. -/
theorem Node.mentions_part {node part : Node} (hpart : part ∈ node.parts) :
    part.mentions depth ⊆ node.mentions depth := by
  intro r hr
  cases node with
  | expr e =>
    cases e with
    | call callee closing arguments =>
      rcases List.mem_cons.mp hpart with rfl | hargument
      · exact List.mem_append_left _ hr
      · obtain ⟨e, he, rfl⟩ := List.mem_map.mp hargument
        exact List.mem_append_right _ (Expr.mem_mentionsAll.mpr ⟨e, he, hr⟩)
    | _ => grind [Node.parts, Node.mentions, Expr.mentions]
  | stmt t =>
    cases t with
    | varDecl name initializer | ret name initializer =>
      cases initializer <;>
        grind [Node.parts, Node.mentions, Stmt.mentions, Expr.mentionsOptional]
    | classDecl name superclass methods =>
      cases superclass <;> grind [Node.parts, Node.mentions, Stmt.mentions, Expr.mentions]
    | branch condition yes no =>
      cases no <;> grind [Node.parts, Node.mentions, Stmt.mentions, Stmt.mentionsOptional]
    | _ => grind [Node.parts, Node.mentions, Stmt.mentions]
  | function d => cases hpart

/-- What a statement of a block mentions, the block mentions. -/
theorem Stmt.mentions_block {t : Stmt} {body : List Stmt} (ht : t ∈ body) :
    t.mentions (depth + 1) ⊆ (Stmt.block body).mentions depth :=
  fun _ hr => Stmt.mem_mentionsAll.mpr ⟨t, ht, hr⟩

/-- What a statement of a body mentions, the function mentions. -/
theorem FunctionDecl.mentions_body {t : Stmt} {d : FunctionDecl} (ht : t ∈ d.body) :
    t.mentions (depth + 1) ⊆ d.mentions depth := by
  intro r hr
  rw [FunctionDecl.mentions_eq]
  exact Stmt.mem_mentionsAll.mpr ⟨t, ht, hr⟩

end

/-! ## Mentions in programs that are bound -/

namespace Scopes

variable {Γ Δ : Scopes} {n : Nat}

/-- Whether words of the language are so many scopes further out from the inner scopes
as they are from the outer ones. -/
def Above (Γ : Scopes) (n : Nat) (Δ : Scopes) : Prop :=
  ∀ word : Keyword, Γ.depth? word.text = (Δ.depth? word.text).map (· + n)

theorem Above.refl (Δ : Scopes) : Δ.Above 0 Δ := by
  intro word
  simp

theorem Above.opened (h : Γ.Above n Δ) : Above (.empty :: Γ) (n + 1) Δ := by
  intro word
  rw [depth?_empty_cons, h word, Option.map_map]
  rfl

theorem Above.mark {name : Token} (h : Γ.Above n Δ) (hname : name.IsName) (ready : Bool) :
    (Γ.mark name.lexeme ready).Above n Δ := by
  intro word
  rw [depth?_mark (hname word), h word]

theorem Above.introduce {name : Token} (h : Γ.Above n Δ) (hname : name.IsName) :
    (Γ.introduce name).Above n Δ :=
  (h.mark hname false).mark hname true

theorem Above.parameters {names : List Token} (h : Γ.Above n Δ) (hnames : ∀ name ∈ names, name.IsName) :
    (names.foldl Scopes.introduce Γ).Above n Δ := by
  induction names generalizing Γ with
  | nil => exact h
  | cons name names ih =>
    obtain ⟨hname, hnames⟩ := List.forall_mem_cons.mp hnames
    exact ih (h.introduce hname) hnames

end Scopes

section

variable {known : Known} {strict : Prop} {Δ : Scopes}

/-- Whether a mention is known to be so far out as it is from the outer scopes, counted
from where it stands. The scope of a superclass is right around that of the receiver. -/
structure Mention.Fits (known : Known) (strict : Prop) (Δ : Scopes) (r : Mention) : Prop where
  known : known r.id = some ((Δ.depth? r.word.text).map (· + r.depth))
  word : r.word = .this ∨ r.word = .super
  inherited : strict → r.word = .super →
    ∃ d, Δ.depth? Keyword.super.text = some (d + 1) ∧ Δ.depth? Keyword.this.text = some d

mutual

theorem Expr.Scoped.mentions {Γ : Scopes} {n : Nat} (hΓ : Γ.Above n Δ) :
    ∀ {e : Expr}, e.Scoped known strict Γ → ∀ r ∈ e.mentions n, r.Fits known strict Δ
  | .literal _, _ => by simp [Expr.mentions]
  | .variable _, _ => by simp [Expr.mentions]
  | .receiver target, ⟨hfound, hname, _⟩ => by
    rw [Reference.Found, hname, hΓ .this] at hfound
    exact List.forall_mem_singleton.mpr ⟨hfound, .inl rfl, fun _ hword => by cases hword⟩
  | .inherited target _, ⟨hfound, hname, h⟩ => by
    rw [Reference.Found, hname, hΓ .super] at hfound
    refine List.forall_mem_singleton.mpr ⟨hfound, .inr rfl, fun hstrict _ => ?_⟩
    obtain ⟨d, hsuper, hthis⟩ := h hstrict
    rw [hΓ] at hsuper hthis
    obtain ⟨i, hi, hin⟩ := Option.map_eq_some_iff.mp hsuper
    obtain ⟨j, hj, hjn⟩ := Option.map_eq_some_iff.mp hthis
    obtain rfl : i = j + 1 := by omega
    exact ⟨j, hi, hj⟩
  | .grouping e, h => Expr.Scoped.mentions hΓ (e := e) h
  | .unary _ _ e, ⟨_, h⟩ => Expr.Scoped.mentions hΓ (e := e) h
  | .binary _ _ _ _, ⟨_, hl, hr⟩ =>
      List.forall_mem_append.mpr ⟨Expr.Scoped.mentions hΓ hl, Expr.Scoped.mentions hΓ hr⟩
  | .logical _ _ _ _, ⟨_, hl, hr⟩ =>
      List.forall_mem_append.mpr ⟨Expr.Scoped.mentions hΓ hl, Expr.Scoped.mentions hΓ hr⟩
  | .assign _ e, ⟨_, _, h⟩ => Expr.Scoped.mentions hΓ (e := e) h
  | .get e _, h => Expr.Scoped.mentions hΓ (e := e) h
  | .set _ _ _, ⟨ho, hv⟩ =>
      List.forall_mem_append.mpr ⟨Expr.Scoped.mentions hΓ ho, Expr.Scoped.mentions hΓ hv⟩
  | .call _ _ _, ⟨hc, ha⟩ =>
      List.forall_mem_append.mpr ⟨Expr.Scoped.mentions hΓ hc, Expr.AreScoped.mentions hΓ ha⟩

theorem Expr.AreScoped.mentions {Γ : Scopes} {n : Nat} (hΓ : Γ.Above n Δ) :
    ∀ {es : List Expr}, Expr.AreScoped known strict Γ es →
      ∀ r ∈ Expr.mentionsAll n es, r.Fits known strict Δ
  | [], _ => by simp [Expr.mentionsAll]
  | _ :: _, ⟨he, hes⟩ =>
      List.forall_mem_append.mpr ⟨Expr.Scoped.mentions hΓ he, Expr.AreScoped.mentions hΓ hes⟩

end

theorem Expr.mentions_optional {Γ : Scopes} {n : Nat} (hΓ : Γ.Above n Δ) {e : Option Expr}
    (h : ∀ value ∈ e, value.Scoped known strict Γ) :
    ∀ r ∈ Expr.mentionsOptional n e, r.Fits known strict Δ := by
  cases e with
  | none => simp [Expr.mentionsOptional]
  | some e => exact (h e rfl).mentions hΓ

theorem Stmt.above_after {Γ : Scopes} {n : Nat} {context : FunctionContext} (hΓ : Γ.Above n Δ)
    {t : Stmt} (h : t.Scoped known Γ context) : (t.after Γ).Above n Δ := by
  cases t with
  | varDecl name _ => exact hΓ.introduce h.2.1
  | funDecl d => exact hΓ.introduce h.2.1
  | classDecl name superclass _ => cases superclass <;> exact hΓ.introduce h.2.1
  | _ => exact hΓ

mutual

theorem Stmt.Scoped.mentions {Γ : Scopes} {n : Nat} {context : FunctionContext}
    (hΓ : Γ.Above n Δ) :
    ∀ {t : Stmt}, t.Scoped known Γ context → ∀ r ∈ t.mentions n, r.Fits known True Δ
  | .expression _, h => Expr.Scoped.mentions hΓ h
  | .print _, h => Expr.Scoped.mentions hΓ h
  | .varDecl _ _, ⟨_, hname, h⟩ => Expr.mentions_optional (hΓ.mark hname false) h
  | .funDecl _, ⟨_, hname, h⟩ => FunctionDecl.Scoped.mentions (hΓ.introduce hname) h
  | .classDecl _ _ _, _ => by simp [Stmt.mentions]
  | .block _, h => Stmt.AreScoped.mentions hΓ.opened h
  | .branch _ _ _, ⟨hc, ⟨hyes, _⟩, hno⟩ =>
      List.forall_mem_append.mpr ⟨List.forall_mem_append.mpr
        ⟨Expr.Scoped.mentions hΓ hc, Stmt.Scoped.mentions hΓ hyes⟩,
        Stmt.ScopedOptional.mentions hΓ hno⟩
  | .loop _ _, ⟨hc, hbody, _⟩ =>
      List.forall_mem_append.mpr ⟨Expr.Scoped.mentions hΓ hc, Stmt.Scoped.mentions hΓ hbody⟩
  | .ret _ _, ⟨_, h⟩ => Expr.mentions_optional hΓ h

theorem Stmt.AreScoped.mentions {Γ : Scopes} {n : Nat} {context : FunctionContext}
    (hΓ : Γ.Above n Δ) :
    ∀ {ts : List Stmt}, Stmt.AreScoped known Γ context ts →
      ∀ r ∈ Stmt.mentionsAll n ts, r.Fits known True Δ
  | [], _ => by simp [Stmt.mentionsAll]
  | _ :: _, ⟨ht, hts⟩ =>
      List.forall_mem_append.mpr ⟨Stmt.Scoped.mentions hΓ ht,
        Stmt.AreScoped.mentions (Stmt.above_after hΓ ht) hts⟩

theorem Stmt.ScopedOptional.mentions {Γ : Scopes} {n : Nat} {context : FunctionContext}
    (hΓ : Γ.Above n Δ) :
    ∀ {t : Option Stmt}, Stmt.ScopedOptional known Γ context t →
      ∀ r ∈ Stmt.mentionsOptional n t, r.Fits known True Δ
  | none, _ => by simp [Stmt.mentionsOptional]
  | some _, ⟨ht, _⟩ => Stmt.Scoped.mentions hΓ ht

theorem FunctionDecl.Scoped.mentions {Γ : Scopes} {n : Nat} {context : FunctionContext}
    (hΓ : Γ.Above n Δ) :
    ∀ {d : FunctionDecl}, d.Scoped known Γ context → ∀ r ∈ d.mentions n, r.Fits known True Δ
  | ⟨_, _, _⟩, ⟨_, hnames, hbody⟩ =>
      Stmt.AreScoped.mentions (hΓ.opened.parameters hnames) hbody

end

end

/-! ## Mentions in methods -/

/-- From a method a mention is known to be as far out as it says. Around the receiver of
a method that mentions a superclass is the scope of the superclass. -/
theorem Mention.Fits.of_method {known : Known} {Γ : Scopes} {r : Mention}
    (h : r.Fits known True (Γ.given .this)) :
    known r.id = some (some r.distance) ∧
      (r.word = .super → Γ.depth? Keyword.super.text = some 0) := by
  obtain ⟨id, depth, word⟩ := r
  have hthis : (Γ.given .this).depth? Keyword.this.text = some 0 := by
    rw [Scopes.depth?_given, if_pos rfl]
  obtain rfl | rfl := h.word
  · refine ⟨?_, fun hword => by cases hword⟩
    rw [h.known, hthis, Option.map_some, Nat.zero_add]
    rfl
  · obtain ⟨d, hsuper, hd⟩ := h.inherited trivial rfl
    obtain rfl : 0 = d := Option.some.inj (hthis.symm.trans hd)
    refine ⟨?_, fun _ => ?_⟩
    · rw [h.known, hsuper, Option.map_some, Nat.zero_add, Nat.add_comm]
      rfl
    · rw [Scopes.depth?_given, if_neg (by decide)] at hsuper
      obtain ⟨i, hi, hi1⟩ := Option.map_eq_some_iff.mp hsuper
      rw [hi, Nat.succ.inj hi1]

theorem FunctionDecl.AreScoped.of_mem {known : Known} {Γ : Scopes} {d : FunctionDecl}
    {ds : List FunctionDecl} (h : FunctionDecl.AreScoped known Γ ds) (hd : d ∈ ds) :
    d.Scoped known Γ (.ofMethod d.name) := by
  induction ds with
  | nil => cases hd
  | cons e es ih =>
    rcases List.mem_cons.mp hd with rfl | hd
    · exact h.1
    · exact ih h.2 hd

/-- Outside of all scopes a mention is known to refer to nothing. -/
theorem Mention.Fits.of_nil {known : Known} {strict : Prop} {r : Mention}
    (h : r.Fits known strict []) : known r.id = some none :=
  h.known

end Lox
