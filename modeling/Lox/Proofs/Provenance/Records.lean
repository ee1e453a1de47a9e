import Lox.Proofs.Recursion.Termination

/-!
# What is recorded stays recorded

Some rules of the grammar report an error and read on, and a declaration that does not
parse is reported and skipped. No routine takes a report back, so whatever is recorded
when a routine starts or stops is still recorded when everything has been read. A parser
that records nothing in the end has therefore recorded nothing on the way.
-/

namespace Lox

/-- Whether a routine starts or stops at a cursor in the course of some calls, or of calls
inside them. -/
inductive Passes : List Call → Cursor → Prop
  | start {calls r start finish inner} : .of r start finish inner ∈ calls → Passes calls start
  | finish {calls r start finish inner} : .of r start finish inner ∈ calls → Passes calls finish
  | inner {calls r start finish inner c} : .of r start finish inner ∈ calls → Passes inner c →
      Passes calls c

namespace Passes

variable {calls others inner : List Call} {c : Cursor}

theorem of_append (h : Passes (calls ++ others) c) : Passes calls c ∨ Passes others c := by
  cases h with
  | start hmem => exact (List.mem_append.mp hmem).imp .start .start
  | finish hmem => exact (List.mem_append.mp hmem).imp .finish .finish
  | inner hmem hc => exact (List.mem_append.mp hmem).imp (.inner · hc) (.inner · hc)

theorem of_call {r : Routine} {start finish : Cursor} (h : Passes [.of r start finish inner] c) :
    c = start ∨ c = finish ∨ Passes inner c := by
  cases h with
  | start hmem =>
    cases List.mem_singleton.mp hmem
    exact .inl rfl
  | finish hmem =>
    cases List.mem_singleton.mp hmem
    exact .inr (.inl rfl)
  | inner hmem hc =>
    cases List.mem_singleton.mp hmem
    exact .inr (.inr hc)

theorem not_nil : ¬ Passes [] c := by
  rintro (hmem | hmem | ⟨hmem, -⟩) <;> cases hmem

theorem not_cut : ¬ Passes [.cut] c := by
  rintro (hmem | hmem | ⟨hmem, -⟩) <;> cases List.mem_singleton.mp hmem

end Passes

namespace Traced

variable {α β : Type} {p : Traced α} {c : Cursor}

/-- Whether a parser that starts at a cursor keeps what is recorded there, and what is
recorded at any moment of its calls. -/
structure KeepsAt (p : Traced α) (c : Cursor) : Prop where
  whole : c.errors <+: (p.parser.finish c).errors
  passes : ∀ d, Passes (p.calls c) d → c.errors <+: d.errors ∧
    d.errors <+: (p.parser.finish c).errors

/-- Whether a parser keeps what is recorded, from wherever it starts. -/
def Keeps (p : Traced α) : Prop :=
  ∀ c, p.KeepsAt c

/-- A parser with the calls of another one, and the errors that this records. -/
theorem KeepsAt.of_eq {q : Traced β} {c' : Cursor} (h : p.KeepsAt c)
    (herrors : c'.errors = c.errors) (hcalls : q.calls c' = p.calls c)
    (hfinish : (q.parser.finish c').errors = (p.parser.finish c).errors) : q.KeepsAt c' := by
  constructor
  · rw [herrors, hfinish]
    exact h.whole
  · rw [herrors, hcalls, hfinish]
    exact h.passes

namespace Keeps

/-- A parser without calls keeps what it started with. -/
theorem lift {q : Parser α} {Q : Cursor → α → Cursor → Prop} (h : q.Meets Q) :
    (lift q).Keeps := by
  refine fun c => ⟨?_, fun d hd => absurd hd Passes.not_nil⟩
  have hc := h c
  change c.errors <+: (q.finish c).errors
  unfold Parser.finish
  cases hq : q c with
  | ok a d =>
    rw [hq] at hc
    exact hc.1.errors
  | error e d =>
    rw [hq] at hc
    exact hc.errors

theorem pure (a : α) : Keeps (Pure.pure a : Traced α) :=
  lift (Parser.Meets.pure (Q := fun _ _ _ => True) a fun _ => trivial)

theorem refuse (cause : SyntaxCause) : Keeps (Traced.lift (Parser.refuse cause : Parser α)) :=
  lift (Parser.refuse_meets cause fun _ _ _ => True)

theorem cut : Keeps (cut : Traced α) := fun _ =>
  ⟨List.prefix_refl _, fun _ hd => absurd hd Passes.not_cut⟩

theorem bind {f : α → Traced β} (hp : p.Keeps) (hf : ∀ a, (f a).Keeps) : (p >>= f).Keeps := by
  intro c
  cases hpc : p.parser c with
  | error e d =>
    have hfinish : (p >>= f).parser.finish c = p.parser.finish c := by
      simp only [Parser.finish, Bind.bind, EStateM.bind, hpc]
    have hcalls : (p >>= f).calls c = p.calls c := by
      simp only [Bind.bind, hpc, List.append_nil]
    exact (hp c).of_eq rfl hcalls (congrArg Cursor.errors hfinish)
  | ok a d =>
    have hfinish : (p >>= f).parser.finish c = (f a).parser.finish d := by
      simp only [Parser.finish, Bind.bind, EStateM.bind, hpc]
    have hcalls : (p >>= f).calls c = p.calls c ++ (f a).calls d := by
      simp only [Bind.bind, hpc]
    obtain ⟨hwhole, hpasses⟩ := hp c
    rw [Parser.finish_of_ok hpc] at hwhole hpasses
    obtain ⟨hafter, hpassesAfter⟩ := hf a d
    refine ⟨hfinish ▸ hwhole.trans hafter, fun d' hd' => ?_⟩
    rw [hfinish]
    obtain hd' | hd' := Passes.of_append (hcalls ▸ hd')
    · exact ⟨(hpasses d' hd').1, (hpasses d' hd').2.trans hafter⟩
    · exact ⟨hwhole.trans (hpassesAfter d' hd').1, (hpassesAfter d' hd').2⟩

/-- To try to take a token and go on in two ways. -/
theorem attempt {q : Parser (Option α)} {Q : Cursor → Option α → Cursor → Prop}
    {f : Option α → Traced β} (hq : q.Meets Q) (hsome : ∀ a, (f (some a)).Keeps)
    (hnone : (f none).Keeps) : (Traced.lift q >>= f).Keeps :=
  bind (lift hq) fun o => match o with
    | some a => hsome a
    | none => hnone

theorem map {g : α → β} (h : p.Keeps) : (g <$> p).Keeps := by
  intro c
  have hfinish : (g <$> p).parser.finish c = p.parser.finish c := by
    simp only [Parser.finish, Functor.map, EStateM.map]
    cases p.parser c <;> rfl
  exact (h c).of_eq rfl rfl (congrArg Cursor.errors hfinish)

theorem ite {b : Prop} [Decidable b] {q : Traced α} (hp : p.Keeps) (hq : q.Keeps) :
    (if b then p else q).Keeps := by
  by_cases h : b
  · rwa [if_pos h]
  · rwa [if_neg h]

/-- The call of a routine starts and stops where its body does. -/
theorem during (r : Routine) (h : p.Keeps) : (during r p).Keeps := by
  intro c
  obtain ⟨hwhole, hpasses⟩ := h c
  refine ⟨hwhole, fun d hd => ?_⟩
  obtain rfl | rfl | hd := Passes.of_call hd
  · exact ⟨List.prefix_refl _, hwhole⟩
  · exact ⟨hwhole, List.prefix_refl _⟩
  · exact hpasses d hd

theorem nested (h : p.Keeps) : (nested p).Keeps := by
  intro c
  by_cases hdepth : Parser.maxNesting ≤ c.depth
  · have hfinish : (Traced.nested p).parser.finish c = c := by
      simp only [Traced.nested, Parser.finish, Parser.nested, if_pos hdepth]
    have hcalls : (Traced.nested p).calls c = [] := if_pos hdepth
    constructor
    · exact hfinish.symm ▸ List.prefix_refl _
    · exact fun d hd => absurd (hcalls ▸ hd) Passes.not_nil
  · have hfinish : ((Traced.nested p).parser.finish c).errors =
        (p.parser.finish { c with depth := c.depth + 1 }).errors := by
      simp only [Traced.nested, Parser.finish, Parser.nested, if_neg hdepth]
      cases p.parser { c with depth := c.depth + 1 } <;> rfl
    have hcalls : (Traced.nested p).calls c = p.calls { c with depth := c.depth + 1 } :=
      if_neg hdepth
    exact (h { c with depth := c.depth + 1 }).of_eq rfl hcalls hfinish

/-- The error from which a declaration recovers comes after all that was recorded. -/
theorem recovering {p : Traced Stmt} (h : p.Keeps) : (recovering p).Keeps := by
  intro c
  obtain ⟨hwhole, hpasses⟩ := h c
  have hfinish : (p.parser.finish c).errors <+: ((Traced.recovering p).parser.finish c).errors := by
    simp only [Traced.recovering, Parser.finish, Parser.recovering]
    cases p.parser c with
    | ok s d => exact List.prefix_refl _
    | error e d => exact List.prefix_append _ _
  exact ⟨hwhole.trans hfinish, fun d hd => ⟨(hpasses d hd).1, (hpasses d hd).2.trans hfinish⟩⟩

theorem expectSymbol (s : Symbol) (place : SymbolPlace) : (expectSymbol s place).Keeps :=
  lift (Parser.expectSymbol_meets s place)

theorem expectName (role : NameRole) : (expectName role).Keeps :=
  lift (Parser.expectName_meets role)

theorem nextIs (s : Symbol) : (nextIs s).Keeps :=
  lift (Parser.nextIs_meets s)

theorem atEnd : (Traced.lift Parser.atEnd).Keeps :=
  lift Parser.atEnd_meets

theorem reference (name : Token) : (Traced.lift (Parser.reference name)).Keeps :=
  lift (Parser.reference_meets name)

theorem report (error : SyntaxError) : (Traced.lift (Parser.report error)).Keeps :=
  lift (Parser.report_meets error)

/-- The next token may be reported before reading goes on. -/
theorem reportIf {b : Prop} [Decidable b] {error : Token → SyntaxError} (h : p.Keeps) :
    (if b then Traced.lift Parser.peek >>= fun t =>
      Traced.lift (Parser.report (error t)) >>= fun _ => p else p).Keeps :=
  ite (bind (lift Parser.peek_meets) fun t => bind (report (error t)) fun _ => h) h

end Keeps

/-! ## Expressions -/

variable {fuel : Nat}

end Traced

end Lox
