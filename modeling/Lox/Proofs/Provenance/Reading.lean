import Lox.Proofs.Incremental.MovedReading
import Lox.Proofs.Syntax.ReadExpressions
import Lox.Proofs.Provenance.Trees

/-!
# Reading takes tokens from the list

Whatever a parser makes of its tokens, be it a tree, a report or an error, it makes of
these tokens alone: if all tokens in front of a parser fulfil a predicate, then so do those
of the tree and those that are blamed. The token after the last one is never blamed, as
there is an end among the tokens that no parser passes.
-/

namespace Lox

/-- Whether all tokens that are left or that were blamed fulfil a predicate, and there is an
end among those that are left. -/
structure Cursor.Draws (P : Token → Prop) (c : Cursor) : Prop where
  rest : ∀ t ∈ c.rest, P t
  ends : c.Ends
  errors : ∀ e ∈ c.errors, P e.token

namespace Cursor.Draws

variable {P : Token → Prop} {c : Cursor}

theorem peek (h : c.Draws P) : P c.peek := by
  obtain ⟨t, ht, -⟩ := h.ends
  obtain ⟨first, rest, hrest⟩ := List.exists_cons_of_ne_nil (List.ne_nil_of_mem ht)
  rw [Cursor.peek, hrest]
  exact h.rest first (hrest ▸ List.mem_cons_self)

theorem report (h : c.Draws P) {error : SyntaxError} (he : P error.token) :
    (c.report error).Draws P where
  rest := h.rest
  ends := h.ends
  errors := List.forall_mem_append.mpr ⟨h.errors, List.forall_mem_singleton.mpr he⟩

end Cursor.Draws

namespace Parser

variable {α β : Type} {P : Token → Prop} {V W : α → Prop} {R : β → Prop}

/-- Whether a parser draws on its tokens: what it makes of them fulfils a condition, and it
blames none but them, whether it succeeds or fails. -/
def Draws (P : Token → Prop) (p : Parser α) (V : α → Prop) : Prop :=
  ∀ c : Cursor, c.Draws P → match p c with
    | .ok a c' => c'.Draws P ∧ V a
    | .error e c' => c'.Draws P ∧ P e.token

namespace Draws

theorem pure {a : α} (h : V a) : Draws P (Pure.pure a) V :=
  fun _ hc => ⟨hc, h⟩

/-- Nothing is of no tokens. -/
theorem pure_none : Draws P (Pure.pure none) fun o : Option α => ∀ a ∈ o, V a :=
  pure (by simp)

theorem bind {p : Parser α} {f : α → Parser β} (hp : Draws P p V)
    (hf : ∀ a, V a → Draws P (f a) R) : Draws P (p >>= f) R := by
  intro c hc
  have h := hp c hc
  cases hpc : p c with
  | ok a c' =>
    rw [hpc] at h
    simpa only [Bind.bind, EStateM.bind, hpc] using hf a h.2 c' h.1
  | error e c' =>
    rw [hpc] at h
    simpa only [Bind.bind, EStateM.bind, hpc] using h

theorem map {p : Parser α} {g : α → β} (h : Draws P p fun a => R (g a)) : Draws P (g <$> p) R :=
  bind h fun _ ha => pure ha

theorem mono {p : Parser α} (h : Draws P p V) (hVW : ∀ a, V a → W a) : Draws P p W := by
  intro c hc
  have hp := h c hc
  cases hpc : p c with
  | ok a c' =>
    rw [hpc] at hp
    exact ⟨hp.1, hVW a hp.2⟩
  | error e c' =>
    rw [hpc] at hp
    exact hp

/-- To try one parser and go on in another way if it reads nothing. -/
theorem attempt {p : Parser (Option α)} {k : Option α → Parser β}
    (hp : Draws P p fun o => ∀ a ∈ o, V a) (hsome : ∀ a, V a → Draws P (k (some a)) R)
    (hnone : Draws P (k none) R) : Draws P (p >>= k) R :=
  bind hp fun o ho => match o with
    | some a => hsome a (ho a rfl)
    | none => hnone

theorem ite {b : Prop} [Decidable b] {p q : Parser α} (hp : Draws P p V) (hq : Draws P q V) :
    Draws P (if b then p else q) V := by
  by_cases h : b
  · rwa [if_pos h]
  · rwa [if_neg h]

end Draws

theorem refuse_draws (cause : SyntaxCause) : Draws P (refuse cause : Parser α) V :=
  fun _ hc => ⟨hc, hc.peek⟩

theorem report_draws {error : SyntaxError} (h : P error.token) :
    Draws P (report error) fun _ => True :=
  fun _ hc => ⟨hc.report h, trivial⟩

theorem peek_draws : Draws P peek P :=
  fun _ hc => ⟨hc, hc.peek⟩

theorem atEnd_draws : Draws P atEnd fun _ => True :=
  fun _ hc => ⟨hc, trivial⟩

theorem nextIs_draws (s : Symbol) : Draws P (nextIs s) fun _ => True :=
  fun _ hc => ⟨hc, trivial⟩

/-- The next token may be reported before reading goes on. -/
theorem Draws.reportIf {b : Prop} [Decidable b] {cause : SyntaxCause} {p : Parser α}
    (h : Draws P p V) :
    Draws P (if b then peek >>= fun t => report ⟨cause, t⟩ >>= fun _ => p else p) V :=
  .ite (.bind peek_draws fun _ ht => .bind (report_draws ht) fun _ _ => h) h

theorem accept?_draws (recognise : TokenKind → Option α) :
    Draws P (accept? recognise) fun o => ∀ r ∈ o, recognise r.2.kind = some r.1 ∧ P r.2 := by
  intro c hc
  obtain h | ⟨a, t, ts, hrest, hend, hrecognised, h⟩ := accept?_cases recognise c
  · rw [h]
    exact ⟨hc, fun r hr => nomatch hr⟩
  · rw [h]
    have hts : ∀ u ∈ t :: ts, P u := hrest ▸ hc.rest
    refine ⟨⟨fun u hu => hts u (List.mem_cons_of_mem t hu), hc.ends.tail hrest hend, hc.errors⟩,
      fun r hr => ?_⟩
    obtain rfl := Option.mem_some.mp hr
    exact ⟨hrecognised, hts t List.mem_cons_self⟩

theorem accept_draws (test : TokenKind → Bool) :
    Draws P (accept test) fun o => ∀ t ∈ o, test t.kind = true ∧ P t := by
  refine .bind (accept?_draws _) fun o ho => .pure fun t ht => ?_
  obtain ⟨r, hr, rfl⟩ := Option.map_eq_some_iff.mp ht
  exact ⟨by simpa using (ho r hr).1, (ho r hr).2⟩

theorem symbol_draws (s : Symbol) : Draws P (symbol s) fun o => ∀ t ∈ o, P t :=
  (accept_draws _).mono fun _ ho t ht => (ho t ht).2

theorem keyword_draws (k : Keyword) : Draws P (keyword k) fun o => ∀ t ∈ o, P t :=
  (accept_draws _).mono fun _ ho t ht => (ho t ht).2

theorem expect_draws (test : TokenKind → Bool) (cause : SyntaxCause) :
    Draws P (expect test cause) fun t => test t.kind = true ∧ P t :=
  .attempt (accept_draws test) (fun _ ht => .pure ht) (refuse_draws cause)

theorem expectSymbol_draws (s : Symbol) (place : SymbolPlace) : Draws P (expectSymbol s place) P :=
  (expect_draws _ _).mono fun _ h => h.2

theorem expectName_draws (role : NameRole) : Draws P (expectName role) (Token.IsNameOf P) :=
  (expect_draws _ _).mono fun _ h => ⟨h.2, TokenKind.isIdentifier_iff.mp h.1⟩

theorem reference_draws (name : Token) : Draws P (reference name) fun r => r.name = name :=
  fun _ hc => ⟨⟨hc.rest, hc.ends, hc.errors⟩, rfl⟩

theorem nested_draws {p : Parser α} (h : Draws P p V) : Draws P (nested p) V := by
  intro c hc
  by_cases hdepth : maxNesting ≤ c.depth
  · rw [nested, if_pos hdepth]
    exact ⟨hc, hc.peek⟩
  · have hp := h { c with depth := c.depth + 1 } ⟨hc.rest, hc.ends, hc.errors⟩
    rw [nested, if_neg hdepth]
    cases hpc : p { c with depth := c.depth + 1 } with
    | ok a c' =>
      rw [hpc] at hp
      exact ⟨⟨hp.1.rest, hp.1.ends, hp.1.errors⟩, hp.2⟩
    | error e c' =>
      rw [hpc] at hp
      exact ⟨⟨hp.1.rest, hp.1.ends, hp.1.errors⟩, hp.2⟩

theorem recovering_draws {p : Parser Stmt} {V : Stmt → Prop} (h : Draws P p V) :
    Draws P (recovering p) fun o => ∀ s ∈ o, V s := by
  intro c hc
  have hp := h c hc
  unfold recovering
  cases hpc : p c with
  | ok s c' =>
    rw [hpc] at hp
    exact ⟨hp.1, fun t ht => Option.mem_some.mp ht ▸ hp.2⟩
  | error e c' =>
    rw [hpc] at hp
    obtain ⟨hc', he⟩ := hp
    exact ⟨⟨fun t ht => hc'.rest t ((resume_suffix _).mem ht), resume_ends hc'.ends,
      (hc'.report he).errors⟩, fun t ht => nomatch ht⟩

end Parser

end Lox
