import Lox.Syntax.Parser

/-!
# What parsers do to their cursor

A parser `Meets` a condition if, whenever it succeeds without reporting an
error, the cursors before and after and the value between them satisfy it.
Whether it succeeds or not, the cursor only moves forward: tokens are taken from
the front, numbers and reports are added, and the depth is put back.

## Implementation notes

The condition of `p >>= f` is pushed into `f`, which then has to meet it for
every cursor that `p` can have started from. A run of binds thus ends in one
goal that has all intermediate facts as hypotheses. A report makes the condition
void, so nothing has to be shown of the branches that report.
-/

namespace Lox

namespace TokenKind

theorem isSymbol_iff (s : Symbol) {k : TokenKind} : k.isSymbol s = true ↔ k = .symbol s := by
  cases k <;> simp [isSymbol]

theorem isKeyword_iff (w : Keyword) {k : TokenKind} : k.isKeyword w = true ↔ k = .keyword w := by
  cases k <;> simp [isKeyword]

theorem isIdentifier_iff {k : TokenKind} : k.isIdentifier = true ↔ k = .identifier := by
  cases k <;> simp [isIdentifier]

end TokenKind

/-- What every parser keeps of its cursor. -/
structure Cursor.Before (c c' : Cursor) : Prop where
  rest : c'.rest <:+ c.rest
  nextId : @LE.le Nat _ c.nextId c'.nextId
  depth : c'.depth = c.depth
  errors : c.errors <+: c'.errors

/-- Going from one cursor to the other takes one token and nothing else. -/
structure Cursor.Took (c : Cursor) (t : Token) (c' : Cursor) : Prop where
  rest : c.rest = t :: c'.rest
  nextId : @Eq Nat c'.nextId c.nextId

namespace Cursor.Before

variable {c c' c'' : Cursor}

theorem refl (c : Cursor) : c.Before c :=
  ⟨List.suffix_refl _, Nat.le_refl _, rfl, List.prefix_refl _⟩

theorem trans (h : c.Before c') (h' : c'.Before c'') : c.Before c'' :=
  ⟨h'.rest.trans h.rest, Nat.le_trans h.nextId h'.nextId, h'.depth.trans h.depth,
    h.errors.trans h'.errors⟩

/-- If the second of two stretches ends without a new error, so did the first. -/
theorem errors_eq_of_trans (h : c.Before c') (h' : c'.Before c'') (he : c''.errors = c.errors) :
    c'.errors = c.errors ∧ c''.errors = c'.errors := by
  have hc : c'.errors = c.errors := by
    have hl := h'.errors.length_le
    rw [he] at hl
    exact (h.errors.eq_of_length_le hl).symm
  exact ⟨hc, he.trans hc.symm⟩

end Cursor.Before

namespace Parser

variable {α β : Type}

/-- Whether a parser moves forward, and meets a condition unless it fails or
reports. -/
def Meets (p : Parser α) (Q : Cursor → α → Cursor → Prop) : Prop :=
  ∀ c, match p c with
    | .ok a c' => c.Before c' ∧ (c'.errors = c.errors → Q c a c')
    | .error _ c' => c.Before c'

namespace Meets

variable {p : Parser α} {f : α → Parser β} {P Q : Cursor → α → Cursor → Prop}
  {R : Cursor → β → Cursor → Prop}

theorem weaken (h : p.Meets P) (hQ : ∀ c a c', c.Before c' → P c a c' → Q c a c') :
    p.Meets Q := by
  intro c
  have hc := h c
  cases hp : p c with
  | ok a c' =>
      rw [hp] at hc
      exact ⟨hc.1, fun he => hQ c a c' hc.1 (hc.2 he)⟩
  | error e c' =>
      rw [hp] at hc
      exact hc

theorem pure (a : α) (h : ∀ c, Q c a c) : Meets (Pure.pure a : Parser α) Q :=
  fun c => ⟨.refl c, fun _ => h c⟩

theorem bind (h : p.Meets P)
    (hf : ∀ a, (f a).Meets fun c' b c'' => ∀ c, c.Before c' → P c a c' → R c b c'') :
    (p >>= f).Meets R := by
  intro c
  have hc := h c
  cases hp : p c with
  | error e c' =>
      rw [hp] at hc
      simpa only [Bind.bind, EStateM.bind, hp] using hc
  | ok a c' =>
      rw [hp] at hc
      have ha := hf a c'
      cases hfa : f a c' with
      | error e c'' =>
          rw [hfa] at ha
          simpa only [Bind.bind, EStateM.bind, hp, hfa] using hc.1.trans ha
      | ok b c'' =>
          rw [hfa] at ha
          simp only [Bind.bind, EStateM.bind, hp, hfa]
          refine ⟨hc.1.trans ha.1, fun he => ?_⟩
          obtain ⟨he, he'⟩ := hc.1.errors_eq_of_trans ha.1 he
          exact ha.2 he' c hc.1 (hc.2 he)

/-- What is passed on without a step of reading. -/
theorem pure_bind {a : α} (h : (f a).Meets R) : ((Pure.pure a : Parser α) >>= f).Meets R :=
  h

theorem map {g : α → β} (h : p.Meets P) :
    (g <$> p).Meets fun c b c' => ∃ a, b = g a ∧ P c a c' := by
  intro c
  have hc := h c
  cases hp : p c with
  | ok a c' =>
      rw [hp] at hc
      simp only [Functor.map, EStateM.map, hp]
      exact ⟨hc.1, fun he => ⟨a, rfl, hc.2 he⟩⟩
  | error e c' =>
      rw [hp] at hc
      simpa only [Functor.map, EStateM.map, hp] using hc

/-- The condition may also speak of the parser's own result. -/
theorem result (h : p.Meets P) : p.Meets fun c a c' => P c a c' ∧ p c = .ok a c' := by
  intro c
  have hc := h c
  cases hp : p c with
  | ok a c' =>
      rw [hp] at hc
      exact ⟨hc.1, fun he => ⟨hc.2 he, hp⟩⟩
  | error e c' =>
      rw [hp] at hc
      exact hc

theorem ite {b : Prop} [Decidable b] {p q : Parser α} (hp : b → p.Meets Q)
    (hq : ¬b → q.Meets Q) : (if b then p else q).Meets Q := by
  by_cases h : b
  · rw [if_pos h]
    exact hp h
  · rw [if_neg h]
    exact hq h

end Meets

/-! ## Reports and failures -/

theorem refuse_meets (cause : SyntaxCause) (Q : Cursor → α → Cursor → Prop) :
    (refuse cause : Parser α).Meets Q :=
  fun c => .refl c

theorem report_meets (error : SyntaxError) : (report error).Meets fun _ _ _ => False := by
  intro c
  refine ⟨⟨List.suffix_refl _, Nat.le_refl _, rfl, List.prefix_append _ _⟩, fun he => ?_⟩
  simp [Cursor.report] at he

theorem skipToBoundary_suffix (previous : Token) (ts : List Token) :
    skipToBoundary previous ts <:+ ts := by
  induction ts generalizing previous with
  | nil => exact List.suffix_refl _
  | cons t ts ih =>
      simp only [skipToBoundary]
      split
      · exact List.suffix_refl _
      · exact (ih t).trans (List.suffix_cons t ts)

theorem resume_suffix (ts : List Token) : resume ts <:+ ts := by
  cases ts with
  | nil => exact List.suffix_refl _
  | cons t ts =>
      simp only [resume]
      split
      · exact List.suffix_refl _
      · exact (skipToBoundary_suffix t ts).trans (List.suffix_cons t ts)

/-- An offending token is dropped unless it is an end. -/
theorem length_resume_lt {t : Token} {ts : List Token} (h : t.isEnd = false) :
    (resume (t :: ts)).length < (t :: ts).length := by
  rw [resume, if_neg (by simp [h])]
  exact Nat.lt_succ_of_le (skipToBoundary_suffix t ts).length_le

/-- Recovering from an error reports it. -/
theorem recovering_meets {p : Parser Stmt} {Q : Cursor → Stmt → Cursor → Prop} (h : p.Meets Q) :
    (recovering p).Meets fun c s c' => ∃ t, s = some t ∧ Q c t c' := by
  intro c
  have hc := h c
  cases hp : p c with
  | ok a c' =>
      rw [hp] at hc
      simp only [recovering, hp]
      exact ⟨hc.1, fun he => ⟨a, rfl, hc.2 he⟩⟩
  | error e c' =>
      rw [hp] at hc
      simp only [recovering, hp, Cursor.report]
      refine ⟨⟨(resume_suffix _).trans hc.rest, hc.nextId, hc.depth,
        hc.errors.trans (List.prefix_append _ _)⟩, fun he => ?_⟩
      have hl := hc.errors.length_le
      rw [← he, List.length_append, List.length_singleton] at hl
      omega

/-! ## Single tokens -/

/-- What is known of a parser that either reads something or stays where it is. -/
def OrStays (P : Cursor → α → Cursor → Prop) (c : Cursor) (o : Option α) (c' : Cursor) : Prop :=
  match o with
  | some a => P c a c'
  | none => c' = c

/-- To try one parser and go on in another way if it reads nothing. -/
theorem Meets.attempt {p : Parser (Option α)} {k : Option α → Parser β}
    {P : Cursor → α → Cursor → Prop} {R : Cursor → β → Cursor → Prop} (h : p.Meets (OrStays P))
    (hnone : (k none).Meets R)
    (hsome : ∀ a, (k (some a)).Meets fun c' b c'' => ∀ c, c.Before c' → P c a c' → R c b c'') :
    (p >>= k).Meets R := by
  refine .bind h fun o => ?_
  cases o with
  | some a => exact hsome a
  | none => exact hnone.weaken fun c' b c'' _ hr c _ (hc : c' = c) => hc ▸ hr

theorem accept?_cases (recognise : TokenKind → Option α) (c : Cursor) :
    accept? recognise c = .ok none c ∨
      ∃ a t ts, c.rest = t :: ts ∧ t.isEnd = false ∧ recognise t.kind = some a ∧
        accept? recognise c = .ok (some (a, t)) { c with rest := ts } := by
  unfold accept?
  cases hrest : c.rest with
  | nil => exact .inl rfl
  | cons t ts =>
    cases hend : t.isEnd with
    | true => simp [hend]
    | false =>
      cases hr : recognise t.kind with
      | none => simp [hend, hr]
      | some a => exact .inr ⟨a, t, ts, rfl, hend, hr, by simp [hend, hr]⟩

theorem accept?_meets (recognise : TokenKind → Option α) :
    (accept? recognise).Meets
      (OrStays fun c r c' => recognise r.2.kind = some r.1 ∧ c.Took r.2 c') := by
  intro c
  unfold accept?
  cases hr : c.rest with
  | nil => exact ⟨.refl c, fun _ => rfl⟩
  | cons t ts =>
      by_cases h : t.isEnd = true
      · simp only [h, if_true]
        exact ⟨.refl c, fun _ => rfl⟩
      · simp only [h]
        cases hk : recognise t.kind with
        | none => exact ⟨.refl c, fun _ => rfl⟩
        | some a =>
            exact ⟨⟨hr ▸ List.suffix_cons t ts, Nat.le_refl _, rfl, List.prefix_refl _⟩,
              fun _ => ⟨hk, hr, rfl⟩⟩

theorem accept_meets (test : TokenKind → Bool) :
    (accept test).Meets (OrStays fun c t c' => test t.kind = true ∧ c.Took t c') := by
  refine .bind (accept?_meets _) fun read => .pure _ fun _ _ _ h => ?_
  cases read with
  | none => exact h
  | some read => exact ⟨by simpa using h.1, h.2⟩

theorem symbol_meets (s : Symbol) :
    (symbol s).Meets (OrStays fun c t c' => t.kind = .symbol s ∧ c.Took t c') := by
  apply (accept_meets _).weaken
  intro c o c' _ h
  cases o with
  | none => exact h
  | some t => exact ⟨(TokenKind.isSymbol_iff s).mp h.1, h.2⟩

theorem keyword_meets (k : Keyword) :
    (keyword k).Meets (OrStays fun c t c' => t.kind = .keyword k ∧ c.Took t c') := by
  apply (accept_meets _).weaken
  intro c o c' _ h
  cases o with
  | none => exact h
  | some t => exact ⟨(TokenKind.isKeyword_iff k).mp h.1, h.2⟩

/-- A keyword that is not read is not there. -/
theorem keyword_absent (k : Keyword) {c c' : Cursor} (h : keyword k c = .ok none c') :
    ∀ t ∈ c.rest.head?, t.kind ≠ .keyword k := by
  intro t ht hk
  obtain ⟨ts, hr⟩ : ∃ ts, c.rest = t :: ts := by
    cases hc : c.rest with
    | nil => simp [hc] at ht
    | cons u us => simp_all
  have hend : t.isEnd = false := by simp [Token.isEnd, hk]
  have hkind : t.kind.isKeyword k = true := (TokenKind.isKeyword_iff k).mpr hk
  simp [keyword, accept, accept?, Bind.bind, EStateM.bind, Pure.pure, EStateM.pure, hr, hend,
    hkind] at h

theorem expect_meets (test : TokenKind → Bool) (cause : SyntaxCause) :
    (expect test cause).Meets fun c t c' => test t.kind = true ∧ c.Took t c' :=
  .attempt (accept_meets _) (refuse_meets _ _) fun t => .pure t fun _ _ _ h => h

theorem expectSymbol_meets (s : Symbol) (place : SymbolPlace) :
    (expectSymbol s place).Meets fun c t c' => t.kind = .symbol s ∧ c.Took t c' :=
  (expect_meets _ _).weaken fun _ _ _ _ h => ⟨(TokenKind.isSymbol_iff s).mp h.1, h.2⟩

theorem expectName_meets (role : NameRole) :
    (expectName role).Meets fun c t c' => t.kind = .identifier ∧ c.Took t c' :=
  (expect_meets _ _).weaken fun _ _ _ _ h => ⟨TokenKind.isIdentifier_iff.mp h.1, h.2⟩

theorem peek_meets : peek.Meets fun c _ c' => c' = c :=
  fun c => ⟨.refl c, fun _ => rfl⟩

theorem atEnd_meets : atEnd.Meets fun c _ c' => c' = c :=
  fun c => ⟨.refl c, fun _ => rfl⟩

theorem nextIs_meets (s : Symbol) : (nextIs s).Meets fun c _ c' => c' = c :=
  fun c => ⟨.refl c, fun _ => rfl⟩

theorem reference_meets (name : Token) :
    (reference name).Meets fun c r c' =>
      r = ⟨c.nextId, name⟩ ∧ c'.rest = c.rest ∧ @Eq Nat c'.nextId (c.nextId + 1) :=
  fun _ => ⟨⟨List.suffix_refl _, Nat.le_succ _, rfl, List.prefix_refl _⟩,
    fun _ => ⟨rfl, rfl, rfl⟩⟩

/-! ## Nesting -/

/-- A nested parser starts with less room and ends with as much as before. -/
theorem nested_meets {p : Parser α} {Q : Cursor → α → Cursor → Prop} (h : p.Meets Q) :
    (nested p).Meets fun c a c' =>
      c.depth < maxNesting ∧
        Q { c with depth := c.depth + 1 } a { c' with depth := c.depth + 1 } := by
  intro c
  by_cases hd : maxNesting ≤ c.depth
  · simp only [nested, hd, if_true]
    exact .refl c
  · have hc := h { c with depth := c.depth + 1 }
    cases hp : p { c with depth := c.depth + 1 } with
    | error e c' =>
        rw [hp] at hc
        simp only [nested, hd, if_false, hp]
        exact ⟨hc.rest, hc.nextId, by simp [hc.depth], hc.errors⟩
    | ok a c' =>
        rw [hp] at hc
        simp only [nested, hd, if_false, hp]
        obtain ⟨hb, hq⟩ := hc
        refine ⟨⟨hb.rest, hb.nextId, by simp [hb.depth], hb.errors⟩,
          fun he => ⟨Nat.lt_of_not_le hd, ?_⟩⟩
        have hc' : { c' with depth := c.depth + 1 } = c' := by
          rw [← show c'.depth = c.depth + 1 from hb.depth]
        rw [hc']
        exact hq he

/-! ## Fuel -/

/-- The calls between an operand of a tier and the next token. -/
def operandCost : Tier → Nat
  | .factor => 3
  | .term => 5
  | .comparison => 7
  | .equality => 9
  | .conjunction => 11
  | .disjunction => 13

theorem operandCost_of_operand? {t inner : Tier} (h : t.operand? = some inner) :
    operandCost t = operandCost inner + 1 + 1 := by
  cases t <;> cases h <;> rfl

theorem operandCost_of_operand?_none {t : Tier} (h : t.operand? = none) :
    operandCost t = 2 + 1 := by
  cases t <;> cases h
  rfl

theorem operandCost_pos (t : Tier) : 0 < operandCost t := by
  cases t <;> decide

theorem operandCost_le (t : Tier) : operandCost t ≤ 20 := by
  cases t <;> decide

end Parser

end Lox
