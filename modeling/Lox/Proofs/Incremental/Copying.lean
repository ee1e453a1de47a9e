import Lox.Proofs.Syntax.Accepting

/-!
# What a parser does in front of other tokens

A parser that succeeds without a report does the same in front of any tokens that
it cannot tell from those that were there, with the same numbers. It may have more
fuel then.

## Implementation notes

Of the tokens after those that it takes, a parser sees the kind of the first at
most. Which kinds it takes for each other is a relation that every parser has for
itself: some have to see the same kind, but an expression stops at a semicolon as it
does at the end, and a statement that is complete looks for an `else` and nothing
more. When a parser takes another token after a part of its
work is done, the part has seen that token and what is behind does not matter, so
the number of tokens that are surely taken is kept as well.
-/

namespace Lox

/-- What a parser looks for in the token after those that it takes. -/
inductive Glance where
  /-- The kind of the token. -/
  | kind
  /-- The kind of the token, but a semicolon is as good as the end. -/
  | stop
  /-- Whether the token is an `else`. -/
  | else

/-- Whether a kind passes for another at a glance. -/
def Glance.Passes : Glance → TokenKind → TokenKind → Prop
  | kind, k, k' => k = k'
  | stop, k, k' => k = k' ∨ k = .endOfInput ∧ k' = .symbol .semicolon
  | .else, k, k' => k ≠ .keyword .else → k' ≠ .keyword .else

namespace Glance

theorem Passes.refl (g : Glance) (k : TokenKind) : g.Passes k k := by
  cases g with
  | kind => exact Eq.refl k
  | stop => exact .inl rfl
  | «else» => exact id

/-- One glance sees no more than another. -/
instance : LE Glance where
  le g g' := ∀ k k', g'.Passes k k' → g.Passes k k'

theorem le_refl (g : Glance) : g ≤ g :=
  fun _ _ h => h

theorem le_kind (g : Glance) : g ≤ kind :=
  fun k _ (h : k = _) => h ▸ .refl g k

end Glance

namespace Parser

variable {α β : Type}

/-- Whether one parser copies another that succeeds without a report and takes `m`
tokens or more: it takes the same tokens in front of all rests whose first kind
passes for the one that was there. -/
def Copies (m : Nat) (p q : Parser α) (g : Glance) : Prop :=
  p.Meets fun c a c' => ∃ w, c.rest = w ++ c'.rest ∧ m ≤ w.length ∧
    ∀ rest errors, g.Passes (next c'.rest) (next rest) →
      q ⟨w ++ rest, c.nextId, c.depth, errors⟩ = .ok a ⟨rest, c'.nextId, c.depth, errors⟩

namespace Copies

variable {m n : Nat} {p q : Parser α} {f f' : α → Parser β} {g g' : Glance}

theorem pure (a : α) : Copies 0 (Pure.pure a : Parser α) (Pure.pure a) g :=
  Meets.pure a fun _ => ⟨[], rfl, Nat.le_refl 0, fun _ _ _ => rfl⟩

theorem weaken (h : Copies m p q g) (hm : n ≤ m) : Copies n p q g := by
  refine Meets.weaken h fun c a c' _ hc => ?_
  obtain ⟨w, hw, hlen, hcopy⟩ := hc
  exact ⟨w, hw, Nat.le_trans hm hlen, hcopy⟩

/-- It need not be known how many tokens are taken. -/
theorem any (h : Copies m p q g) : Copies 0 p q g :=
  h.weaken (Nat.zero_le m)

/-- More may be seen than is looked for. -/
theorem sees (h : Copies m p q g) : Copies m p q .kind := by
  refine Meets.weaken h fun c a c' _ hc => ?_
  obtain ⟨w, hw, hlen, hcopy⟩ := hc
  exact ⟨w, hw, hlen, fun rest errors hnext => hcopy rest errors (g.le_kind _ _ hnext)⟩

/-- What is passed on without a step of reading. -/
theorem pureAnd {a : α} (h : Copies m (f a) (f' a) g) :
    Copies m ((Pure.pure a : Parser α) >>= f) ((Pure.pure a : Parser α) >>= f') g :=
  h

/-- A part of a parser sees what the other part takes, or else what it sees. -/
theorem bind (h : Copies m p q g) (hf : ∀ a, Copies n (f a) (f' a) g') (hg : n = 0 → g ≤ g') :
    Copies (m + n) (p >>= f) (q >>= f') g' := by
  refine Meets.bind h fun a => Meets.weaken (hf a) fun c' b c'' _ hb c hbefore ha => ?_
  obtain ⟨w, hw, hlen, hcopy⟩ := ha
  obtain ⟨w', hw', hlen', hcopy'⟩ := hb
  refine ⟨w ++ w', by rw [hw, hw', List.append_assoc], ?_, fun rest errors hnext => ?_⟩
  · rw [List.length_append]
    exact Nat.add_le_add hlen hlen'
  · have hsees : g.Passes (next c'.rest) (next (w' ++ rest)) := by
      rw [hw']
      cases w' with
      | nil => exact hg (Nat.le_zero.mp hlen') _ _ hnext
      | cons t ts => exact .refl g _
    rw [hbefore.depth] at hcopy'
    simp only [Bind.bind, EStateM.bind, List.append_assoc, hcopy _ errors hsees,
      hcopy' rest errors hnext]

theorem map {r : α → β} (h : Copies m p q g) : Copies m (r <$> p) (r <$> q) g := by
  refine Meets.weaken (Meets.map h) fun c b c' _ hb => ?_
  obtain ⟨a, rfl, w, hw, hlen, hcopy⟩ := hb
  refine ⟨w, hw, hlen, fun rest errors hnext => ?_⟩
  simp only [Functor.map, EStateM.map, hcopy rest errors hnext]

theorem ite {b : Prop} [Decidable b] {p' q' : Parser α} (hp : b → Copies m p q g)
    (hq : ¬b → Copies m p' q' g) :
    Copies m (if b then p else p') (if b then q else q') g := by
  by_cases h : b
  · simpa only [if_pos h] using hp h
  · simpa only [if_neg h] using hq h

/-- What comes after a report need not be copied. -/
theorem reportIf {b : Prop} [Decidable b] (error : Token → SyntaxError) (h : Copies m p q g) :
    Copies m (if b then peek >>= fun t => report (error t) >>= fun _ => p else p)
      (if b then peek >>= fun t => report (error t) >>= fun _ => q else q) g := by
  refine .ite (fun _ => ?_) fun _ => h
  exact Meets.bind peek_meets fun _ => Meets.bind (report_meets _) fun _ =>
    Meets.weaken h fun _ _ _ _ _ _ _ hfalse => hfalse.elim

/-- What sees as much of the next token may come after anything. -/
theorem andThen (h : Copies m p q g) (hf : ∀ a, Copies 0 (f a) (f' a) g) :
    Copies 0 (p >>= f) (q >>= f') g :=
  .weaken (.bind h hf fun _ => g.le_refl) (Nat.zero_le _)

/-- What takes a token may come after anything. -/
theorem andTake (h : Copies m p q g) (hf : ∀ a, Copies 1 (f a) (f' a) g') :
    Copies 1 (p >>= f) (q >>= f') g' :=
  .weaken (.bind h hf nofun) (Nat.le_add_left 1 m)

/-- What takes a token may come before anything that sees as much. -/
theorem takeAnd (h : Copies 1 p q g) (hf : ∀ a, Copies 0 (f a) (f' a) g) :
    Copies 1 (p >>= f) (q >>= f') g :=
  .weaken (.bind h hf fun _ => g.le_refl) (Nat.le_add_right 1 0)

end Copies

/-! ## Single tokens -/

theorem refuse_copies (cause : SyntaxCause) (m : Nat) (q : Parser α)
    (g : Glance) : Copies m (refuse cause) q g :=
  refuse_meets cause _

/-- Whether a parser of single tokens leaves a kind alone. -/
def Declines (recognise : TokenKind → Option α) (k : TokenKind) : Prop :=
  k = .endOfInput ∨ recognise k = none

section

variable {recognise : TokenKind → Option α} {ts : List Token} {t : Token}

theorem accept?_declined (h : Declines recognise (next ts)) (nextId : NodeId) (depth : Nat)
    (errors : List SyntaxError) :
    accept? recognise ⟨ts, nextId, depth, errors⟩ = .ok none ⟨ts, nextId, depth, errors⟩ := by
  cases ts with
  | nil => rfl
  | cons t ts =>
    by_cases hend : t.isEnd = true
    · simp [accept?, hend]
    · have hnone : recognise t.kind = none := h.resolve_left fun hk => hend (Token.isEnd_iff.mpr hk)
      simp [accept?, hnone]

theorem accept?_taken {a : α} (hend : t.isEnd = false) (h : recognise t.kind = some a)
    (nextId : NodeId) (depth : Nat) (errors : List SyntaxError) :
    accept? recognise ⟨t :: ts, nextId, depth, errors⟩ =
      .ok (some (a, t)) ⟨ts, nextId, depth, errors⟩ := by
  simp [accept?, hend, h]

theorem accept?_decides (recognise : TokenKind → Option α) :
    (accept? recognise).Meets fun c o c' =>
      match o with
      | none => c' = c ∧ Declines recognise (next c.rest)
      | some r => c.Took r.2 c' ∧ r.2.isEnd = false ∧ recognise r.2.kind = some r.1 := by
  intro c
  obtain ⟨ts, nextId, depth, errors⟩ := c
  by_cases hdeclines : Declines recognise (next ts)
  · rw [accept?_declined hdeclines]
    exact ⟨.refl _, fun _ => ⟨rfl, hdeclines⟩⟩
  · obtain ⟨hkind, hsome⟩ := not_or.mp hdeclines
    obtain ⟨a, ha⟩ := Option.ne_none_iff_exists'.mp hsome
    cases ts with
    | nil => exact absurd rfl hkind
    | cons t ts =>
      have hend : t.isEnd = false := Bool.eq_false_iff.mpr fun h => hkind (Token.isEnd_iff.mp h)
      rw [accept?_taken hend ha]
      exact ⟨⟨List.suffix_cons t ts, Nat.le_refl _, rfl, List.prefix_refl _⟩,
        fun _ => ⟨⟨rfl, rfl⟩, hend, ha⟩⟩

end

variable {m n : Nat} {g : Glance}

/-- To try to take a token and go on in two ways. -/
theorem Copies.attempt {recognise : TokenKind → Option α} {f f' : Option (α × Token) → Parser β}
    (hnone : Copies m (f none) (f' none) g) (hsome : ∀ r, Copies n (f (some r)) (f' (some r)) g)
    (hle : m ≤ n + 1)
    (hg : m = 0 → ∀ k k', g.Passes k k' → Declines recognise k → Declines recognise k') :
    Copies m (accept? recognise >>= f) (accept? recognise >>= f') g := by
  refine Meets.bind (accept?_decides recognise) fun o => ?_
  cases o with
  | none =>
    refine Meets.weaken hnone fun c b c' _ hb c₀ hbefore ha => ?_
    obtain ⟨rfl, hdeclines⟩ := ha
    obtain ⟨w, hw, hlen, hcopy⟩ := hb
    refine ⟨w, hw, hlen, fun rest errors hnext => ?_⟩
    have hdeclines' : Declines recognise (next (w ++ rest)) := by
      rw [hw] at hdeclines
      cases w with
      | nil => exact hg (Nat.le_zero.mp hlen) _ _ hnext hdeclines
      | cons t ts => exact hdeclines
    simp only [Bind.bind, EStateM.bind, accept?_declined hdeclines', hcopy rest errors hnext]
  | some r =>
    refine Meets.weaken (hsome r) fun c b c' _ hb c₀ hbefore ha => ?_
    obtain ⟨htook, hend, hr⟩ := ha
    obtain ⟨w, hw, hlen, hcopy⟩ := hb
    refine ⟨r.2 :: w, by rw [htook.rest, hw, List.cons_append], ?_, fun rest errors hnext => ?_⟩
    · rw [List.length_cons]
      exact Nat.le_trans hle (Nat.add_le_add_right hlen 1)
    · rw [htook.nextId, hbefore.depth] at hcopy
      simp only [Bind.bind, EStateM.bind, List.cons_append, accept?_taken hend hr,
        hcopy rest errors hnext]

/-- To try to take a token that passes a test. -/
theorem Copies.try {test : TokenKind → Bool} {f f' : Option Token → Parser β}
    (hnone : Copies m (f none) (f' none) g) (hsome : ∀ t, Copies n (f (some t)) (f' (some t)) g)
    (hle : m ≤ n + 1)
    (hg : m = 0 → ∀ k k', g.Passes k k' → k = .endOfInput ∨ test k = false →
      k' = .endOfInput ∨ test k' = false) :
    Copies m (accept test >>= f) (accept test >>= f') g := by
  have hbind (k : Option Token → Parser β) : accept test >>= k =
      accept? (fun kind => if test kind then some () else none) >>= fun o =>
        k (o.map Prod.snd) := by
    rw [accept, bind_assoc]
    simp only [pure_bind]
  rw [hbind, hbind]
  refine Copies.attempt hnone (fun r => hsome r.2) hle fun hm k k' hk => ?_
  simpa [Declines] using hg hm k k' hk

/-- To try to take a token that is no semicolon if the next one is seen to that extent
anyway. -/
theorem Copies.attemptStop {recognise : TokenKind → Option α}
    {f f' : Option (α × Token) → Parser β} (hstop : recognise (.symbol .semicolon) = none)
    (hnone : Copies 0 (f none) (f' none) .stop)
    (hsome : ∀ r, Copies 0 (f (some r)) (f' (some r)) .stop) :
    Copies 0 (accept? recognise >>= f) (accept? recognise >>= f') .stop := by
  refine .attempt hnone hsome (Nat.zero_le _) fun _ k k' hk h => ?_
  obtain rfl | ⟨rfl, rfl⟩ := hk
  · exact h
  · exact .inr hstop

theorem Copies.tryStop {test : TokenKind → Bool} {f f' : Option Token → Parser β}
    (hstop : test (.symbol .semicolon) = false) (hnone : Copies 0 (f none) (f' none) .stop)
    (hsome : ∀ t, Copies 0 (f (some t)) (f' (some t)) .stop) :
    Copies 0 (accept test >>= f) (accept test >>= f') .stop := by
  refine .try hnone hsome (Nat.zero_le _) fun _ k k' hk h => ?_
  obtain rfl | ⟨rfl, rfl⟩ := hk
  · exact h
  · exact .inr hstop

/-- To try to take a token if the kind of the next one is seen anyway. -/
theorem Copies.tryKind {test : TokenKind → Bool} {f f' : Option Token → Parser β}
    (hnone : Copies 0 (f none) (f' none) .kind)
    (hsome : ∀ t, Copies 0 (f (some t)) (f' (some t)) .kind) :
    Copies 0 (accept test >>= f) (accept test >>= f') .kind :=
  .try hnone hsome (Nat.zero_le _) fun _ _ _ (hk : _ = _) h => hk ▸ h

/-- To try to take a token, and else another one. -/
theorem Copies.tryTake {test : TokenKind → Bool} {f f' : Option Token → Parser β}
    (hnone : Copies 1 (f none) (f' none) g) (hsome : ∀ t, Copies 0 (f (some t)) (f' (some t)) g) :
    Copies 1 (accept test >>= f) (accept test >>= f') g :=
  .try hnone hsome (Nat.le_refl 1) nofun

/-- A token that has to be there is taken, and what is behind it does not matter. -/
theorem expect_copies (test : TokenKind → Bool) (cause : SyntaxCause) :
    Copies 1 (expect test cause) (expect test cause) g :=
  .try (refuse_copies _ 1 _ g) (fun t => .pure t) (Nat.le_refl 1) nofun

theorem expectSymbol_copies (s : Symbol) (place : SymbolPlace) :
    Copies 1 (expectSymbol s place) (expectSymbol s place) g :=
  expect_copies _ _

theorem expectName_copies (role : NameRole) :
    Copies 1 (expectName role) (expectName role) g :=
  expect_copies _ _

/-- To look for a symbol if it is seen anyway. -/
theorem nextIs_copies_of_seen {s : Symbol}
    (h : ∀ k k', g.Passes k k' → k'.isSymbol s = k.isSymbol s) :
    Copies 0 (nextIs s) (nextIs s) g := by
  refine fun c => ⟨.refl c, fun _ => ⟨[], rfl, Nat.le_refl 0, fun rest errors hnext => ?_⟩⟩
  change EStateM.Result.ok ((next rest).isSymbol s) _ = .ok ((next c.rest).isSymbol s) _
  rw [h _ _ hnext]
  rfl

theorem nextIs_copies (s : Symbol) : Copies 0 (nextIs s) (nextIs s) .kind :=
  nextIs_copies_of_seen fun _ _ (hk : _ = _) => congrArg _ hk.symm

theorem nextIs_copiesStop {s : Symbol} (h : s ≠ .semicolon) :
    Copies 0 (nextIs s) (nextIs s) .stop := by
  refine nextIs_copies_of_seen fun k k' hk => ?_
  obtain rfl | ⟨rfl, rfl⟩ := hk
  · rfl
  · exact beq_false_of_ne h.symm

theorem atEnd_copies : Copies 0 atEnd atEnd .kind := by
  refine fun c => ⟨.refl c, fun _ => ⟨[], rfl, Nat.le_refl 0, fun rest errors hnext => ?_⟩⟩
  have hend : Cursor.atEnd ⟨rest, c.nextId, c.depth, errors⟩ = c.atEnd := by
    rw [Bool.eq_iff_iff, Cursor.atEnd_iff, Cursor.atEnd_iff, show next c.rest = next rest from hnext]
  change EStateM.Result.ok (Cursor.atEnd ⟨rest, c.nextId, c.depth, errors⟩) _ = _
  rw [hend]
  rfl

theorem reference_copies (name : Token) : Copies 0 (reference name) (reference name) g :=
  fun _ => ⟨⟨List.suffix_refl _, Nat.le_succ _, rfl, List.prefix_refl _⟩,
    fun _ => ⟨[], rfl, Nat.le_refl 0, fun _ _ _ => rfl⟩⟩

/-! ## Nesting and recovery -/

theorem Copies.nested {p q : Parser α} (h : Copies m p q g) :
    Copies m (nested p) (nested q) g := by
  refine Meets.weaken (nested_meets h) fun c a c' _ hc => ?_
  obtain ⟨hdepth, w, hw, hlen, hcopy⟩ := hc
  refine ⟨w, hw, hlen, fun rest errors hnext => ?_⟩
  simp only [Parser.nested, Nat.not_le_of_lt hdepth, if_false, hcopy rest errors hnext,
    Nat.add_sub_cancel]

theorem Copies.recovering {p q : Parser Stmt} (h : Copies m p q g) :
    Copies m (recovering p) (recovering q) g := by
  refine Meets.weaken (recovering_meets h) fun c s c' _ hc => ?_
  obtain ⟨t, rfl, w, hw, hlen, hcopy⟩ := hc
  refine ⟨w, hw, hlen, fun rest errors hnext => ?_⟩
  simp only [Parser.recovering, hcopy rest errors hnext]

end Parser

end Lox
