import Lox.Proofs.Incremental.Moves
import Lox.Proofs.Syntax.Accepting

/-!
# Reading tokens on other lines

A parser does with tokens on other lines what it does with them where they are, also
when it fails, and whatever fuel it has, as long as there is enough of it. Its result,
its reports and what it leaves are moved in the same way.

## Implementation notes

Fuel is counted from the tokens that are left, `callsPerToken` for each, and a `cost`
for the calls in front of the next one. What comes after a parser that takes tokens
can therefore cost more, so the number of tokens that are surely taken is kept. The
parser that is moved may have any fuel that is not smaller.
-/

namespace Lox

namespace Cursor

/-- A cursor over tokens on other lines that gives out other numbers. -/
def move (μ : Move) (c : Cursor) : Cursor :=
  ⟨c.rest.map (Token.move μ), c.nextId + μ.shift, c.depth, c.errors.map (Blame.move μ)⟩

/-- Whether there is an end among the tokens that are left. -/
def Ends (c : Cursor) : Prop :=
  ∃ t ∈ c.rest, t.isEnd = true

variable {μ : Move} {c c' : Cursor}

theorem peek_move (h : c.Ends) : (c.move μ).peek = c.peek.move μ := by
  obtain ⟨t, ht, -⟩ := h
  obtain ⟨first, rest, hrest⟩ := List.exists_cons_of_ne_nil (List.ne_nil_of_mem ht)
  rw [peek, peek, move, hrest]
  rfl

theorem atEnd_move (h : c.Ends) : (c.move μ).atEnd = c.atEnd := by
  rw [atEnd, peek_move h, Token.isEnd_move, atEnd]

theorem report_move (error : SyntaxError) :
    (c.report error).move μ = (c.move μ).report (error.move μ) := by
  simp [report, move]

/-- What is left after a token that is no end has still an end. -/
theorem Ends.tail {t : Token} {ts : List Token} (h : c.Ends) (hrest : c.rest = t :: ts)
    (ht : t.isEnd = false) : Ends { c with rest := ts } := by
  obtain ⟨u, hu, hend⟩ := h
  rw [hrest, List.mem_cons] at hu
  obtain rfl | hu := hu
  · rw [ht] at hend
    cases hend
  · exact ⟨u, hu, hend⟩

end Cursor

/-! ## Skipping -/

section

variable {μ : Move} {ts : List Token}

theorem skipToBoundary_move (previous : Token) :
    skipToBoundary (previous.move μ) (ts.map (Token.move μ)) =
      (skipToBoundary previous ts).map (Token.move μ) := by
  induction ts generalizing previous with
  | nil => rfl
  | cons t ts ih =>
    simp only [List.map_cons, skipToBoundary, Token.isEnd_move, Token.kind_move, ih]
    split <;> rfl

theorem resume_move : resume (ts.map (Token.move μ)) = (resume ts).map (Token.move μ) := by
  cases ts with
  | nil => rfl
  | cons t ts =>
    simp only [List.map_cons, resume, Token.isEnd_move, skipToBoundary_move]
    split <;> rfl

theorem skipToBoundary_ends (previous : Token) (h : ∃ t ∈ ts, t.isEnd = true) :
    ∃ t ∈ skipToBoundary previous ts, t.isEnd = true := by
  induction ts generalizing previous with
  | nil => exact h
  | cons t ts ih =>
    rw [skipToBoundary]
    split
    · exact h
    · rename_i hskips
      refine ih t ?_
      obtain ⟨u, hu, hend⟩ := h
      obtain rfl | hu := List.mem_cons.mp hu
      · simp [hend] at hskips
      · exact ⟨u, hu, hend⟩

theorem resume_ends (h : ∃ t ∈ ts, t.isEnd = true) : ∃ t ∈ resume ts, t.isEnd = true := by
  cases ts with
  | nil => exact h
  | cons t ts =>
    rw [resume]
    split
    · exact h
    · rename_i hskips
      refine skipToBoundary_ends t ?_
      obtain ⟨u, hu, hend⟩ := h
      obtain rfl | hu := List.mem_cons.mp hu
      · exact absurd hend hskips
      · exact ⟨u, hu, hend⟩

end

namespace Parser

variable {α β : Type}

/-- Whether a parser does at a moved cursor what another does where it is, which takes
`m` tokens or more if it succeeds. -/
def MovesAt (μ : Move) (m : Nat) (p q : Parser α) (g : α → α) (c : Cursor) : Prop :=
  match p c with
  | .ok a c' => q (c.move μ) = .ok (g a) (c'.move μ) ∧ c'.Ends ∧ c'.rest <:+ c.rest ∧
      c'.rest.length + m ≤ c.rest.length
  | .error e c' => q (c.move μ) = .error (e.move μ) (c'.move μ) ∧ c'.Ends ∧ c'.rest <:+ c.rest

/-- Whether a parser does with moved tokens what another does where they are, if `fuel`
is enough for so many calls in front of the first. -/
def Moves (μ : Move) (fuel cost m : Nat) (p q : Parser α) (g : α → α) : Prop :=
  ∀ c : Cursor, c.Ends → 20 * c.rest.length + cost ≤ fuel → MovesAt μ m p q g c

/-! ## Combinators -/

section

variable {μ : Move} {fuel cost cost' m n : Nat} {p q : Parser α} {f f' : α → Parser β} {g : α → α}
  {k : β → β} {c : Cursor}

theorem MovesAt.ok {a : α} {c' : Cursor} (h : MovesAt μ m p q g c) (hp : p c = .ok a c') :
    q (c.move μ) = .ok (g a) (c'.move μ) ∧ c'.Ends ∧ c'.rest <:+ c.rest ∧
      c'.rest.length + m ≤ c.rest.length := by
  unfold MovesAt at h
  rw [hp] at h
  exact h

theorem MovesAt.error {e : SyntaxError} {c' : Cursor} (h : MovesAt μ m p q g c)
    (hp : p c = .error e c') :
    q (c.move μ) = .error (e.move μ) (c'.move μ) ∧ c'.Ends ∧ c'.rest <:+ c.rest := by
  unfold MovesAt at h
  rw [hp] at h
  exact h

theorem MovesAt.of_ok {a : α} {d : Cursor} (hp : p c = .ok a d)
    (hq : q (c.move μ) = .ok (g a) (d.move μ)) (hends : d.Ends) (hrest : d.rest <:+ c.rest)
    (hlength : d.rest.length + m ≤ c.rest.length) : MovesAt μ m p q g c := by
  unfold MovesAt
  rw [hp]
  exact ⟨hq, hends, hrest, hlength⟩

theorem MovesAt.of_error {e : SyntaxError} {d : Cursor} (hp : p c = .error e d)
    (hq : q (c.move μ) = .error (e.move μ) (d.move μ)) (hends : d.Ends)
    (hrest : d.rest <:+ c.rest) : MovesAt μ m p q g c := by
  unfold MovesAt
  rw [hp]
  exact ⟨hq, hends, hrest⟩

theorem MovesAt.pure {a a' : α} (h : a' = g a) (hends : c.Ends) :
    MovesAt μ 0 (Pure.pure a : Parser α) (Pure.pure a') g c :=
  .of_ok rfl (h ▸ rfl) hends (List.suffix_refl _) (Nat.le_refl _)

/-- What comes after a parser is read from where that stops. -/
theorem MovesAt.bind (h : MovesAt μ m p q g c)
    (hf : ∀ a c', p c = .ok a c' → c'.Ends → c'.rest.length + m ≤ c.rest.length →
      ∃ l, MovesAt μ l (f a) (f' (g a)) k c' ∧ c'.rest.length + n ≤ c.rest.length + l) :
    MovesAt μ n (p >>= f) (q >>= f') k c := by
  cases hp : p c with
  | error e c' =>
    obtain ⟨hq, hends, hrest⟩ := h.error hp
    refine .of_error (e := e) (d := c') ?_ ?_ hends hrest
    · simp only [Bind.bind, EStateM.bind, hp]
    · simp only [Bind.bind, EStateM.bind, hq]
  | ok a c' =>
    obtain ⟨hq, hends, hrest, hlength⟩ := h.ok hp
    obtain ⟨l, ha, hl⟩ := hf a c' hp hends hlength
    cases hfa : f a c' with
    | error e c'' =>
      obtain ⟨hq', hends', hrest'⟩ := ha.error hfa
      refine .of_error (e := e) (d := c'') ?_ ?_ hends' (hrest'.trans hrest)
      · simp only [Bind.bind, EStateM.bind, hp, hfa]
      · simp only [Bind.bind, EStateM.bind, hq, hq']
    | ok b c'' =>
      obtain ⟨hq', hends', hrest', hlength'⟩ := ha.ok hfa
      refine .of_ok (a := b) (d := c'') ?_ ?_ hends' (hrest'.trans hrest) (by omega)
      · simp only [Bind.bind, EStateM.bind, hp, hfa]
      · simp only [Bind.bind, EStateM.bind, hq, hq']

namespace Moves

theorem weaken (h : Moves μ fuel cost m p q g) (hcost : cost ≤ cost') (hm : n ≤ m) :
    Moves μ fuel cost' n p q g := by
  intro c hends hroom
  have hc := h c hends (by omega)
  cases hp : p c with
  | ok a c' =>
    obtain ⟨hq, hends', hrest, hlength⟩ := hc.ok hp
    exact .of_ok hp hq hends' hrest (by omega)
  | error e c' =>
    obtain ⟨hq, hends', hrest⟩ := hc.error hp
    exact .of_error hp hq hends' hrest

/-- Nothing that costs anything is done without fuel. -/
theorem zero (h : 0 < cost) : Moves μ 0 cost m p q g :=
  fun _ _ hroom => absurd hroom (by omega)

/-- A call uses up one unit of fuel. -/
theorem call (h : Moves μ fuel cost m p q g) : Moves μ (fuel + 1) (cost + 1) m p q g :=
  fun c hends hroom => h c hends (by omega)

theorem pure {a a' : α} (h : a' = g a) :
    Moves μ fuel cost 0 (Pure.pure a : Parser α) (Pure.pure a') g :=
  fun _ hends _ => .pure h hends

/-- What comes after tokens that are taken may cost more. -/
theorem bind (hp : Moves μ fuel cost m p q g)
    (hf : ∀ a, Moves μ fuel (cost + 20 * m) n (f a) (f' (g a)) k) :
    Moves μ fuel cost (m + n) (p >>= f) (q >>= f') k :=
  fun c hends hroom => (hp c hends hroom).bind fun a c' _ hends' hlength =>
    ⟨n, hf a c' hends' (by omega), by omega⟩

/-- What is passed on without a step of reading. -/
theorem pureAnd {a a' : α} (h : Moves μ fuel cost m (f a) (f' a') k) :
    Moves μ fuel cost m ((Pure.pure a : Parser α) >>= f) ((Pure.pure a' : Parser α) >>= f') k :=
  h

/-- After something that may take nothing. -/
theorem andThen (hp : Moves μ fuel cost 0 p q g)
    (hf : ∀ a, Moves μ fuel cost m (f a) (f' (g a)) k) :
    Moves μ fuel cost m (p >>= f) (q >>= f') k :=
  (hp.bind hf).weaken (Nat.le_refl _) (Nat.le_of_eq (Nat.zero_add m).symm)

/-- After something that takes a token. -/
theorem takeAnd (hp : Moves μ fuel cost 1 p q g) (hcost : cost ≤ cost')
    (hf : ∀ a, Moves μ fuel (cost' + 20) m (f a) (f' (g a)) k) :
    Moves μ fuel cost' (m + 1) (p >>= f) (q >>= f') k :=
  ((hp.weaken hcost (Nat.le_refl 1)).bind hf).weaken (Nat.le_refl _) (Nat.le_of_eq (Nat.add_comm m 1))

theorem ite {b : Prop} [Decidable b] {p' q' : Parser α} (hp : b → Moves μ fuel cost m p q g)
    (hq : ¬b → Moves μ fuel cost m p' q' g) :
    Moves μ fuel cost m (if b then p else p') (if b then q else q') g := by
  by_cases h : b
  · simpa only [if_pos h] using hp h
  · simpa only [if_neg h] using hq h

theorem map {r r' : α → β} (h : Moves μ fuel cost m p q g) (hr : ∀ a, r' (g a) = k (r a)) :
    Moves μ fuel cost m (r <$> p) (r' <$> q) k := by
  intro c hends hroom
  have hc := h c hends hroom
  cases hp : p c with
  | ok a c' =>
    obtain ⟨hq, hends', hrest, hlength⟩ := hc.ok hp
    refine .of_ok (a := r a) (d := c') ?_ ?_ hends' hrest hlength
    · simp only [Functor.map, EStateM.map, hp]
    · simp only [Functor.map, EStateM.map, hq, hr]
  | error e c' =>
    obtain ⟨hq, hends', hrest⟩ := hc.error hp
    refine .of_error (e := e) (d := c') ?_ ?_ hends' hrest
    · simp only [Functor.map, EStateM.map, hp]
    · simp only [Functor.map, EStateM.map, hq]

theorem refuse (cause : SyntaxCause) :
    Moves μ fuel cost m (Parser.refuse cause) (Parser.refuse cause) g := by
  intro c hends _
  refine .of_error (e := ⟨cause, c.peek⟩) rfl ?_ hends (List.suffix_refl _)
  rw [Parser.refuse, Cursor.peek_move hends]
  rfl

end Moves

end

/-! ## Single tokens -/

section

variable {μ : Move} {fuel cost cost' m n : Nat} {g : β → β} {c : Cursor}

theorem accept?_moves (recognise : TokenKind → Option α) (hends : c.Ends) :
    MovesAt μ 0 (accept? recognise) (accept? recognise)
      (Option.map fun r => (r.1, r.2.move μ)) c := by
  obtain ⟨t, ts, hrest⟩ := List.exists_cons_of_ne_nil (List.ne_nil_of_mem hends.choose_spec.1)
  obtain ⟨rest, nextId, depth, errors⟩ := c
  obtain rfl : rest = t :: ts := hrest
  cases hend : t.isEnd with
  | true =>
    refine .of_ok (a := none) (d := ⟨t :: ts, nextId, depth, errors⟩) ?_ ?_ hends
      (List.suffix_refl _) (Nat.le_refl _) <;> simp [accept?, Cursor.move, hend]
  | false =>
    cases hr : recognise t.kind with
    | none =>
      refine .of_ok (a := none) (d := ⟨t :: ts, nextId, depth, errors⟩) ?_ ?_ hends
        (List.suffix_refl _) (Nat.le_refl _) <;> simp [accept?, Cursor.move, hend, hr]
    | some a =>
      refine .of_ok (a := some (a, t)) (d := ⟨ts, nextId, depth, errors⟩) ?_ ?_
        (hends.tail rfl hend) (List.suffix_cons t ts) (Nat.le_succ _) <;>
        simp [accept?, Cursor.move, hend, hr]

/-- To try to take a token and go on in two ways. -/
theorem Moves.attempt {recognise : TokenKind → Option α} {f f' : Option (α × Token) → Parser β}
    (hnone : Moves μ fuel cost m (f none) (f' none) g)
    (hsome : ∀ r : α × Token, recognise r.2.kind = some r.1 →
      Moves μ fuel (cost + 20) n (f (some r)) (f' (some (r.1, r.2.move μ))) g)
    (hm : m ≤ n + 1) :
    Moves μ fuel cost m (accept? recognise >>= f) (accept? recognise >>= f') g := by
  intro c hends hroom
  refine (accept?_moves recognise hends).bind fun r c' hread hends' _ => ?_
  obtain hstays | ⟨a, t, ts, hrest, -, hr, htakes⟩ := accept?_cases recognise c
  · rw [hstays] at hread
    cases hread
    exact ⟨m, hnone c hends hroom, Nat.le_refl _⟩
  · rw [htakes] at hread
    cases hread
    have hlength : c.rest.length = ts.length + 1 := by rw [hrest, List.length_cons]
    exact ⟨n, hsome (a, t) hr _ hends' (by simp only; omega), by simp only; omega⟩

/-- To try to take a token that passes a test. -/
theorem Moves.try {test : TokenKind → Bool} {f f' : Option Token → Parser β}
    (hnone : Moves μ fuel cost m (f none) (f' none) g)
    (hsome : ∀ t, Moves μ fuel (cost + 20) n (f (some t)) (f' (some (t.move μ))) g)
    (hm : m ≤ n + 1) :
    Moves μ fuel cost m (accept test >>= f) (accept test >>= f') g := by
  have hbind (k : Option Token → Parser β) : accept test >>= k =
      accept? (fun kind => if test kind then some () else none) >>= fun o =>
        k (o.map Prod.snd) := by
    rw [accept, bind_assoc]
    simp only [pure_bind]
  rw [hbind, hbind]
  exact .attempt hnone (fun r _ => hsome r.2) hm

theorem expect_moves (test : TokenKind → Bool) (cause : SyntaxCause) :
    Moves μ fuel cost 1 (expect test cause) (expect test cause) (Token.move μ) :=
  .try (.refuse cause) (fun _ => .pure rfl) (Nat.le_refl 1)

theorem expectSymbol_moves (s : Symbol) (place : SymbolPlace) :
    Moves μ fuel cost 1 (expectSymbol s place) (expectSymbol s place) (Token.move μ) :=
  expect_moves _ _

theorem expectName_moves (role : NameRole) :
    Moves μ fuel cost 1 (expectName role) (expectName role) (Token.move μ) :=
  expect_moves _ _

theorem peek_moves : Moves μ fuel cost 0 peek peek (Token.move μ) := by
  intro c hends _
  refine .of_ok (a := c.peek) rfl ?_ hends (List.suffix_refl _) (Nat.le_refl _)
  rw [peek, Cursor.peek_move hends]

theorem nextIs_moves (s : Symbol) : Moves μ fuel cost 0 (nextIs s) (nextIs s) id := by
  intro c hends _
  refine .of_ok (a := c.peek.kind.isSymbol s) rfl ?_ hends (List.suffix_refl _) (Nat.le_refl _)
  rw [nextIs, Cursor.peek_move hends]
  rfl

theorem atEnd_moves : Moves μ fuel cost 0 atEnd atEnd id := by
  intro c hends _
  refine .of_ok (a := c.atEnd) rfl ?_ hends (List.suffix_refl _) (Nat.le_refl _)
  rw [Parser.atEnd, Cursor.atEnd_move hends]
  rfl

theorem reference_moves (name : Token) :
    Moves μ fuel cost 0 (reference name) (reference (name.move μ)) (Reference.move μ) := by
  intro c hends _
  refine .of_ok (a := ⟨c.nextId, name⟩) rfl ?_ hends (List.suffix_refl _) (Nat.le_refl _)
  simp only [reference, Cursor.move, Reference.move, Nat.add_right_comm]

/-- A report is moved with all others. -/
theorem report_moves (error : SyntaxError) :
    Moves μ fuel cost 0 (report error) (report (error.move μ)) id := by
  intro c hends _
  refine .of_ok (a := ()) (d := c.report error) rfl ?_ hends (List.suffix_refl _) (Nat.le_refl _)
  rw [Cursor.report_move]
  rfl

/-- The next token may be reported before reading goes on. -/
theorem Moves.reportIf {b : Prop} [Decidable b] {p q : Parser β} {error : Token → SyntaxError}
    (herror : ∀ t, error (t.move μ) = (error t).move μ) (h : Moves μ fuel cost m p q g) :
    Moves μ fuel cost m (if b then peek >>= fun t => report (error t) >>= fun _ => p else p)
      (if b then peek >>= fun t => report (error t) >>= fun _ => q else q) g := by
  refine .ite (fun _ => ?_) fun _ => h
  exact .andThen peek_moves fun t => .andThen (herror t ▸ report_moves (error t)) fun _ => h

/-! ## Nesting and recovery -/

theorem Moves.nested {p q : Parser β} (h : Moves μ fuel cost m p q g) :
    Moves μ fuel cost m (nested p) (nested q) g := by
  intro c hends hroom
  by_cases hdepth : maxNesting ≤ c.depth
  · refine .of_error (e := ⟨.tooMuchNesting, c.peek⟩) (d := c) ?_ ?_ hends (List.suffix_refl _)
    · simp only [Parser.nested, hdepth, if_true]
    · have hdepth' : maxNesting ≤ (c.move μ).depth := hdepth
      simp only [Parser.nested, hdepth', if_true, Cursor.peek_move hends]
      rfl
  · have hdepth' : ¬maxNesting ≤ (c.move μ).depth := hdepth
    have hc := h { c with depth := c.depth + 1 } hends hroom
    cases hp : p { c with depth := c.depth + 1 } with
    | ok a c' =>
      obtain ⟨hq, hends', hrest, hlength⟩ := hc.ok hp
      have hq' : q { c.move μ with depth := (c.move μ).depth + 1 } = .ok (g a) (c'.move μ) := hq
      refine .of_ok (a := a) (d := { c' with depth := c'.depth - 1 }) ?_ ?_ hends' hrest hlength
      · simp only [Parser.nested, hdepth, if_false, hp]
      · simp only [Parser.nested, hdepth', if_false, hq']
        rfl
    | error e c' =>
      obtain ⟨hq, hends', hrest⟩ := hc.error hp
      have hq' : q { c.move μ with depth := (c.move μ).depth + 1 } = .error (e.move μ) (c'.move μ) :=
        hq
      refine .of_error (e := e) (d := { c' with depth := c'.depth - 1 }) ?_ ?_ hends' hrest
      · simp only [Parser.nested, hdepth, if_false, hp]
      · simp only [Parser.nested, hdepth', if_false, hq']
        rfl

/-- What is skipped after an error depends on the kinds of tokens alone. Unless there
are no more tokens, at least one is taken or skipped. -/
theorem Moves.recovering {p q : Parser Stmt} (h : Moves μ fuel cost 1 p q (Stmt.move μ))
    (hends : c.Ends) (hmore : c.atEnd = false) (hroom : 20 * c.rest.length + cost ≤ fuel) :
    MovesAt μ 1 (recovering p) (recovering q) (Option.map (Stmt.move μ)) c := by
  have hc := h c hends hroom
  cases hp : p c with
  | ok s c' =>
    obtain ⟨hq, hends', hrest, hlength⟩ := hc.ok hp
    refine .of_ok (a := some s) (d := c') ?_ ?_ hends' hrest hlength
    · simp only [Parser.recovering, hp]
    · simp only [Parser.recovering, hq, Option.map_some]
  | error e c' =>
    obtain ⟨hq, hends', hrest⟩ := hc.error hp
    refine .of_ok (a := none) (d := { c'.report e with rest := resume c'.rest }) ?_ ?_
      (resume_ends hends') ((resume_suffix _).trans hrest) ?_
    · simp only [Parser.recovering, hp]
    · simp only [Parser.recovering, hq, Option.map_none, ← Cursor.report_move]
      simp only [Cursor.move, Cursor.report, resume_move]
    · change (resume c'.rest).length < c.rest.length
      obtain ⟨t, ts, hc'⟩ := List.exists_cons_of_ne_nil (List.ne_nil_of_mem hends'.choose_spec.1)
      cases hend : t.isEnd with
      | false => exact Nat.lt_of_lt_of_le (hc' ▸ length_resume_lt hend) hrest.length_le
      | true =>
        have hne : c'.rest ≠ c.rest := by
          intro heq
          rw [Cursor.atEnd, Cursor.peek, ← heq, hc', List.headD_cons, hend] at hmore
          cases hmore
        have hlt : c'.rest.length < c.rest.length :=
          Nat.lt_of_le_of_ne hrest.length_le fun heq => hne (hrest.eq_of_length heq)
        exact Nat.lt_of_le_of_lt (resume_suffix _).length_le hlt

end

end Parser

end Lox
