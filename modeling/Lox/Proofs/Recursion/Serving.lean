import Lox.Proofs.Recursion.Ends
import Lox.Proofs.Recursion.Traces

/-!
# What a call does

The calls of a parser are made by a routine to its `callees`, one after the other, and
never go back among the tokens. A declaration that is looked for where there are more
tokens goes on by one token or more. Blocks and expressions go one level deeper, and
make no calls where there is too much nesting. All this is `Runs`, which has no case
for a record that was cut.

A parser `Serves` a routine if, with enough fuel, it only makes such calls, and any
larger amount of fuel and any list that is the same up to the end give its answer.

## Implementation notes

Fuel is counted from the tokens that are left, `callsPerToken` for each, and a `cost`
for the calls in front of the next one. What comes after a parser that takes tokens
can therefore cost more, so the number of tokens that are surely taken is kept.
-/

namespace Lox

namespace Routine

/-- The routines that a routine calls itself. -/
def callees : Routine → List Routine
  | program => [declaration]
  | wholeExpression => [expression]
  | declaration => [classDeclaration, callable, variableDeclaration, statement]
  | classDeclaration => [callable]
  | callable => [block]
  | variableDeclaration => [expression]
  | statement =>
      [forStatement, ifStatement, printStatement, returnStatement, whileStatement, block,
        expressionStatement]
  | forStatement => [variableDeclaration, expressionStatement, expression, statement]
  | ifStatement => [expression, statement]
  | printStatement => [expression]
  | returnStatement => [expression]
  | whileStatement => [expression, statement]
  | expressionStatement => [expression]
  | block => [declaration]
  | expression => [assignment]
  | assignment => [operators .disjunction, assignment]
  | operators t =>
      match t.operand? with
      | some inner => [operators inner]
      | none => [unary]
  | unary => [unary, call]
  | call => [primary, finishCall]
  | finishCall => [expression]
  | primary => [expression]

/-- Whether a routine goes one level deeper. -/
def isCounted : Routine → Bool
  | block => true
  | expression => true
  | _ => false

/-- The depth of the calls inside a call. -/
def innerDepth (r : Routine) (depth : Nat) : Nat :=
  if r.isCounted then depth + 1 else depth

end Routine

/-- The calls of a routine at a depth, from one list of tokens to what is left of it. -/
inductive Runs : (caller : Routine) → (depth : Nat) → List Token → List Call → List Token → Prop
  | done {caller depth before after} : Onward before after → Runs caller depth before [] after
  | call {caller depth before after r start finish inner others} :
      Onward before start.rest → r ∈ caller.callees → start.depth = depth →
      (r = .declaration → start.atEnd = false → finish.rest.length < start.rest.length) →
      (r.isCounted = true → Parser.maxNesting ≤ depth → inner = []) →
      Runs r (r.innerDepth depth) start.rest inner finish.rest →
      Runs caller depth finish.rest others after →
      Runs caller depth before (.of r start finish inner :: others) after

namespace Runs

variable {caller : Routine} {depth : Nat} {ts ts' ts'' : List Token} {calls others : List Call}

theorem onward (h : Runs caller depth ts calls ts') : Onward ts ts' := by
  induction h with
  | done h => exact h
  | call hstart _ _ _ _ _ _ ihinner ih => exact hstart.trans (ihinner.trans ih)

theorem append (h : Runs caller depth ts calls ts') (h' : Runs caller depth ts' others ts'') :
    Runs caller depth ts (calls ++ others) ts'' := by
  induction h with
  | done hon =>
    cases h' with
    | done hon' => exact .done (hon.trans hon')
    | call hstart hr hdepth hdecl hcount hinner hothers =>
      exact .call (hon.trans hstart) hr hdepth hdecl hcount hinner hothers
  | call hstart hr hdepth hdecl hcount hinner _ _ ih =>
    exact .call hstart hr hdepth hdecl hcount hinner (ih h')

end Runs

/-- Whether two runs of parsers give the same answer, apart from the tokens behind the
end. -/
inductive SameAnswer {α : Type} :
    EStateM.Result SyntaxError Cursor α → EStateM.Result SyntaxError Cursor α → Prop
  | ok {a c c'} : c.upToEnd = c'.upToEnd → SameAnswer (.ok a c) (.ok a c')
  | error {e c c'} : c.upToEnd = c'.upToEnd → SameAnswer (.error e c) (.error e c')

namespace Traced

variable {α β : Type}

/-- What a parser does for a routine from a cursor on: calls, after which it is back at
the depth at which it started, and `m` tokens or more are taken unless it fails. Another
parser answers as it does. -/
structure ServesAt (caller : Routine) (m : Nat) (p : Traced α) (q : Parser α) (c : Cursor) :
    Prop where
  runs : Runs caller c.depth c.rest (p.calls c) (p.parser.finish c).rest
  depth : (p.parser.finish c).depth = c.depth
  takes : ∀ a d, p.parser c = .ok a d → d.rest.length + m ≤ c.rest.length
  agrees : ∀ c', c.upToEnd = c'.upToEnd → SameAnswer (p.parser c) (q c')

/-- Whether a parser serves a routine wherever `fuel` is enough for so many calls in
front of the next token. -/
def Serves (caller : Routine) (fuel cost m : Nat) (p : Traced α) (q : Parser α) : Prop :=
  ∀ c : Cursor, 20 * c.rest.length + cost ≤ fuel → ServesAt caller m p q c

/-- What a parser that takes no more than a token does, as all cursors that are the same
up to the end show. -/
def Looks (p : Parser (Option α)) : Prop :=
  ∀ c : Cursor, (∀ c', c.upToEnd = c'.upToEnd → p c' = .ok none c') ∨
    ∃ a t ts, c.rest = t :: ts ∧ t.isEnd = false ∧
      ∀ c', c.upToEnd = c'.upToEnd → ∃ ts', c'.rest = t :: ts' ∧
        p c' = .ok (some a) { c' with rest := ts' }

end Traced

theorem Parser.finish_of_ok {α : Type} {p : Parser α} {c d : Cursor} {a : α} (h : p c = .ok a d) :
    p.finish c = d := by
  rw [Parser.finish, h]

theorem Parser.finish_of_error {α : Type} {p : Parser α} {c d : Cursor} {e : SyntaxError}
    (h : p c = .error e d) : p.finish c = d := by
  rw [Parser.finish, h]

namespace Traced

variable {α β γ : Type} {caller r : Routine} {fuel cost cost' m n : Nat} {p : Traced α}
  {q : Parser α} {f : α → Traced β} {g : α → Parser β} {c : Cursor}

/-! ## Combinators -/

/-- What comes after a parser is read from where that stops. -/
theorem ServesAt.bind (h : ServesAt caller m p q c)
    (hf : ∀ a d, p.parser c = .ok a d → d.rest.length + m ≤ c.rest.length →
      ∃ l, ServesAt caller l (f a) (g a) d ∧ d.rest.length + n ≤ c.rest.length + l) :
    ServesAt caller n (p >>= f) (q >>= g) c := by
  cases hp : p.parser c with
  | error e d =>
    have hpf : (p >>= f).parser c = .error e d := by
      simp only [Bind.bind, EStateM.bind, hp]
    have hcalls : (p >>= f).calls c = p.calls c ++ [] := by simp only [Bind.bind, hp]
    have hfinish := Parser.finish_of_error hp
    have hrest := Parser.finish_of_error hpf
    constructor
    case runs =>
      rw [hcalls, List.append_nil, hrest, ← hfinish]
      exact h.runs
    case depth =>
      rw [hrest, ← hfinish]
      exact h.depth
    case takes => simp [hpf]
    case agrees =>
      intro c' hc'
      have hagrees := h.agrees c' hc'
      rw [hpf]
      rw [hp] at hagrees
      generalize hq : q c' = answer at hagrees
      cases hagrees with
      | error hd =>
        simp only [Bind.bind, EStateM.bind, hq]
        exact .error hd
  | ok a d =>
    obtain ⟨l, ha, hl⟩ := hf a d hp (h.takes a d hp)
    have hpf : (p >>= f).parser c = (f a).parser d := by
      simp only [Bind.bind, EStateM.bind, hp]
    have hcalls : (p >>= f).calls c = p.calls c ++ (f a).calls d := by simp only [Bind.bind, hp]
    have hfinish : (p >>= f).parser.finish c = (f a).parser.finish d := by
      rw [Parser.finish, hpf, Parser.finish]
    have hd : d.depth = c.depth := by
      rw [← Parser.finish_of_ok hp]
      exact h.depth
    have hruns := h.runs
    rw [Parser.finish_of_ok hp] at hruns
    constructor
    case runs =>
      rw [hcalls, hfinish]
      exact hruns.append (hd ▸ ha.runs)
    case depth => rw [hfinish, ha.depth, hd]
    case takes =>
      intro b d' hb
      have := ha.takes b d' (hpf ▸ hb)
      omega
    case agrees =>
      intro c' hc'
      have hagrees := h.agrees c' hc'
      rw [hpf]
      rw [hp] at hagrees
      generalize hq : q c' = answer at hagrees
      cases hagrees with
      | ok hdd =>
        simp only [Bind.bind, EStateM.bind, hq]
        exact ha.agrees _ hdd

theorem ServesAt.weaken (h : ServesAt caller m p q c) (hm : n ≤ m) : ServesAt caller n p q c :=
  ⟨h.runs, h.depth, fun a d hp => Nat.le_trans (Nat.add_le_add_left hm _) (h.takes a d hp),
    h.agrees⟩

theorem ServesAt.map {k : α → β} (h : ServesAt caller m p q c) :
    ServesAt caller m (k <$> p) (k <$> q) c := by
  have hfinish : (k <$> p).parser.finish c = p.parser.finish c := by
    simp only [Parser.finish, Functor.map, EStateM.map]
    cases p.parser c <;> rfl
  constructor
  case runs =>
    rw [hfinish]
    exact h.runs
  case depth =>
    rw [hfinish]
    exact h.depth
  case takes =>
    intro b d hb
    simp only [Functor.map, EStateM.map] at hb
    cases hp : p.parser c with
    | ok a d' =>
      rw [hp] at hb
      cases hb
      exact h.takes a d hp
    | error e d' =>
      rw [hp] at hb
      cases hb
  case agrees =>
    intro c' hc'
    have hagrees := h.agrees c' hc'
    simp only [Functor.map, EStateM.map]
    generalize p.parser c = answer, q c' = answer' at hagrees
    cases hagrees with
    | ok hd => exact .ok hd
    | error hd => exact .error hd

namespace Serves

theorem weaken (h : Serves caller fuel cost m p q) (hcost : cost ≤ cost') (hm : n ≤ m) :
    Serves caller fuel cost' n p q :=
  fun c hroom => (h c (by omega)).weaken hm

/-- Nothing that costs anything is done without fuel. -/
theorem zero (h : 0 < cost) : Serves caller 0 cost m p q :=
  fun _ hroom => absurd hroom (by omega)

/-- A call uses up one unit of fuel. -/
theorem spend (h : Serves caller fuel cost m p q) : Serves caller (fuel + 1) (cost + 1) m p q :=
  fun c hroom => h c (by omega)

/-- What comes after tokens that are taken may cost more. -/
theorem bind (hp : Serves caller fuel cost m p q)
    (hf : ∀ a, Serves caller fuel (cost + 20 * m) n (f a) (g a)) :
    Serves caller fuel cost (m + n) (p >>= f) (q >>= g) :=
  fun c hroom => (hp c hroom).bind fun a d _ hlength => ⟨n, hf a d (by omega), by omega⟩

/-- After something that may take nothing. -/
theorem andThen (hp : Serves caller fuel cost 0 p q)
    (hf : ∀ a, Serves caller fuel cost m (f a) (g a)) :
    Serves caller fuel cost m (p >>= f) (q >>= g) :=
  (hp.bind hf).weaken (Nat.le_refl _) (Nat.le_of_eq (Nat.zero_add m).symm)

/-- After something that takes a token. -/
theorem takeAnd (hp : Serves caller fuel cost 1 p q) (hcost : cost ≤ cost')
    (hf : ∀ a, Serves caller fuel (cost' + 20) m (f a) (g a)) :
    Serves caller fuel cost' (m + 1) (p >>= f) (q >>= g) :=
  ((hp.weaken hcost (Nat.le_refl 1)).bind hf).weaken (Nat.le_refl _)
    (Nat.le_of_eq (Nat.add_comm m 1))

theorem map {k : α → β} (h : Serves caller fuel cost m p q) :
    Serves caller fuel cost m (k <$> p) (k <$> q) :=
  fun c hroom => (h c hroom).map

theorem ite {b : Prop} [Decidable b] {p' : Traced α} {q' : Parser α}
    (hp : b → Serves caller fuel cost m p q) (hq : ¬b → Serves caller fuel cost m p' q') :
    Serves caller fuel cost m (if b then p else p') (if b then q else q') := by
  by_cases h : b
  · simpa only [if_pos h] using hp h
  · simpa only [if_neg h] using hq h

end Serves

/-! ## Parsers without calls -/

theorem ServesAt.lift_ok {a : α} {d : Cursor} (hp : q c = .ok a d) (hrest : Onward c.rest d.rest)
    (hdepth : d.depth = c.depth) (hlength : d.rest.length + m ≤ c.rest.length)
    (hagrees : ∀ c', c.upToEnd = c'.upToEnd → SameAnswer (q c) (q c')) :
    ServesAt caller m (lift q) q c := by
  have hfinish : (lift q).parser.finish c = d := Parser.finish_of_ok hp
  refine ⟨.done (hfinish ▸ hrest), hfinish ▸ hdepth, fun a' d' hd => ?_, hagrees⟩
  cases hp.symm.trans hd
  exact hlength

/-- What does not move the cursor among the tokens. -/
theorem ServesAt.lift_stays {a : α} {d : Cursor} (hp : q c = .ok a d) (hrest : d.rest = c.rest)
    (hdepth : d.depth = c.depth)
    (hagrees : ∀ c', c.upToEnd = c'.upToEnd → SameAnswer (q c) (q c')) :
    ServesAt caller 0 (lift q) q c :=
  .lift_ok hp (hrest ▸ .refl _) hdepth (Nat.le_of_eq (congrArg List.length hrest)) hagrees

theorem ServesAt.pure (a : α) : ServesAt caller 0 (pure a) (pure a) c :=
  .lift_stays rfl rfl rfl fun _ hc' => .ok hc'

theorem pure_serves (a : α) : Serves caller fuel cost 0 (pure a) (pure a) :=
  fun _ _ => .pure a

theorem refuse_serves (cause : SyntaxCause) :
    Serves caller fuel cost m (lift (Parser.refuse cause : Parser α)) (Parser.refuse cause) := by
  refine fun c _ => ⟨.done (.refl _), rfl, fun a d hd => (by cases hd), fun c' hc' => ?_⟩
  change SameAnswer (.error ⟨cause, c.peek⟩ c) (.error ⟨cause, c'.peek⟩ c')
  rw [Cursor.peek_eq_of_upToEnd hc']
  exact .error hc'

theorem peek_serves : Serves caller fuel cost 0 (lift Parser.peek) Parser.peek := by
  refine fun c _ => .lift_stays rfl rfl rfl fun c' hc' => ?_
  change SameAnswer (.ok c.peek c) (.ok c'.peek c')
  rw [Cursor.peek_eq_of_upToEnd hc']
  exact .ok hc'

theorem nextIs_serves (s : Symbol) :
    Serves caller fuel cost 0 (nextIs s) (Parser.nextIs s) := by
  refine fun c _ => .lift_stays rfl rfl rfl fun c' hc' => ?_
  change SameAnswer (.ok (c.peek.kind.isSymbol s) c) (.ok (c'.peek.kind.isSymbol s) c')
  rw [Cursor.peek_eq_of_upToEnd hc']
  exact .ok hc'

theorem atEnd_serves : Serves caller fuel cost 0 (lift Parser.atEnd) Parser.atEnd := by
  refine fun c _ => .lift_stays rfl rfl rfl fun c' hc' => ?_
  change SameAnswer (.ok c.atEnd c) (.ok c'.atEnd c')
  rw [Cursor.atEnd_eq_of_upToEnd hc']
  exact .ok hc'

theorem reference_serves (name : Token) :
    Serves caller fuel cost 0 (lift (Parser.reference name)) (Parser.reference name) := by
  refine fun c _ => .lift_stays rfl rfl rfl fun c' hc' => ?_
  obtain ⟨hrest, hid, hdepth, herrors⟩ := Cursor.upToEnd_eq_iff.mp hc'
  change SameAnswer (.ok (⟨c.nextId, name⟩ : Reference) _) (.ok ⟨c'.nextId, name⟩ _)
  rw [show c.nextId = c'.nextId from hid]
  exact .ok (Cursor.upToEnd_eq_iff.mpr ⟨hrest, rfl, hdepth, herrors⟩)

theorem report_serves (error : SyntaxError) :
    Serves caller fuel cost 0 (lift (Parser.report error)) (Parser.report error) := by
  refine fun c _ => .lift_stays rfl rfl rfl fun c' hc' => ?_
  obtain ⟨hrest, hid, hdepth, herrors⟩ := Cursor.upToEnd_eq_iff.mp hc'
  exact .ok (Cursor.upToEnd_eq_iff.mpr ⟨hrest, hid, hdepth, congrArg (· ++ [error]) herrors⟩)

/-- The next token may be reported before reading goes on. -/
theorem Serves.reportIf {b : Prop} [Decidable b] {error : Token → SyntaxError}
    (h : Serves caller fuel cost m p q) :
    Serves caller fuel cost m
      (if b then lift Parser.peek >>= fun t => lift (Parser.report (error t)) >>= fun _ => p else p)
      (if b then Parser.peek >>= fun t => Parser.report (error t) >>= fun _ => q else q) :=
  .ite (fun _ => .andThen peek_serves fun t => .andThen (report_serves (error t)) fun _ => h)
    fun _ => h

/-! ## Single tokens -/

theorem accept?_looks (recognise : TokenKind → Option α) : Looks (Parser.accept? recognise) := by
  intro c
  obtain hstays | ⟨a, t, ts, hrest, ht, hr, -⟩ := Parser.accept?_cases recognise c
  · refine .inl fun c' hc' => ?_
    obtain hstays' | ⟨a, t, ts', hrest', ht, hr, -⟩ := Parser.accept?_cases recognise c'
    · exact hstays'
    · obtain ⟨hsame, -⟩ := Cursor.upToEnd_eq_iff.mp hc'.symm
      rw [hrest'] at hsame
      obtain ⟨ts, hrest, -⟩ := exists_cons_of_upToEnd_eq hsame ht
      simp [Parser.accept?, hrest, ht, hr] at hstays
  · refine .inr ⟨(a, t), t, ts, hrest, ht, fun c' hc' => ?_⟩
    obtain ⟨hsame, -⟩ := Cursor.upToEnd_eq_iff.mp hc'
    rw [hrest] at hsame
    obtain ⟨ts', hrest', -⟩ := exists_cons_of_upToEnd_eq hsame ht
    exact ⟨ts', hrest', by simp [Parser.accept?, hrest', ht, hr]⟩

theorem accept_looks (test : TokenKind → Bool) : Looks (Parser.accept test) := by
  have haccept (c' : Cursor) (o : Option (Unit × Token)) (d : Cursor)
      (h : Parser.accept? (fun k => if test k then some () else none) c' = .ok o d) :
      Parser.accept test c' = .ok (o.map Prod.snd) d := by
    simp only [Parser.accept, Bind.bind, EStateM.bind, h]
    rfl
  intro c
  obtain hstays | ⟨a, t, ts, hrest, ht, htakes⟩ :=
    accept?_looks (fun k => if test k then some () else none) c
  · exact .inl fun c' hc' => haccept c' none c' (hstays c' hc')
  · refine .inr ⟨a.2, t, ts, hrest, ht, fun c' hc' => ?_⟩
    obtain ⟨ts', hrest', htakes'⟩ := htakes c' hc'
    exact ⟨ts', hrest', haccept c' (some a) _ htakes'⟩

theorem symbol_looks (s : Symbol) : Looks (Parser.symbol s) :=
  accept_looks _

theorem keyword_looks (k : Keyword) : Looks (Parser.keyword k) :=
  accept_looks _

/-- To try to take a token and go on in two ways. -/
theorem Serves.attempt {look : Parser (Option γ)} {f : Option γ → Traced β}
    {g : Option γ → Parser β} (hlook : Looks look)
    (hsome : ∀ a, Serves caller fuel (cost + 20) n (f (some a)) (g (some a)))
    (hnone : Serves caller fuel cost m (f none) (g none)) (hm : m ≤ n + 1) :
    Serves caller fuel cost m (lift look >>= f) (look >>= g) := by
  intro c hroom
  obtain hstays | ⟨a, t, ts, hrest, ht, htakes⟩ := hlook c
  · have hread := hstays c rfl
    refine ServesAt.bind (m := 0) (.lift_stays hread rfl rfl fun c' hc' => ?_) fun o d ho _ => ?_
    · rw [hread, hstays c' hc']
      exact .ok hc'
    · cases hread.symm.trans ho
      exact ⟨m, hnone c hroom, Nat.le_refl _⟩
  · obtain ⟨ts', hrest', hread⟩ := htakes c rfl
    obtain rfl : ts = ts' := by simpa [hrest] using hrest'
    have hlength : c.rest.length = ts.length + 1 := by rw [hrest, List.length_cons]
    refine ServesAt.bind (m := 1) (.lift_ok hread ?_ rfl ?_ fun c' hc' => ?_) fun o d ho _ => ?_
    · exact hrest ▸ (Onward.refl ts).cons ht
    · exact Nat.le_of_eq hlength.symm
    · obtain ⟨us, hus, hread'⟩ := htakes c' hc'
      obtain ⟨hsame, hid, hdepth, herrors⟩ := Cursor.upToEnd_eq_iff.mp hc'
      rw [hrest, hus] at hsame
      obtain ⟨_, hcons, htail⟩ := exists_cons_of_upToEnd_eq hsame ht
      cases hcons
      rw [hread, hread']
      exact .ok (Cursor.upToEnd_eq_iff.mpr ⟨htail, hid, hdepth, herrors⟩)
    · cases hread.symm.trans ho
      exact ⟨n, hsome a _ (by simp only; omega), by simp only; omega⟩

theorem lift_bind (p : Parser α) (g : α → Parser β) :
    lift (p >>= g) = lift p >>= fun a => lift (g a) := by
  refine Traced.ext rfl (funext fun c => ?_)
  simp only [lift, Bind.bind, List.nil_append]
  split <;> rfl

theorem expect_serves (test : TokenKind → Bool) (cause : SyntaxCause) :
    Serves caller fuel cost 1 (lift (Parser.expect test cause)) (Parser.expect test cause) := by
  rw [Parser.expect, lift_bind]
  exact .attempt (n := 0) (accept_looks test) (fun t => pure_serves t) (refuse_serves cause)
    (Nat.le_refl 1)

theorem expectSymbol_serves (s : Symbol) (place : SymbolPlace) :
    Serves caller fuel cost 1 (expectSymbol s place) (Parser.expectSymbol s place) :=
  expect_serves _ _

theorem expectName_serves (role : NameRole) :
    Serves caller fuel cost 1 (expectName role) (Parser.expectName role) :=
  expect_serves _ _

/-- After a symbol that the grammar requires, and that no cost is saved on. -/
theorem Serves.symbolAnd {s : Symbol} {place : SymbolPlace} {f : Token → Traced β}
    {g : Token → Parser β} (hf : ∀ t, Serves caller fuel cost m (f t) (g t)) :
    Serves caller fuel cost m (expectSymbol s place >>= f) (Parser.expectSymbol s place >>= g) :=
  .andThen ((expectSymbol_serves s place).weaken (Nat.le_refl _) (Nat.zero_le _)) hf

/-- After a name that the grammar requires. -/
theorem Serves.nameAnd {role : NameRole} {f : Token → Traced β} {g : Token → Parser β}
    (hf : ∀ t, Serves caller fuel cost m (f t) (g t)) :
    Serves caller fuel cost m (expectName role >>= f) (Parser.expectName role >>= g) :=
  .andThen ((expectName_serves role).weaken (Nat.le_refl _) (Nat.zero_le _)) hf

/-! ## Calls -/

/-- A call of a routine that stays at its depth. -/
theorem Serves.enter (hr : r ∈ caller.callees) (hcount : r.isCounted = false)
    (hdecl : r ≠ .declaration) (h : Serves r fuel cost m p q) :
    Serves caller fuel cost m (during r p) q := by
  intro c hroom
  have hc := h c hroom
  refine ⟨.call (.refl _) hr rfl (absurd · hdecl) (fun hcounted => ?_) ?_ (.done (.refl _)),
    hc.depth, hc.takes, hc.agrees⟩
  · rw [hcount] at hcounted
    cases hcounted
  · rw [Routine.innerDepth, if_neg (by simp [hcount])]
    exact hc.runs

/-- What answers alike one level deeper answers alike. -/
theorem sameAnswer_nested {p q : Parser α} {c' : Cursor} (hc' : c.upToEnd = c'.upToEnd)
    (h : ∀ d', Cursor.upToEnd { c with depth := c.depth + 1 } = d'.upToEnd →
      SameAnswer (p { c with depth := c.depth + 1 }) (q d')) :
    SameAnswer (Parser.nested p c) (Parser.nested q c') := by
  have hpeek := Cursor.peek_eq_of_upToEnd hc'
  obtain ⟨hrest, hid, hdepth, herrors⟩ := Cursor.upToEnd_eq_iff.mp hc'
  unfold Parser.nested
  rw [← hdepth, ← hpeek]
  split
  · exact .error hc'
  · have hanswer := h { c' with depth := c.depth + 1 }
      (Cursor.upToEnd_eq_iff.mpr ⟨hrest, hid, rfl, herrors⟩)
    generalize p _ = answer, q _ = answer' at hanswer
    cases hanswer with
    | ok hd =>
      obtain ⟨hrest, hid, hdepth, herrors⟩ := Cursor.upToEnd_eq_iff.mp hd
      exact .ok (Cursor.upToEnd_eq_iff.mpr ⟨hrest, hid, congrArg (· - 1) hdepth, herrors⟩)
    | error hd =>
      obtain ⟨hrest, hid, hdepth, herrors⟩ := Cursor.upToEnd_eq_iff.mp hd
      exact .error (Cursor.upToEnd_eq_iff.mpr ⟨hrest, hid, congrArg (· - 1) hdepth, herrors⟩)

/-- A call of a routine that goes one level deeper. -/
theorem Serves.enterNested (hr : r ∈ caller.callees) (hcount : r.isCounted = true)
    (h : Serves r fuel cost m p q) :
    Serves caller fuel cost m (during r (nested p)) (Parser.nested q) := by
  have hdecl : r ≠ .declaration := by
    rintro rfl
    cases hcount
  intro c hroom
  have hc := h { c with depth := c.depth + 1 } hroom
  have hagrees (c' : Cursor) (hc' : c.upToEnd = c'.upToEnd) :
      SameAnswer (Parser.nested p.parser c) (Parser.nested q c') :=
    sameAnswer_nested hc' hc.agrees
  by_cases hfull : Parser.maxNesting ≤ c.depth
  · have hread : Parser.nested p.parser c = .error ⟨.tooMuchNesting, c.peek⟩ c := if_pos hfull
    have hcalls : (nested p).calls c = [] := if_pos hfull
    have hfinish := Parser.finish_of_error hread
    refine ⟨.call (.refl _) hr rfl (absurd · hdecl) (fun _ _ => hcalls) ?_ (.done (.refl _)),
      congrArg Cursor.depth hfinish, fun a d ha => ?_, hagrees⟩
    · rw [hcalls]
      exact .done (congrArg Cursor.rest hfinish ▸ .refl _)
    · cases hread.symm.trans ha
  · have hcalls : (nested p).calls c = p.calls { c with depth := c.depth + 1 } := if_neg hfull
    have hfinish : (nested p).parser.finish c =
        { p.parser.finish { c with depth := c.depth + 1 } with
          depth := (p.parser.finish { c with depth := c.depth + 1 }).depth - 1 } := by
      simp only [Parser.finish, parser_nested, Parser.nested, if_neg hfull]
      cases p.parser { c with depth := c.depth + 1 } <;> rfl
    refine ⟨.call (.refl _) hr rfl (absurd · hdecl) (fun _ h => absurd h hfull) ?_
      (.done (.refl _)), ?_, fun a d ha => ?_, hagrees⟩
    · rw [hcalls, hfinish, Routine.innerDepth, if_pos hcount]
      exact hc.runs
    · change ((nested p).parser.finish c).depth = c.depth
      rw [hfinish]
      exact congrArg (· - 1) hc.depth
    · simp only [parser_during, parser_nested, Parser.nested, if_neg hfull] at ha
      cases hp : p.parser { c with depth := c.depth + 1 } with
      | ok b d' =>
        rw [hp] at ha
        cases ha
        exact hc.takes a d' hp
      | error e d' =>
        rw [hp] at ha
        cases ha

/-- A call for a declaration where there are more tokens takes or skips one of them, as
what stands where it fails is skipped too. -/
theorem Serves.enterRecovering {p : Traced Stmt} {q : Parser Stmt}
    (hr : .declaration ∈ caller.callees) (h : Serves .declaration fuel cost 1 p q)
    (hmore : c.atEnd = false) (hroom : 20 * c.rest.length + cost ≤ fuel) :
    ServesAt caller 1 (during .declaration (recovering p)) (Parser.recovering q) c := by
  have hc := h c hroom
  have hagrees (c' : Cursor) (hc' : c.upToEnd = c'.upToEnd) :
      SameAnswer (Parser.recovering p.parser c) (Parser.recovering q c') := by
    have hanswer := hc.agrees c' hc'
    unfold Parser.recovering
    generalize p.parser c = answer, q c' = answer' at hanswer
    cases hanswer with
    | ok hd => exact .ok hd
    | @error e d d' hd =>
      obtain ⟨hrest, hid, hdepth, herrors⟩ := Cursor.upToEnd_eq_iff.mp hd
      refine .ok (Cursor.upToEnd_eq_iff.mpr ⟨?_, hid, hdepth, congrArg (· ++ [e]) herrors⟩)
      change upToEnd (resume d.rest) = upToEnd (resume d'.rest)
      rw [upToEnd_resume, upToEnd_resume, hrest]
  -- What the body of the declaration leaves is cut short after an error alone.
  obtain ⟨s, d, hread, hrest, hdepth, hlength⟩ : ∃ s d, Parser.recovering p.parser c = .ok s d ∧
      Onward (p.parser.finish c).rest d.rest ∧ d.depth = c.depth ∧
        d.rest.length < c.rest.length := by
    cases hp : p.parser c with
    | ok s d =>
      have hfinish := Parser.finish_of_ok hp
      refine ⟨some s, d, by simp only [Parser.recovering, hp], hfinish ▸ .refl _, ?_,
        hc.takes s d hp⟩
      exact hfinish ▸ hc.depth
    | error e d =>
      have hfinish := Parser.finish_of_error hp
      refine ⟨none, { d.report e with rest := resume d.rest }, by simp only [Parser.recovering, hp],
        ?_, hfinish ▸ hc.depth, ?_⟩
      · exact hfinish ▸ onward_resume _
      · have honward : Onward c.rest d.rest := hfinish ▸ hc.runs.onward
        exact Cursor.length_resume_lt honward hmore
  have hfinish : (during .declaration (recovering p)).parser.finish c = d :=
    Parser.finish_of_ok hread
  refine ⟨.call (.refl _) hr rfl (fun _ _ => hfinish ▸ hlength) (fun hcount => by cases hcount) ?_
    (.done (.refl _)), hfinish ▸ hdepth, fun s' d' hs => ?_, hagrees⟩
  · have hruns := hc.runs.append (.done hrest)
    rw [List.append_nil] at hruns
    exact hfinish ▸ hruns
  · cases hread.symm.trans hs
    exact hlength

end Traced

end Lox
