import Lox.Proofs.Provenance.Failures
import Lox.Proofs.Recursion.Composition
import Lox.Proofs.Reporting.Places

/-!
# The order of syntax errors

A parser reports errors at tokens that it comes to, from the front to the back, and an error
that stops it is at the next token. The one exception is a missing target: it is reported at
the sign of its assignment, but only once the value behind the sign has been read, and with
that whatever is reported in the value.

## Implementation notes

Errors in an expression that is read are in front of the next token, since an expression that
is read has taken the tokens that are blamed in it. Behind a declaration that is skipped, the
next token can be the blamed one, if that is the end. So there are two limits up to which
errors may go, and expressions are done with the closer one first.
-/

namespace Lox

/-! ## Values that are assigned -/

/-- Whether a token stands in a value that is read behind a sign. -/
def StandsInValue (tokens : List Token) (sign inside : Token) : Prop :=
  ∃ fuel c value d read, sign :: c.rest <:+ tokens ∧
    Parser.assignment fuel c = .ok value d ∧ c.rest = read ++ d.rest ∧ inside ∈ read

/-- Whether an error is in a value that another error has no target for. -/
def IsInUntargeted (tokens : List Token) (inside missing : SyntaxError) : Prop :=
  missing.cause = .invalidAssignmentTarget ∧ StandsInValue tokens missing.token inside.token

theorem IsInUntargeted.mono {tokens tokens' : List Token} {b b' : SyntaxError}
    (h : IsInUntargeted tokens b b') (htokens : tokens <:+ tokens') :
    IsInUntargeted tokens' b b' := by
  obtain ⟨hcause, fuel, c, value, d, read, hrest, hread⟩ := h
  exact ⟨hcause, fuel, c, value, d, read, hrest.trans htokens, hread⟩

/-! ## Errors between two cursors -/

/-- A relation of the line of an error to that of a token that the error is not behind. -/
structure IsLimit (R : Nat → Nat → Prop) : Prop where
  of_lt {m n : Nat} : m < n → R m n
  le {m n : Nat} : R m n → m ≤ n
  trans_le {m n k : Nat} : R m n → n ≤ k → R m k

theorem IsLimit.lt : IsLimit (· < ·) :=
  ⟨id, Nat.le_of_lt, Nat.lt_of_lt_of_le⟩

theorem IsLimit.le_self : IsLimit (· ≤ ·) :=
  ⟨Nat.le_of_lt, id, Nat.le_trans⟩

namespace Cursor

/-- Whether the tokens that are left are on lines of their own, one behind the other, and
there is an end among them. -/
structure Rises (c : Cursor) : Prop where
  lines : c.rest.Pairwise fun t u => t.line < u.line
  ends : c.Ends

/-- Whether errors are what is reported between two cursors: in order, at tokens that were
left at the first, up to the next token at the second. -/
structure Tells (R : Nat → Nat → Prop) (c : Cursor) (bs : List SyntaxError) (d : Cursor) :
    Prop where
  rest : d.rest <:+ c.rest
  ends : d.Ends
  errors : d.errors = c.errors ++ bs
  among : ∀ b ∈ bs, b.token ∈ c.rest
  upTo : ∀ b ∈ bs, R b.token.line d.peek.line
  order : Blame.InOrder (IsInUntargeted c.rest) bs

variable {R : Nat → Nat → Prop} {c d d' : Cursor} {bs bs' : List SyntaxError}

theorem Ends.peek_mem (h : c.Ends) : c.peek ∈ c.rest := by
  obtain ⟨t, ht, -⟩ := h
  obtain ⟨u, us, hrest⟩ := List.exists_cons_of_ne_nil (List.ne_nil_of_mem ht)
  rw [peek, hrest]
  exact List.mem_cons_self

theorem Rises.cons_peek (h : c.Rises) :
    ∃ ts, c.rest = c.peek :: ts ∧ ∀ t ∈ ts, c.peek.line < t.line := by
  obtain ⟨t, ts, hrest⟩ := List.exists_cons_of_ne_nil (List.ne_nil_of_mem h.ends.peek_mem)
  have hlines := h.lines
  rw [hrest] at hlines
  rw [peek, hrest]
  exact ⟨ts, rfl, (List.pairwise_cons.mp hlines).1⟩

/-- All tokens that are left are behind the next one. -/
theorem Rises.peek_le (h : c.Rises) {t : Token} (ht : t ∈ c.rest) : c.peek.line ≤ t.line := by
  obtain ⟨ts, hrest, hlt⟩ := h.cons_peek
  rw [hrest] at ht
  obtain rfl | ht := List.mem_cons.mp ht
  · exact Nat.le_refl _
  · exact Nat.le_of_lt (hlt t ht)

/-- Where a token has been taken, the next one is another one. -/
theorem Rises.peek_lt (h : c.Rises) (hrest : d.rest <:+ c.rest) (hends : d.Ends)
    (hlength : d.rest.length < c.rest.length) : c.peek.line < d.peek.line := by
  obtain ⟨ts, hts, hlt⟩ := h.cons_peek
  rw [hts] at hrest hlength
  obtain heq | hsuffix := List.suffix_cons_iff.mp hrest
  · rw [heq] at hlength
    exact absurd hlength (Nat.lt_irrefl _)
  · exact hlt _ (hsuffix.subset hends.peek_mem)

theorem Rises.of_suffix (h : c.Rises) (hrest : d.rest <:+ c.rest) (hends : d.Ends) : d.Rises :=
  ⟨h.lines.sublist hrest.sublist, hends⟩

namespace Tells

theorem rises (h : c.Tells R bs d) (hc : c.Rises) : d.Rises :=
  hc.of_suffix h.rest h.ends

theorem peek_le (h : c.Tells R bs d) (hc : c.Rises) : c.peek.line ≤ d.peek.line :=
  hc.peek_le (h.rest.subset h.ends.peek_mem)

/-- Nothing is reported. -/
theorem nil (hrest : d.rest <:+ c.rest) (hends : d.Ends) (herrors : d.errors = c.errors) :
    c.Tells R [] d :=
  ⟨hrest, hends, by rw [herrors, List.append_nil], List.forall_mem_nil _, List.forall_mem_nil _,
    Blame.InOrder.nil⟩

theorem mono {R' : Nat → Nat → Prop} (h : c.Tells R bs d) (hR : ∀ m n, R m n → R' m n) :
    c.Tells R' bs d :=
  ⟨h.rest, h.ends, h.errors, h.among, fun b hb => hR _ _ (h.upTo b hb), h.order⟩

/-- What is reported later is further back. -/
theorem trans (hR : IsLimit R) (hc : c.Rises) (h : c.Tells R bs d) (h' : d.Tells R bs' d') :
    c.Tells R (bs ++ bs') d' where
  rest := h'.rest.trans h.rest
  ends := h'.ends
  errors := by rw [h'.errors, h.errors, List.append_assoc]
  among := List.forall_mem_append.mpr ⟨h.among, fun b hb => h.rest.subset (h'.among b hb)⟩
  upTo := List.forall_mem_append.mpr
    ⟨fun b hb => hR.trans_le (h.upTo b hb) (h'.peek_le (h.rises hc)), h'.upTo⟩
  order := by
    refine h.order.append (h'.order.mono fun b b' hb => hb.mono h.rest) fun b hb b' hb' => .inl ?_
    exact (hR.le (h.upTo b hb)).trans ((h.rises hc).peek_le (h'.among b' hb'))

/-- An error at the next token is in front of all that is reported from there on. -/
theorem cons (hc : c.Rises) (cause : SyntaxCause) (hlimit : R c.peek.line d.peek.line)
    (h : (c.report ⟨cause, c.peek⟩).Tells R bs d) : c.Tells R (⟨cause, c.peek⟩ :: bs) d where
  rest := h.rest
  ends := h.ends
  errors := h.errors.trans (List.append_assoc _ _ _)
  among := List.forall_mem_cons.mpr ⟨hc.ends.peek_mem, h.among⟩
  upTo := List.forall_mem_cons.mpr ⟨hlimit, h.upTo⟩
  order := List.pairwise_cons.mpr ⟨fun b hb => .inl (hc.peek_le (h.among b hb)), h.order⟩

/-- An error at the next token is behind all that was reported on the way there. -/
theorem snoc {e : SyntaxError} (h : c.Tells (· ≤ ·) bs d) (htoken : e.token = d.peek) :
    c.Tells (· ≤ ·) (bs ++ [e]) (d.report e) where
  rest := h.rest
  ends := h.ends
  errors := by
    rw [← List.append_assoc, ← h.errors]
    rfl
  among := List.forall_mem_append.mpr ⟨h.among,
    List.forall_mem_singleton.mpr (htoken ▸ h.rest.subset h.ends.peek_mem)⟩
  upTo := List.forall_mem_append.mpr ⟨h.upTo,
    List.forall_mem_singleton.mpr (htoken ▸ Nat.le_refl _)⟩
  order := by
    refine h.order.append (.singleton e) fun b hb b' hb' => .inl ?_
    cases List.mem_singleton.mp hb'
    exact htoken ▸ h.upTo b hb

end Tells

end Cursor

namespace Traced

variable {α β : Type} {R : Nat → Nat → Prop} {p : Traced α} {f : α → Traced β}

/-- Whether a parser reports errors in order from a cursor on, up to the next token that it
leaves. An error that stops it is there. -/
structure OrdersAt (R : Nat → Nat → Prop) (p : Traced α) (c : Cursor) : Prop where
  ok : ∀ a d, p.parser c = .ok a d → ∃ bs, c.Tells R bs d
  error : ∀ e d, p.parser c = .error e d → e.token = d.peek ∧ ∃ bs, c.Tells (· ≤ ·) bs d

/-- Whether a parser reports errors in order. -/
def Orders (R : Nat → Nat → Prop) (p : Traced α) : Prop :=
  ∀ c : Cursor, c.Rises → p.OrdersAt R c

namespace OrdersAt

variable {c d : Cursor}

/-- A parser that goes on without a report. -/
theorem of_ok {a : α} (h : p.parser c = .ok a d) (hrest : d.rest <:+ c.rest) (hends : d.Ends)
    (herrors : d.errors = c.errors) : p.OrdersAt R c where
  ok a' d' hok := by
    cases h.symm.trans hok
    exact ⟨[], .nil hrest hends herrors⟩
  error e d' herror := by cases h.symm.trans herror

/-- A parser that stops at the next token without another report. -/
theorem of_error {e : SyntaxError} (h : p.parser c = .error e d) (htoken : e.token = d.peek)
    (hrest : d.rest <:+ c.rest) (hends : d.Ends) (herrors : d.errors = c.errors) :
    p.OrdersAt R c where
  ok a d' hok := by cases h.symm.trans hok
  error e' d' herror := by
    cases h.symm.trans herror
    exact ⟨htoken, [], .nil hrest hends herrors⟩

theorem mono {R' : Nat → Nat → Prop} (h : p.OrdersAt R c) (hR : ∀ m n, R m n → R' m n) :
    p.OrdersAt R' c where
  ok a d hok := (h.ok a d hok).imp fun _ hbs => hbs.mono hR
  error := h.error

/-- What comes after a parser is read from where that stops. -/
theorem bind (hR : IsLimit R) (hc : c.Rises) (hp : p.OrdersAt R c)
    (hf : ∀ a d, p.parser c = .ok a d → d.Rises → (f a).OrdersAt R d) : (p >>= f).OrdersAt R c := by
  cases hpc : p.parser c with
  | error e d =>
    have hbind : (p >>= f).parser c = .error e d := by
      simp only [Bind.bind, EStateM.bind, hpc]
    refine ⟨fun b d' hok => ?_, fun e' d' herror => ?_⟩
    · cases hbind.symm.trans hok
    · cases hbind.symm.trans herror
      exact hp.error e d hpc
  | ok a d =>
    have hbind : (p >>= f).parser c = (f a).parser d := by
      simp only [Bind.bind, EStateM.bind, hpc]
    obtain ⟨bs, hbs⟩ := hp.ok a d hpc
    have ha := hf a d hpc (hbs.rises hc)
    refine ⟨fun b d' hok => ?_, fun e d' herror => ?_⟩
    · obtain ⟨bs', hbs'⟩ := ha.ok b d' (hbind.symm.trans hok)
      exact ⟨bs ++ bs', hbs.trans hR hc hbs'⟩
    · obtain ⟨htoken, bs', hbs'⟩ := ha.error e d' (hbind.symm.trans herror)
      exact ⟨htoken, bs ++ bs', (hbs.mono fun m n => hR.le).trans .le_self hc hbs'⟩

end OrdersAt

namespace Orders

/-- A parser that only looks at its cursor, or numbers a reference. -/
theorem lift_of_ok {q : Parser α} (h : ∀ c, ∃ a d, q c = .ok a d ∧ d.rest = c.rest ∧
    d.errors = c.errors) : (lift q).Orders R := by
  intro c hc
  obtain ⟨a, d, hq, hrest, herrors⟩ := h c
  have hends : d.Ends := by
    rw [Cursor.Ends, hrest]
    exact hc.ends
  exact .of_ok hq (hrest ▸ List.suffix_refl _) hends herrors

theorem refuse (cause : SyntaxCause) : (lift (Parser.refuse cause) : Traced α).Orders R :=
  fun _ hc => .of_error rfl rfl (List.suffix_refl _) hc.ends rfl

theorem accept? (recognise : TokenKind → Option α) :
    (lift (Parser.accept? recognise)).Orders R := by
  intro c hc
  obtain hstays | ⟨a, t, ts, hrest, hend, -, htakes⟩ := Parser.accept?_cases recognise c
  · exact .of_ok hstays (List.suffix_refl _) hc.ends rfl
  · exact .of_ok htakes (hrest ▸ List.suffix_cons t ts) (hc.ends.tail hrest hend) rfl

theorem bind (hR : IsLimit R) (hp : p.Orders R) (hf : ∀ a, (f a).Orders R) :
    (p >>= f).Orders R :=
  fun c hc => (hp c hc).bind hR hc fun a d _ hd => hf a d hd

/-- The next token is reported, and then taken. -/
theorem reporting (hR : IsLimit R) (cause : SyntaxCause) (hp : p.Orders R) (htakes : p.Takes) :
    (lift Parser.peek >>= fun t => lift (Parser.report ⟨cause, t⟩) >>= fun _ => p).Orders R := by
  intro c hc
  have hreported := hp (c.report ⟨cause, c.peek⟩) ⟨hc.lines, hc.ends⟩
  refine ⟨fun a d hok => ?_, fun e d herror => ?_⟩
  · obtain ⟨bs, hbs⟩ := hreported.ok a d hok
    have hlt := hc.peek_lt hbs.rest hbs.ends (htakes (c.report ⟨cause, c.peek⟩) a d hok)
    exact ⟨_, hbs.cons hc cause (hR.of_lt hlt)⟩
  · obtain ⟨htoken, bs, hbs⟩ := hreported.error e d herror
    exact ⟨htoken, _, hbs.cons hc cause (hc.peek_le (hbs.rest.subset hbs.ends.peek_mem))⟩

theorem during (r : Routine) (hp : p.Orders R) : (during r p).Orders R :=
  fun c hc => ⟨(hp c hc).ok, (hp c hc).error⟩

/-- The depth has no part in what is reported. -/
theorem nested (hp : p.Orders R) : (nested p).Orders R := by
  intro c hc
  by_cases hdepth : Parser.maxNesting ≤ c.depth
  · have hfull : (Traced.nested p).parser c = .error ⟨.tooMuchNesting, c.peek⟩ c := by
      simp only [parser_nested, Parser.nested, if_pos hdepth]
    exact .of_error hfull rfl (List.suffix_refl _) hc.ends rfl
  · have hinner := hp { c with depth := c.depth + 1 } ⟨hc.lines, hc.ends⟩
    refine ⟨fun a d hok => ?_, fun e d herror => ?_⟩
    · simp only [parser_nested, Parser.nested, if_neg hdepth] at hok
      split at hok
      · rename_i a' d' hread
        cases hok
        obtain ⟨bs, hbs⟩ := hinner.ok a d' hread
        exact ⟨bs, hbs.rest, hbs.ends, hbs.errors, hbs.among, hbs.upTo, hbs.order⟩
      · cases hok
    · simp only [parser_nested, Parser.nested, if_neg hdepth] at herror
      split at herror
      · cases herror
      · rename_i e' d' hread
        cases herror
        obtain ⟨htoken, bs, hbs⟩ := hinner.error e d' hread
        exact ⟨htoken, bs, hbs.rest, hbs.ends, hbs.errors, hbs.among, hbs.upTo, hbs.order⟩

theorem composes (hR : IsLimit R) : Composes fun {_} => Orders R where
  cut _ hc := .of_error rfl rfl (List.suffix_refl _) hc.ends rfl
  pure a := lift_of_ok fun c => ⟨a, c, rfl, rfl, rfl⟩
  refuse := refuse
  accept? := accept?
  nextIs _ := lift_of_ok fun c => ⟨_, c, rfl, rfl, rfl⟩
  atEnd := lift_of_ok fun c => ⟨_, c, rfl, rfl, rfl⟩
  reference _ := lift_of_ok fun _ => ⟨_, _, rfl, rfl, rfl⟩
  bind := bind hR
  reporting cause _ := reporting hR cause
  enter r _ _ _ hp := hp.during r
  enterNested r _ _ hp := hp.nested.during r

end Orders

/-! ## Assignments -/

/-- A value that is read for no target tells what is in it, and then the sign in front of
it. -/
theorem tells_untargeted {c d : Cursor} {sign : Token} {ts : List Token} {fuel : Nat}
    {value : Expr} {bs : List SyntaxError} (hc : c.Rises) (hrest : c.rest = sign :: ts)
    (hread : Parser.assignment fuel { c with rest := ts } = .ok value d)
    (h : Cursor.Tells (· < ·) { c with rest := ts } bs d) :
    c.Tells (· < ·) (bs ++ [⟨.invalidAssignmentTarget, sign⟩])
      (d.report ⟨.invalidAssignmentTarget, sign⟩) := by
  have hlines := hc.lines
  rw [hrest, List.pairwise_cons] at hlines
  have htail : ts <:+ c.rest := hrest ▸ List.suffix_cons sign ts
  obtain ⟨read, hsplit⟩ := h.rest
  have hinside : ∀ b ∈ bs, b.token ∈ read := by
    intro b hb
    have hmem : b.token ∈ ts := h.among b hb
    rw [← show read ++ d.rest = ts from hsplit] at hmem
    refine (List.mem_append.mp hmem).resolve_right fun hbehind => ?_
    have hd : d.Rises := ⟨hlines.2.sublist h.rest.sublist, h.ends⟩
    exact Nat.lt_irrefl _ (Nat.lt_of_lt_of_le (h.upTo b hb) (hd.peek_le hbehind))
  constructor
  · exact h.rest.trans htail
  · exact h.ends
  · rw [← List.append_assoc, ← h.errors]
    rfl
  · refine List.forall_mem_append.mpr ⟨fun b hb => htail.subset (h.among b hb), ?_⟩
    exact List.forall_mem_singleton.mpr (hrest ▸ List.mem_cons_self)
  · refine List.forall_mem_append.mpr ⟨h.upTo, List.forall_mem_singleton.mpr ?_⟩
    exact hlines.1 _ (h.rest.subset h.ends.peek_mem)
  · refine (h.order.mono fun b b' hb => hb.mono htail).append (.singleton _) fun b hb b' hb' => ?_
    cases List.mem_singleton.mp hb'
    exact .inr ⟨rfl, fuel, { c with rest := ts }, value, d, read, hrest ▸ List.suffix_refl _,
      hread, hsplit.symm, hinside b hb⟩

theorem symbol_cases (s : Symbol) (c : Cursor) :
    Parser.symbol s c = .ok none c ∨ ∃ t ts, c.rest = t :: ts ∧ t.isEnd = false ∧
      Parser.symbol s c = .ok (some t) { c with rest := ts } := by
  obtain hstays | ⟨a, t, ts, hrest, hend, -, htakes⟩ := Parser.accept?_cases
    (fun k => if k.isSymbol s then some () else none) c
  · left
    simp only [Parser.symbol, Parser.accept, Bind.bind, EStateM.bind, hstays]
    rfl
  · refine .inr ⟨t, ts, hrest, hend, ?_⟩
    simp only [Parser.symbol, Parser.accept, Bind.bind, EStateM.bind, htakes]
    rfl

/-- An assignment without a target tells what is in its value and then that. -/
theorem Orders.untargeted {fuel : Nat} (hvalue : (Traced.assignment fuel).Orders (· < ·))
    (target : Expr) :
    Orders (· < ·) (do
      match ← symbol .equal with
      | none => return target
      | some equals =>
          let _ ← Traced.assignment fuel
          lift (Parser.report ⟨.invalidAssignmentTarget, equals⟩)
          return target) := by
  intro c hc
  obtain hstays | ⟨sign, ts, hrest, hend, htakes⟩ := symbol_cases .equal c
  · refine .of_ok (a := target) (d := c) ?_ (List.suffix_refl _) hc.ends rfl
    simp only [parser_symbol, Bind.bind, EStateM.bind, hstays]
    rfl
  have hv := hvalue { c with rest := ts }
    (hc.of_suffix (hrest ▸ List.suffix_cons sign ts) (hc.ends.tail hrest hend))
  constructor
  · intro a d hok
    simp only [parser_symbol, Bind.bind, EStateM.bind, htakes] at hok
    cases hread : (Traced.assignment fuel).parser { c with rest := ts } with
    | error e d' => simp [hread] at hok
    | ok value d' =>
      simp only [hread] at hok
      cases hok
      obtain ⟨bs, hbs⟩ := hv.ok value d' hread
      rw [(erasesExpressions fuel).assignment] at hread
      exact ⟨_, tells_untargeted hc hrest hread hbs⟩
  · intro e d herror
    simp only [parser_symbol, Bind.bind, EStateM.bind, htakes] at herror
    cases hread : (Traced.assignment fuel).parser { c with rest := ts } with
    | ok value d' =>
      simp only [hread] at herror
      cases herror
    | error e' d' =>
      simp only [hread] at herror
      cases herror
      obtain ⟨htoken, bs, hbs⟩ := hv.error e d hread
      have htail : c.Tells (· ≤ ·) [] { c with rest := ts } :=
        .nil (hrest ▸ List.suffix_cons sign ts) (hc.ends.tail hrest hend) rfl
      exact ⟨htoken, _, htail.trans .le_self hc hbs⟩

/-- What is reported in an expression is in front of the token behind it. -/
theorem Orders.composesExpressions : ComposesExpressions fun {_} => Orders (· < ·) where
  toComposes := composes .lt
  assignment fuel htarget hvalue := by
    have h := composes .lt
    rw [Traced.assignment]
    refine h.enter _ rfl (by decide) (h.bind htarget fun target => ?_)
    cases target with
    | «variable» target =>
      exact h.attempt (h.symbol _) (fun equals => h.bind hvalue fun value =>
        h.bind (h.reference _) fun r => h.pure _) (h.pure _)
    | get object name =>
      exact h.attempt (h.symbol _) (fun equals => h.bind hvalue fun value => h.pure _) (h.pure _)
    | _ => exact untargeted hvalue _

/-! ## Declarations -/

/-- An error that ends a declaration is behind all that was reported in it, and what is read
next is not in front of it. -/
theorem Orders.recovering {p : Traced Stmt} (hp : p.Orders (· ≤ ·)) :
    (recovering p).Orders (· ≤ ·) := by
  intro c hc
  cases hread : p.parser c with
  | ok s d =>
    refine ⟨fun a d' hok => ?_, fun e d' herror => ?_⟩
    · simp only [parser_recovering, Parser.recovering, hread] at hok
      cases hok
      exact (hp c hc).ok s d hread
    · simp only [parser_recovering, Parser.recovering, hread] at herror
      cases herror
  | error e d =>
    refine ⟨fun a d' hok => ?_, fun e' d' herror => ?_⟩
    · simp only [parser_recovering, Parser.recovering, hread] at hok
      cases hok
      obtain ⟨htoken, bs, hbs⟩ := (hp c hc).error e d hread
      have hresumed : (d.report e).Tells (· ≤ ·) [] { d.report e with rest := resume d.rest } :=
        .nil (Parser.resume_suffix _) (resume_ends hbs.ends) rfl
      exact ⟨_, (hbs.snoc htoken).trans .le_self hc hresumed⟩
    · simp only [parser_recovering, Parser.recovering, hread] at herror
      cases herror

/-- What is reported in a program is in order. -/
theorem Orders.composesDeclarations : ComposesDeclarations fun {_} => Orders (· ≤ ·) where
  toComposes := composes .le_self
  assignment fuel _ _ := fun c hc =>
    ((composesExpressions.expressions (fuel + 1)).assignment c hc).mono fun _ _ => Nat.le_of_lt
  declaration _ _ heq hbody := by
    rw [heq]
    exact hbody.recovering.during _

/-! ## Runs -/

/-- What a run fails with is in order. -/
theorem Orders.of_run_error (h : p.Orders (· ≤ ·)) {tokens : List Token} {firstId : NodeId}
    {failure : Failure} (hlines : tokens.Pairwise fun t u => t.line < u.line)
    (hends : ∃ t ∈ tokens, t.isEnd = true)
    (hrun : (p.parser.run tokens firstId).1 = .error failure) :
    ∃ bs : List SyntaxError, failure.diagnostics = bs.map .syntactic ∧ bs ≠ [] ∧
      (∀ b ∈ bs, b.token ∈ tokens) ∧ Blame.InOrder (IsInUntargeted tokens) bs := by
  have hfirst := h ⟨tokens, firstId, 0, []⟩ ⟨hlines, hends⟩
  unfold Parser.run at hrun
  cases hp : p.parser ⟨tokens, firstId, 0, []⟩ with
  | error e c =>
    obtain ⟨htoken, bs, hbs⟩ := hfirst.error e c hp
    simp only [hp, Except.error.injEq] at hrun
    have herrors : c.errors = bs := hbs.errors
    have hall := hbs.snoc htoken
    refine ⟨bs ++ [e], ?_, by simp, hall.among, hall.order⟩
    rw [← hrun, herrors, (Failure.endingIn_syntactic e bs).2]
  | ok a c =>
    obtain ⟨bs, hbs⟩ := hfirst.ok a c hp
    rw [hp] at hrun
    have herrors : c.errors = bs := hbs.errors
    obtain ⟨-, hnone⟩ | ⟨failure', hsome, -, hdiagnostics⟩ := Failure.ofList?_syntactic c.errors
    · simp [hnone] at hrun
    · simp only [hsome, Except.error.injEq] at hrun
      rw [hrun, herrors] at hdiagnostics
      refine ⟨bs, hdiagnostics, ?_, hbs.among, hbs.order⟩
      rintro rfl
      rw [herrors] at hsome
      cases hsome

end Traced

end Lox
