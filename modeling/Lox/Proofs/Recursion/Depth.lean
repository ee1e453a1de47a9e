import Lox.Proofs.Recursion.Composition
import Lox.Proofs.Recursion.Nesting

/-!
# The depth is put back

Whether a parser succeeds or fails, and however deep in it an error was raised or left
behind, it ends at the depth at which it started. In between, the depth is that of the
start and one more for each block and expression that is being read. So nothing is left
over from an error, and where reading goes on after one, the rest is read as if there had
been none.

## Implementation notes

What a parser does is the same whatever has been recorded before, and what it records is
put behind that. Together with the depth this says what a declaration does in a cursor
that has no errors.
-/

namespace Lox

/-- The calls that are made while some routines are active, each called by the one in front
of it. -/
inductive Makes : List Call → List Routine → Call → Prop
  | here {calls call} : call ∈ calls → Makes calls [] call
  | inside {calls r start finish inner rs call} : .of r start finish inner ∈ calls →
      Makes inner rs call → Makes calls (r :: rs) call

namespace Makes

variable {calls others inner : List Call} {rs : List Routine} {call : Call}

theorem of_append (h : Makes (calls ++ others) rs call) :
    Makes calls rs call ∨ Makes others rs call := by
  cases h with
  | here hmem => exact (List.mem_append.mp hmem).imp .here .here
  | inside hmem hcall => exact (List.mem_append.mp hmem).imp (.inside · hcall) (.inside · hcall)

theorem of_call {r : Routine} {start finish : Cursor}
    (h : Makes [.of r start finish inner] rs call) :
    rs = [] ∧ call = .of r start finish inner ∨ ∃ rs', rs = r :: rs' ∧ Makes inner rs' call := by
  cases h with
  | here hmem => exact .inl ⟨rfl, List.mem_singleton.mp hmem⟩
  | inside hmem hcall =>
    cases List.mem_singleton.mp hmem
    exact .inr ⟨_, rfl, hcall⟩

theorem not_nil : ¬ Makes [] rs call := by
  rintro (hmem | ⟨hmem, -⟩) <;> cases hmem

theorem not_cut {r : Routine} {start finish : Cursor} :
    ¬ Makes [.cut] rs (.of r start finish inner) := by
  rintro (hmem | ⟨hmem, -⟩) <;> cases List.mem_singleton.mp hmem

end Makes

theorem levels_cons (r : Routine) (rs : List Routine) :
    levels (r :: rs) = levels rs + if r.isCounted then 1 else 0 := by
  simp [levels, List.countP_cons]

/-! ## The depth of calls -/

/-- Whether a call that is made while some routines are active has the depth that they
give it, and ends at that depth. Too much nesting is refused, and a declaration is read. -/
structure Call.Level (depth : Nat) (rs : List Routine) (r : Routine) (start finish : Cursor)
    (inner : List Call) : Prop where
  starts : start.depth = depth + levels rs
  finishes : finish.depth = start.depth
  inRange : depth ≤ Parser.maxNesting → start.depth ≤ Parser.maxNesting
  refused : r.isCounted = true → Parser.maxNesting ≤ start.depth → finish = start ∧ inner = []
  declared : r = .declaration → ∃ fuel s, Parser.declaration fuel start = .ok s finish

/-- Whether a parser that starts at a cursor ends at its depth, and so do the calls that it
makes. -/
structure Traced.LevelsAt {α : Type} (p : Traced α) (c : Cursor) : Prop where
  whole : (p.parser.finish c).depth = c.depth
  calls : ∀ rs r start finish inner, Makes (p.calls c) rs (.of r start finish inner) →
    Call.Level c.depth rs r start finish inner

/-- Whether a parser ends at the depth at which it starts, and so do the calls that it
makes. -/
def Traced.Levels {α : Type} (p : Traced α) : Prop :=
  ∀ c, p.LevelsAt c

namespace Traced

variable {α β : Type} {p : Traced α} {f : α → Traced β} {c d : Cursor}

theorem finish_bind_of_ok {a : α} (h : p.parser c = .ok a d) :
    (p >>= f).parser.finish c = (f a).parser.finish d := by
  simp only [Parser.finish, Bind.bind, EStateM.bind, h]

theorem finish_bind_of_error {e : SyntaxError} (h : p.parser c = .error e d) :
    (p >>= f).parser.finish c = d := by
  simp only [Parser.finish, Bind.bind, EStateM.bind, h]

theorem calls_bind_of_ok {a : α} (h : p.parser c = .ok a d) :
    (p >>= f).calls c = p.calls c ++ (f a).calls d := by
  simp only [Bind.bind, h]

theorem calls_bind_of_error {e : SyntaxError} (h : p.parser c = .error e d) :
    (p >>= f).calls c = p.calls c := by
  simp only [Bind.bind, h, List.append_nil]

theorem finish_nested_of_full (h : Parser.maxNesting ≤ c.depth) :
    (nested p).parser.finish c = c := by
  simp only [Parser.finish, parser_nested, Parser.nested, if_pos h]

theorem finish_nested_of_room (h : ¬ Parser.maxNesting ≤ c.depth) :
    (nested p).parser.finish c =
      { p.parser.finish { c with depth := c.depth + 1 } with
        depth := (p.parser.finish { c with depth := c.depth + 1 }).depth - 1 } := by
  simp only [Parser.finish, parser_nested, Parser.nested, if_neg h]
  cases p.parser { c with depth := c.depth + 1 } <;> rfl

namespace Levels

/-- A parser without calls that stays at its depth. -/
theorem lift {q : Parser α} (h : ∀ c, (q.finish c).depth = c.depth) : (lift q).Levels :=
  fun c => ⟨h c, fun _ _ _ _ _ hcall => absurd hcall Makes.not_nil⟩

theorem lift_of_meets {q : Parser α} {Q : Cursor → α → Cursor → Prop} (h : q.Meets Q) :
    (Traced.lift q).Levels := by
  refine lift fun c => ?_
  have hc := h c
  unfold Parser.finish
  cases hq : q c with
  | ok a d =>
    rw [hq] at hc
    exact hc.1.depth
  | error e d =>
    rw [hq] at hc
    exact hc.depth

theorem bind (hp : p.Levels) (hf : ∀ a, (f a).Levels) : (p >>= f).Levels := by
  intro c
  obtain ⟨hwhole, hcalls⟩ := hp c
  cases hpc : p.parser c with
  | error e d =>
    rw [Parser.finish_of_error hpc] at hwhole
    constructor
    · rw [finish_bind_of_error hpc, hwhole]
    · rw [calls_bind_of_error hpc]
      exact hcalls
  | ok a d =>
    obtain ⟨hafter, hcallsAfter⟩ := hf a d
    rw [Parser.finish_of_ok hpc] at hwhole
    constructor
    · rw [finish_bind_of_ok hpc, hafter, hwhole]
    · intro rs r start finish inner hcall
      rw [calls_bind_of_ok hpc] at hcall
      obtain hcall | hcall := hcall.of_append
      · exact hcalls _ _ _ _ _ hcall
      · exact hwhole ▸ hcallsAfter _ _ _ _ _ hcall

/-- A call of a routine that is not counted has the depth of its body. -/
theorem enter {r : Routine} (hcount : r.isCounted = false)
    (hdeclared : r = .declaration →
      ∀ c, ∃ fuel s, Parser.declaration fuel c = .ok s (p.parser.finish c))
    (h : p.Levels) : (during r p).Levels := by
  intro c
  obtain ⟨hwhole, hcalls⟩ := h c
  refine ⟨hwhole, fun rs r' start finish inner hcall => ?_⟩
  obtain ⟨rfl, heq⟩ | ⟨rs, rfl, hinside⟩ := hcall.of_call
  · cases heq
    exact ⟨rfl, hwhole, id, fun hcounted => absurd hcounted (by simp [hcount]),
      fun hr => hdeclared hr c⟩
  · obtain ⟨hstart, hfinish, hrange, hrefused, hdecl⟩ := hcalls _ _ _ _ _ hinside
    refine ⟨?_, hfinish, hrange, hrefused, hdecl⟩
    rw [levels_cons, hcount, hstart]
    rfl

/-- A call of a routine that is counted has the depth of its body but for one level, which
it gives back. -/
theorem enterNested {r : Routine} (hcount : r.isCounted = true) (h : p.Levels) :
    (during r (nested p)).Levels := by
  have hdeclared : r ≠ .declaration := by
    rintro rfl
    cases hcount
  intro c
  by_cases hfull : Parser.maxNesting ≤ c.depth
  · have hfinish : (nested p).parser.finish c = c := finish_nested_of_full hfull
    have hnone : (nested p).calls c = [] := if_pos hfull
    refine ⟨congrArg Cursor.depth hfinish, fun rs r' start finish inner hcall => ?_⟩
    obtain ⟨rfl, heq⟩ | ⟨rs, rfl, hinside⟩ := hcall.of_call
    · cases heq
      exact ⟨rfl, congrArg Cursor.depth hfinish, id, fun _ _ => ⟨hfinish, hnone⟩,
        fun hr => absurd hr hdeclared⟩
    · exact absurd (hnone ▸ hinside) Makes.not_nil
  · obtain ⟨hwhole, hcalls⟩ := h { c with depth := c.depth + 1 }
    have hfinish : ((nested p).parser.finish c).depth = c.depth := by
      rw [finish_nested_of_room hfull]
      exact congrArg (· - 1) hwhole
    have hinner : (nested p).calls c = p.calls { c with depth := c.depth + 1 } := if_neg hfull
    refine ⟨hfinish, fun rs r' start finish inner hcall => ?_⟩
    obtain ⟨rfl, heq⟩ | ⟨rs, rfl, hinside⟩ := hcall.of_call
    · cases heq
      exact ⟨rfl, hfinish, id, fun _ hmax => absurd hmax hfull, fun hr => absurd hr hdeclared⟩
    · obtain ⟨hstart, hend, hrange, hrefused, hdecl⟩ := hcalls _ _ _ _ _ (hinner ▸ hinside)
      refine ⟨?_, hend, fun _ => hrange (Nat.succ_le_of_lt (Nat.lt_of_not_le hfull)), hrefused,
        hdecl⟩
      rw [levels_cons, hcount, hstart]
      simp only [if_true]
      omega

theorem recovering {p : Traced Stmt} (h : p.Levels) : (recovering p).Levels := by
  intro c
  obtain ⟨hwhole, hcalls⟩ := h c
  refine ⟨?_, hcalls⟩
  rw [← hwhole]
  simp only [Parser.finish, parser_recovering, Parser.recovering]
  cases p.parser c <;> rfl

end Levels

theorem levels_compose : Composes Levels where
  cut _ := ⟨rfl, fun _ _ _ _ _ hcall => absurd hcall Makes.not_cut⟩
  pure a := .lift_of_meets (.pure (Q := fun _ _ _ => True) a fun _ => trivial)
  refuse cause := .lift_of_meets (Parser.refuse_meets cause fun _ _ _ => True)
  accept? recognise := .lift_of_meets (Parser.accept?_meets recognise)
  nextIs s := .lift_of_meets (Parser.nextIs_meets s)
  atEnd := .lift_of_meets Parser.atEnd_meets
  reference name := .lift_of_meets (Parser.reference_meets name)
  bind := .bind
  reporting _ _ h _ := .bind (.lift_of_meets Parser.peek_meets) fun _ =>
    .bind (.lift_of_meets (Parser.report_meets _)) fun _ => h
  enter _ _ hcount hdeclared := .enter hcount (absurd · hdeclared)
  enterNested _ _ := .enterNested

theorem levels_declarations : ComposesDeclarations Levels where
  toComposes := levels_compose
  assignment := levels_compose.assignment_of_report fun error =>
    .lift_of_meets (Parser.report_meets error)
  declaration fuel body heq h := by
    have hparser : Parser.declaration (fuel + 1) = Parser.recovering body.parser := by
      rw [← (erasesStatements _).declaration, heq]
      rfl
    rw [heq]
    refine .enter rfl (fun _ c => ?_) h.recovering
    obtain ⟨s, d, hread⟩ := Parser.recovering_ok body.parser c
    exact ⟨fuel + 1, s, by rw [hparser, parser_recovering, Parser.finish_of_ok hread, hread]⟩

end Traced

/-! ## What was recorded before -/

/-- A cursor with more errors recorded before its own. -/
def Cursor.behind (earlier : List SyntaxError) (c : Cursor) : Cursor :=
  { c with errors := earlier ++ c.errors }

/-- The answer of a parser with more errors recorded before its own. -/
def Parser.answerBehind {α : Type} (earlier : List SyntaxError) :
    EStateM.Result SyntaxError Cursor α → EStateM.Result SyntaxError Cursor α
  | .ok a c => .ok a (c.behind earlier)
  | .error e c => .error e (c.behind earlier)

/-- Whether what was recorded before makes no difference to a parser. -/
def Traced.Forgets {α : Type} (p : Traced α) : Prop :=
  ∀ earlier c, p.parser (c.behind earlier) = Parser.answerBehind earlier (p.parser c)

namespace Traced

variable {α β : Type} {p : Traced α} {f : α → Traced β}

namespace Forgets

theorem bind (hp : p.Forgets) (hf : ∀ a, (f a).Forgets) : (p >>= f).Forgets := by
  intro earlier c
  simp only [Bind.bind, EStateM.bind, hp earlier c]
  cases p.parser c with
  | ok a d => exact hf a earlier d
  | error e d => rfl

theorem accept? (recognise : TokenKind → Option α) :
    (lift (Parser.accept? recognise)).Forgets := by
  intro earlier c
  obtain ⟨rest, nextId, depth, errors⟩ := c
  cases rest with
  | nil => rfl
  | cons t ts =>
    simp only [parser_lift, Parser.accept?, Cursor.behind]
    split
    · rfl
    · split <;> rfl

theorem report (error : SyntaxError) : (lift (Parser.report error)).Forgets := by
  intro earlier c
  simp [Parser.report, Cursor.report, Cursor.behind, Parser.answerBehind]

theorem nested (h : p.Forgets) : (nested p).Forgets := by
  intro earlier c
  have hinner := h earlier { c with depth := c.depth + 1 }
  simp only [Cursor.behind] at hinner
  simp only [parser_nested, Parser.nested, Cursor.behind, hinner]
  by_cases hfull : Parser.maxNesting ≤ c.depth
  · simp only [if_pos hfull]
    rfl
  · simp only [if_neg hfull]
    cases p.parser { c with depth := c.depth + 1 } <;> rfl

theorem recovering {p : Traced Stmt} (h : p.Forgets) : (recovering p).Forgets := by
  intro earlier c
  simp only [parser_recovering, Parser.recovering, h earlier c]
  cases p.parser c with
  | ok s d => rfl
  | error e d => simp [Parser.answerBehind, Cursor.behind, Cursor.report]

end Forgets

theorem forgets_compose : Composes Forgets where
  cut _ _ := rfl
  pure _ _ _ := rfl
  refuse _ _ _ := rfl
  accept? := .accept?
  nextIs _ _ _ := rfl
  atEnd _ _ := rfl
  reference _ _ _ := rfl
  bind := .bind
  reporting _ _ h _ := .bind (fun _ _ => rfl) fun _ => .bind (.report _) fun _ => h
  enter _ _ _ _ h := h
  enterNested _ _ _ h := h.nested

theorem forgets_declarations : ComposesDeclarations Forgets where
  toComposes := forgets_compose
  assignment := forgets_compose.assignment_of_report .report
  declaration fuel body heq h := by
    rw [heq]
    exact h.recovering

end Traced

/-- A declaration does the same wherever its tokens and its depth are the same. -/
theorem Parser.declaration_forgets {fuel : Nat} {s : Option Stmt} {start finish : Cursor}
    (h : Parser.declaration fuel start = .ok s finish) :
    ∃ fresh, Parser.declaration fuel { start with errors := [] } = .ok s fresh ∧
      finish = fresh.behind start.errors := by
  have hforgets := (Traced.forgets_declarations.all (.declaration fuel)) start.errors
    { start with errors := [] }
  have hstart : Cursor.behind start.errors { start with errors := [] } = start := by
    simp [Cursor.behind]
  rw [(Traced.erasesStatements fuel).declaration, hstart, h] at hforgets
  cases hfresh : Parser.declaration fuel { start with errors := [] } with
  | error e d =>
    rw [hfresh] at hforgets
    cases hforgets
  | ok s' d =>
    rw [hfresh] at hforgets
    cases hforgets
    exact ⟨d, rfl, rfl⟩

/-! ## The depth at every moment -/

/-- A parser of the grammar ends at the depth at which it starts, in or out of order, and so
do all calls inside it. Their depth is that of the start and one more for each expression
and block that is being read, never above the limit, at which such calls are refused. What
a declaration does, at whatever level and after whatever errors, is what it does at that
level without them. -/
theorem depth_is_put_back {α : Type} {p : Traced α} (hp : p.OfGrammar) {c : Cursor}
    (hdepth : c.depth ≤ Parser.maxNesting) :
    (p.parser.finish c).depth = c.depth ∧
    ∀ rs r start finish inner, Makes (p.calls c) rs (.of r start finish inner) →
      start.depth = c.depth + levels rs ∧ finish.depth = start.depth ∧
      start.depth ≤ Parser.maxNesting ∧
      (r.isCounted = true → start.depth = Parser.maxNesting → finish = start ∧ inner = []) ∧
      (r = .declaration → ∃ fuel s fresh,
        Parser.declaration fuel start = .ok s finish ∧
        Parser.declaration fuel ⟨start.rest, start.nextId, c.depth + levels rs, []⟩ = .ok s fresh ∧
        finish = { fresh with errors := start.errors ++ fresh.errors }) := by
  obtain ⟨hwhole, hcalls⟩ := Traced.levels_declarations.all hp c
  refine ⟨hwhole, fun rs r start finish inner hcall => ?_⟩
  obtain ⟨hstart, hfinish, hrange, hrefused, hdeclared⟩ := hcalls _ _ _ _ _ hcall
  refine ⟨hstart, hfinish, hrange hdepth,
    fun hcount hmax => hrefused hcount (Nat.le_of_eq hmax.symm), fun hr => ?_⟩
  obtain ⟨fuel, s, hread⟩ := hdeclared hr
  obtain ⟨fresh, hfresh, heq⟩ := Parser.declaration_forgets hread
  rw [← hstart]
  exact ⟨fuel, s, fresh, hread, hfresh, heq⟩

/-- The tokens of a block with a declaration that does not parse and one that does. -/
def brokenBlock : List Token :=
  [⟨.symbol .leftBrace, "\x7b", 1⟩, ⟨.symbol .plus, "+", 1⟩, ⟨.symbol .semicolon, ";", 1⟩,
    ⟨.keyword .nil, "nil", 2⟩, ⟨.symbol .semicolon, ";", 2⟩, ⟨.symbol .rightBrace, "\x7d", 2⟩,
    .endOfInput 2]

/-- After an error in a block, the next declaration is read one level deep, as it would be
without the error. -/
theorem depth_is_put_back_block :
    ∃ start finish inner,
      Makes ((Traced.program (Parser.fuelFor brokenBlock)).calls (.first brokenBlock 0))
        [.declaration, .statement, .block] (.of .declaration start finish inner) ∧
      start.errors.length = 1 ∧ start.depth = 1 ∧ finish.depth = 1 ∧
      ∃ fuel s fresh, Parser.declaration fuel start = .ok s finish ∧
        Parser.declaration fuel ⟨start.rest, start.nextId, 1, []⟩ = .ok s fresh ∧
        finish = { fresh with errors := start.errors ++ fresh.errors } := by
  obtain ⟨start, finish, inner, hcall, herrors⟩ : ∃ start finish inner,
      Makes ((Traced.program (Parser.fuelFor brokenBlock)).calls (.first brokenBlock 0))
        [.declaration, .statement, .block] (.of .declaration start finish inner) ∧
      start.errors.length = 1 :=
    ⟨_, _, _, .inside (List.mem_of_getElem? (i := 0) rfl) (.inside
      (List.mem_of_getElem? (i := 0) rfl) (.inside (List.mem_of_getElem? (i := 0) rfl)
        (.here (List.mem_of_getElem? (i := 1) rfl)))), rfl⟩
  obtain ⟨hstart, hfinish, -, -, hdeclared⟩ :=
    (depth_is_put_back (.program _) (Nat.zero_le _)).2 _ _ _ _ _ hcall
  exact ⟨start, finish, inner, hcall, herrors, hstart, hfinish.trans hstart, hdeclared rfl⟩

end Lox
