import Lox.Proofs.Incremental.CopyGrammar
import Lox.Proofs.Incremental.MovedGrammar
import Lox.Proofs.Syntax.ReadStatements

/-!
# Reading one program after another

The declarations of a program that can be read are read in the same way in front of
other tokens, and these as if they stood alone on their lines, be they a program or
not. Only an `else` would be taken for a part of the first program.
-/

namespace Lox

/-! ## Failures on other lines -/

namespace Failure

variable {μ : Move}

theorem ofList?_move (ds : List Diagnostic) :
    ofList? (ds.map (Diagnostic.move μ)) = (ofList? ds).map (Failure.move μ) := by
  rcases ds with _ | ⟨d, _ | ⟨d', ds⟩⟩ <;> rfl

theorem endingIn_move (last : Diagnostic) (earlier : List Diagnostic) :
    endingIn (last.move μ) (earlier.map (Diagnostic.move μ)) = (endingIn last earlier).move μ := by
  cases earlier with
  | nil => rfl
  | cons d ds => simp [endingIn, Failure.move]

theorem map_syntactic_move (errors : List SyntaxError) :
    (errors.map (Blame.move μ)).map Diagnostic.syntactic =
      (errors.map Diagnostic.syntactic).map (Diagnostic.move μ) := by
  rw [List.map_map, List.map_map]
  rfl

end Failure

namespace Parser

variable {α : Type} {μ : Move} {a b : Nat}

/-! ## Runs -/

/-- The answer of a run, on other lines. -/
def moveAnswer (μ : Move) (g : α → α) (answer : Except Failure α × NodeId) :
    Except Failure α × NodeId :=
  ((answer.1.map g).mapError (Failure.move μ), answer.2 + μ.shift)

theorem Moves.run {cost m : Nat} {p q : Parser α} {g : α → α} (h : Moves μ a cost m p q g)
    {tokens : List Token} (hends : ∃ t ∈ tokens, t.isEnd = true)
    (hroom : 20 * tokens.length + cost ≤ a) (firstId : NodeId) :
    q.run (tokens.map (Token.move μ)) (firstId + μ.shift) =
      moveAnswer μ g (p.run tokens firstId) := by
  have hc := h ⟨tokens, firstId, 0, []⟩ hends hroom
  have hstart : (⟨tokens.map (Token.move μ), firstId + μ.shift, 0, []⟩ : Cursor) =
      Cursor.move μ ⟨tokens, firstId, 0, []⟩ := rfl
  rw [Parser.run, Parser.run, hstart]
  cases hp : p ⟨tokens, firstId, 0, []⟩ with
  | ok x c =>
    rw [(hc.ok hp).1]
    simp only [Cursor.move, Failure.map_syntactic_move, Failure.ofList?_move]
    cases Failure.ofList? (c.errors.map .syntactic) <;> rfl
  | error e c =>
    rw [(hc.error hp).1]
    simp only [Cursor.move, Failure.map_syntactic_move]
    rw [show Diagnostic.syntactic (e.move μ) = (Diagnostic.syntactic e).move μ from rfl,
      Failure.endingIn_move]
    rfl

theorem run_map {f : α → α} {p : Parser α} {tokens : List Token} {firstId : NodeId} :
    (f <$> p).run tokens firstId =
      ((p.run tokens firstId).1.map f, (p.run tokens firstId).2) := by
  unfold Parser.run
  simp only [Functor.map, EStateM.map]
  cases p ⟨tokens, firstId, 0, []⟩ with
  | ok x c =>
    simp only
    cases Failure.ofList? (c.errors.map .syntactic) <;> rfl
  | error e c => rfl

/-! ## A program in front of other tokens -/

/-- The declarations of a program are read in front of any tokens but an `else`, and
then reading goes on with little less fuel. -/
theorem program_copies (h : a ≤ b) :
    (program a).Meets fun c ss c' => ∃ w, c.rest = w ++ c'.rest ∧
      ∀ rest errors, next rest ≠ .keyword .else → ∃ b', b ≤ b' + w.length ∧
        program b ⟨w ++ rest, c.nextId, c.depth, errors⟩ =
          ((ss ++ ·) <$> program b') ⟨rest, c'.nextId, c.depth, errors⟩ := by
  induction a generalizing b with
  | zero =>
    rw [Parser.program]
    exact refuse_meets _ _
  | succ a ih =>
    obtain ⟨b, rfl⟩ := Nat.exists_eq_add_one.mpr (Nat.zero_lt_of_lt h)
    have hab : a ≤ b := Nat.le_of_succ_le_succ h
    rw [Parser.program]
    refine .bind atEnd_meets.result fun ends => .ite (fun _ => ?_) (fun hmore => ?_)
    · refine .pure _ fun c₁ c _ h₀ => ?_
      obtain ⟨rfl, -⟩ := h₀
      refine ⟨[], rfl, fun rest errors _ => ⟨b + 1, Nat.le_refl _, ?_⟩⟩
      rw [show (([] : List Stmt) ++ ·) = id from rfl, id_map]
      rfl
    · refine .bind (copiesStatements hab).declaration fun first => .bind (ih hab) fun others =>
        .pure _ ?_
      intro c₃ c₂ hb₂ h₂ c₁ hb₁ h₁ c _ h₀
      obtain ⟨w, hw, hlength, hcopy⟩ := h₁
      obtain ⟨w', hw', hcopy'⟩ := h₂
      obtain ⟨rfl, hread⟩ := h₀
      refine ⟨w ++ w', by rw [hw, hw', List.append_assoc], fun rest errors helse => ?_⟩
      obtain ⟨b', hb', hrest⟩ := hcopy' rest errors helse
      refine ⟨b', ?_, ?_⟩
      · rw [List.length_append]
        omega
      · have hpasses : Glance.else.Passes (next c₂.rest) (next (w' ++ rest)) := by
          rw [hw']
          cases w' with
          | nil => exact fun _ => helse
          | cons t ts => exact .refl _ _
        have hmore' : Cursor.atEnd ⟨w ++ (w' ++ rest), c₁.nextId, c₁.depth, errors⟩ = false := by
          obtain ⟨t, ts, rfl⟩ := List.exists_cons_of_length_pos hlength
          simp only [Parser.atEnd, EStateM.Result.ok.injEq] at hread
          rw [← hread.1, Cursor.atEnd, Cursor.peek, hw] at hmore
          exact Bool.eq_false_iff.mpr hmore
        rw [hb₁.depth] at hrest
        rw [Parser.program, List.append_assoc]
        simp only [Bind.bind, EStateM.bind, Parser.atEnd, hmore', Bool.false_eq_true, if_false,
          hcopy _ errors hpasses, hrest, Functor.map, EStateM.map]
        cases program b' ⟨rest, c₃.nextId, c₁.depth, errors⟩ with
        | ok ss c => simp only [Pure.pure, EStateM.pure, List.append_assoc]
        | error e c => rfl

/-- A parser that stops only at the end of the tokens has read all of them, and what is
known of the tokens that it reads is known of these. -/
theorem Meets.run_all {r : Rule} {tree : α → r.Tree} {ids : α → List NodeId} {p : Parser α}
    {Q : Cursor → List Token → α → Cursor → Prop} {body : List Token} {eof : Token}
    {firstId nextId : NodeId} {x : α}
    (hreads : p.Meets fun c x c' => Reads r [] tree ids c x c' ∧ c'.atEnd = true)
    (hmeets : p.Meets fun c x c' => ∃ w, c.rest = w ++ c'.rest ∧ Q c w x c')
    (heof : eof.isEnd = true) (hbody : ∀ t ∈ body, t.isEnd = false)
    (h : p.run (body ++ [eof]) firstId = (.ok x, nextId)) :
    ∃ c', c'.nextId = nextId ∧ Q ⟨body ++ [eof], firstId, 0, []⟩ body x c' := by
  obtain ⟨c, -, ⟨⟨w, hw, hd, -⟩, hends⟩, hp⟩ := hreads.result.run h
  obtain ⟨c', hid, ⟨w', hw', hQ⟩, hp'⟩ := hmeets.result.run h
  obtain ⟨-, rfl⟩ := EStateM.Result.ok.inj (hp.symm.trans hp')
  obtain rfl : w = w' := List.append_cancel_right (hw.symm.trans hw')
  obtain rfl : w = body := eq_of_atEnd heof hbody hd.isEnd_eq_false hw hends
  exact ⟨c, hid, hQ⟩

/-- Once a program is read, reading goes on with what is behind it. -/
theorem run_append {ts more : List Token} {eof : Token} {firstId nextId : NodeId}
    {ss : List Stmt} (heof : eof.isEnd = true) (hbody : ∀ t ∈ ts, t.isEnd = false)
    (h : parseProgram (ts ++ [eof]) firstId = (.ok ss, nextId)) (hmore : 0 < more.length)
    (helse : next more ≠ .keyword .else) :
    ∃ b, fuelFor more ≤ b ∧
      parseProgram (ts ++ more) firstId = ((ss ++ ·) <$> program b).run more nextId := by
  have hfuel : fuelFor (ts ++ [eof]) ≤ fuelFor (ts ++ more) := by
    simp only [fuelFor, callsPerToken, List.length_append, List.length_singleton]
    omega
  obtain ⟨c, rfl, hcopy⟩ := (program_reads _).run_all (program_copies hfuel) heof hbody h
  obtain ⟨b, hb, hrun⟩ := hcopy more [] helse
  refine ⟨b, ?_, ?_⟩
  · simp only [fuelFor, callsPerToken, List.length_append] at hb ⊢
    omega
  · rw [parseProgram, Parser.run, hrun, Parser.run]

end Parser

/-- A program on other lines is read behind another one as it is read alone, and so it
is rejected. -/
theorem parseProgram_append {μ : Move} {ts more : List Token} {eof : Token}
    {firstId nextId : NodeId} {ss : List Stmt} (heof : eof.isEnd = true)
    (hbody : ∀ t ∈ ts, t.isEnd = false)
    (h : parseProgram (ts ++ [eof]) firstId = (.ok ss, nextId + μ.shift))
    (hends : ∃ t ∈ more, t.isEnd = true) (helse : next more ≠ .keyword .else) :
    parseProgram (ts ++ more.map (Token.move μ)) firstId =
      (((parseProgram more nextId).1.map fun ss' => ss ++ ss'.map (Stmt.move μ)).mapError
        (Failure.move μ), (parseProgram more nextId).2 + μ.shift) := by
  have hpos : 0 < (more.map (Token.move μ)).length := by
    rw [List.length_map]
    exact List.length_pos_of_mem hends.choose_spec.1
  have helse' : next (more.map (Token.move μ)) ≠ .keyword .else := by
    cases more with
    | nil => cases hpos
    | cons t ts => exact helse
  obtain ⟨b, hb, hrun⟩ := Parser.run_append heof hbody h hpos helse'
  have hb' : Parser.fuelFor more ≤ b := by
    simpa only [Parser.fuelFor, List.length_map] using hb
  rw [hrun, Parser.run_map, (Parser.program_moves hb').run hends (by
    rw [Parser.fuelFor, Parser.callsPerToken]
    omega)]
  change (_, (parseProgram more nextId).2 + μ.shift) = _
  congr 1
  change ((((parseProgram more nextId).1.map _).mapError _).map _) = _
  cases (parseProgram more nextId).1 <;> rfl

/-! ## Other lines and other numbers -/

section

variable {tokens : List Token}

/-- A parser that needs no more fuel than there is for the tokens reads them on other
lines as it reads them where they are. -/
theorem Parser.Moves.run_fuelFor {α : Type} {μ : Move} {cost m : Nat} {p q : Parser α} {g : α → α}
    (h : Moves μ (fuelFor tokens) cost m p q g) (hcost : cost ≤ 20)
    (hends : ∃ t ∈ tokens, t.isEnd = true) (firstId : NodeId) :
    q.run (tokens.map (Token.move μ)) (firstId + μ.shift) =
      moveAnswer μ g (p.run tokens firstId) := by
  apply h.run hends
  rw [fuelFor, callsPerToken]
  omega

theorem Parser.fuelFor_move (μ : Move) (tokens : List Token) :
    fuelFor (tokens.map (Token.move μ)) = fuelFor tokens := by
  rw [fuelFor, fuelFor, List.length_map]

/-- Tokens on other lines make the same program on other lines. -/
theorem parseProgram_move (μ : Move) (hends : ∃ t ∈ tokens, t.isEnd = true) (firstId : NodeId) :
    parseProgram (tokens.map (Token.move μ)) (firstId + μ.shift) =
      Parser.moveAnswer μ (List.map (Stmt.move μ)) (parseProgram tokens firstId) := by
  rw [parseProgram, Parser.fuelFor_move]
  exact (Parser.program_moves (Nat.le_refl _)).run_fuelFor (by decide) hends firstId

theorem parseExpression_move (μ : Move) (hends : ∃ t ∈ tokens, t.isEnd = true)
    (firstId : NodeId) :
    parseExpression (tokens.map (Token.move μ)) (firstId + μ.shift) =
      Parser.moveAnswer μ (Expr.move μ) (parseExpression tokens firstId) := by
  rw [parseExpression, Parser.fuelFor_move]
  exact (Parser.wholeExpression_moves (Nat.le_refl _)).run_fuelFor (by decide) hends firstId

theorem map_move_renumber (shift : Nat) : tokens.map (Token.move (.renumber shift)) = tokens :=
  List.map_id tokens

/-- The references of a program that is read with greater numbers have numbers that are
so much greater. -/
theorem parseProgram_shift (hends : ∃ t ∈ tokens, t.isEnd = true) (firstId : NodeId)
    (shift : Nat) :
    parseProgram tokens (firstId + shift) = Parser.moveAnswer (.renumber shift)
      (List.map (Stmt.move (.renumber shift))) (parseProgram tokens firstId) := by
  have hmove := parseProgram_move (.renumber shift) hends firstId
  rwa [map_move_renumber] at hmove

theorem parseExpression_shift (hends : ∃ t ∈ tokens, t.isEnd = true) (firstId : NodeId)
    (shift : Nat) :
    parseExpression tokens (firstId + shift) = Parser.moveAnswer (.renumber shift)
      (Expr.move (.renumber shift)) (parseExpression tokens firstId) := by
  have hmove := parseExpression_move (.renumber shift) hends firstId
  rwa [map_move_renumber] at hmove

/-- What is read does not depend on where the numbers of references start. -/
theorem parseProgram_renumber (hends : ∃ t ∈ tokens, t.isEnd = true) (firstId : NodeId) :
    parseProgram tokens firstId = Parser.moveAnswer (.renumber firstId)
      (List.map (Stmt.move (.renumber firstId))) (parseProgram tokens 0) := by
  have hshift := parseProgram_shift hends 0 firstId
  rwa [Nat.zero_add] at hshift

end

end Lox
