import Lox.Proofs.Syntax.AcceptStatements

/-!
# The parser reads exactly the grammar

The parser of programs succeeds on the token lists that the grammar derives, and
its result is the tree of the derivation in which each `else` belongs to the
nearest `if`. Every list that has a derivation at all has such a one: an `else`
behind an open statement can be moved to its innermost open `if`.
-/

namespace Lox

variable {room : Nat} {w w' : List Token}

/-! ## The nearest `if` -/

/-- A derivation stays one with more room, and if it has to be to the nearest `if` only
where it was before. -/
theorem Derives.weaken {nearest nearest' : Prop} {r : Rule} {tree : r.Tree}
    (h : Derives nearest r room w tree) (hnearest : nearest' → nearest) (more : Nat) :
    Derives nearest' r (more + room) w tree := by
  induction h with
  | application _ hl _ hr ih ih' => exact .application ih hl ih' hr
  | property _ hd hn ih => exact .property ih hd hn
  | operandOfFactor _ ih => exact .operandOfFactor ih
  | operator _ ho _ ih ih' => exact .operator ih ho ih'
  | exprInitializer _ ih => exact .exprInitializer ih
  | print hp _ hm ih => exact .print hp ih hm
  | «return» hk _ hm ih => exact .return hk ih hm
  | blockStmt _ ih => exact .blockStmt ih
  | ifThenElse hk hl _ hr _ hopen hx _ ih ih₁ ih₂ =>
    exact .ifThenElse hk hl ih hr ih₁ (fun h => hopen (hnearest h)) hx ih₂
  | funMethod hf _ _ ih ih' => exact .funMethod hf ih ih'
  | declareFunction hf _ ih => exact .declareFunction hf ih
  | declareVariable _ ih => exact .declareVariable ih
  | statement _ ih => exact .statement ih
  | _ => constructor <;> assumption

/-- A derivation with a nearest `if` for each `else` is a derivation. -/
theorem Derives.forget {r : Rule} {tree : r.Tree} (h : Derives True r room w tree) :
    Derives False r room w tree := by
  have hweaken := h.weaken False.elim 0
  rwa [Nat.zero_add] at hweaken

/-- An `else` behind an open statement is read as one of its innermost open `if`. -/
theorem Derives.attach {r : Rule} {tree : r.Tree} (h : Derives True r room w tree)
    (hrule : r = .statement true) {x : Token} (hx : x.kind = .keyword .else) {no : Bool}
    {s : Stmt} (h' : Derives True (.statement no) room w' s) :
    ∃ isOpen t, Derives True (.statement isOpen) room (w ++ x :: w') t := by
  induction h with
  | «while» hk hl he hr hbody _ ih =>
      cases hrule
      obtain ⟨isOpen, t, ht⟩ := ih rfl h'
      have hd := Derives.while hk hl he hr ht
      exact ⟨isOpen, _, by simpa only [List.cons_append, List.append_assoc] using hd⟩
  | «for» hk hl hi hc hm he hr hbody _ _ _ ih =>
      cases hrule
      obtain ⟨isOpen, t, ht⟩ := ih rfl h'
      have hd := Derives.for hk hl hi hc hm he hr ht
      exact ⟨isOpen, _, by simpa only [List.cons_append, List.append_assoc] using hd⟩
  | @ifThen _ _ _ _ _ _ _ isOpen _ hk hl he hr hbody _ ih =>
      -- The `else` goes further inside if there is an open `if` there.
      cases isOpen with
      | true =>
          obtain ⟨isOpen, t, ht⟩ := ih rfl h'
          have hd := Derives.ifThen hk hl he hr ht
          exact ⟨true, _, by simpa only [List.cons_append, List.append_assoc] using hd⟩
      | false =>
          have hd := Derives.ifThenElse hk hl he hr hbody (fun _ => rfl) hx h'
          exact ⟨no, _, by simpa only [List.cons_append, List.append_assoc] using hd⟩
  | ifThenElse hk hl he hr hbody hnear hx' _ _ _ ih =>
      cases hrule
      obtain ⟨isOpen, t, ht⟩ := ih rfl h'
      have hd := Derives.ifThenElse hk hl he hr hbody hnear hx' ht
      exact ⟨isOpen, _, by simpa only [List.cons_append, List.append_assoc] using hd⟩
  | _ => cases hrule

/-- What is derived with a nearest `if` for each `else`, given any derivation. -/
def HasNearest : (r : Rule) → (room : Nat) → List Token → r.Tree → Prop
  | .statement _, room, w, _ => ∃ isOpen s, Derives True (.statement isOpen) room w s
  | .callable, room, w, _ => ∃ d, Derives True .callable room w d
  | .methods, room, w, _ => ∃ ds, Derives True .methods room w ds
  | .classDecl, room, w, _ => ∃ s, Derives True .classDecl room w s
  | .block, room, w, _ => ∃ ss, Derives True .block room w ss
  | .declaration, room, w, _ => ∃ s, Derives True .declaration room w s
  | .declarations, room, w, _ => ∃ ss, Derives True .declarations room w ss
  | r, room, w, tree => Derives True r room w tree

/-- Whatever has a derivation has one with a nearest `if` for each `else`. -/
theorem Derives.hasNearest {r : Rule} {tree : r.Tree} (h : Derives False r room w tree) :
    HasNearest r room w tree := by
  induction h with
  | application _ hl _ hr ih ih' => exact .application ih hl ih' hr
  | property _ hd hn ih => exact .property ih hd hn
  | operandOfFactor _ ih => exact .operandOfFactor ih
  | operator _ ho _ ih ih' => exact .operator ih ho ih'
  | exprInitializer _ ih => exact .exprInitializer ih
  | evaluate _ ih => exact ⟨_, _, .evaluate ih⟩
  | print hp _ hm ih => exact ⟨_, _, .print hp ih hm⟩
  | «return» hk _ hm ih => exact ⟨_, _, .return hk ih hm⟩
  | blockStmt _ ih =>
      obtain ⟨ss, hss⟩ := ih
      exact ⟨_, _, .blockStmt hss⟩
  | «while» hk hl _ hr _ ihe ih =>
      obtain ⟨isOpen, s, hs⟩ := ih
      exact ⟨_, _, .while hk hl ihe hr hs⟩
  | «for» hk hl _ _ hm _ hr _ ihi ihc ihe ih =>
      obtain ⟨isOpen, s, hs⟩ := ih
      exact ⟨_, _, .for hk hl ihi ihc hm ihe hr hs⟩
  | ifThen hk hl _ hr _ ihe ih =>
      obtain ⟨isOpen, s, hs⟩ := ih
      exact ⟨_, _, .ifThen hk hl ihe hr hs⟩
  | ifThenElse hk hl _ hr _ _ hx _ ihe ih ih' =>
      obtain ⟨yes, s, hs⟩ := ih
      obtain ⟨no, s', hs'⟩ := ih'
      cases yes with
      | false => exact ⟨_, _, .ifThenElse hk hl ihe hr hs (fun _ => rfl) hx hs'⟩
      | true =>
          obtain ⟨isOpen, t, ht⟩ := hs.attach rfl hx hs'
          have hd := Derives.ifThen hk hl ihe hr ht
          exact ⟨_, _, by simpa only [List.cons_append, List.append_assoc] using hd⟩
  | callable hn hl _ hr _ ih ih' =>
      obtain ⟨body, hbody⟩ := ih'
      exact ⟨_, .callable hn hl ih hr hbody⟩
  | noMethods => exact ⟨_, .noMethods⟩
  | method _ _ ih ih' =>
      obtain ⟨d, hd⟩ := ih
      obtain ⟨ds, hds⟩ := ih'
      exact ⟨_, .method hd hds⟩
  | funMethod hf _ _ ih ih' =>
      obtain ⟨d, hd⟩ := ih
      obtain ⟨ds, hds⟩ := ih'
      exact ⟨_, .funMethod hf hd hds⟩
  | baseClass hc hn hl _ hr ih =>
      obtain ⟨ds, hds⟩ := ih
      exact ⟨_, .baseClass hc hn hl hds hr⟩
  | subclass hc hn hq hp hl _ hr ih =>
      obtain ⟨ds, hds⟩ := ih
      exact ⟨_, .subclass hc hn hq hp hl hds hr⟩
  | block hl _ hr ih =>
      obtain ⟨ss, hss⟩ := ih
      exact ⟨_, .block hl hss hr⟩
  | declareClass _ ih =>
      obtain ⟨s, hs⟩ := ih
      exact ⟨_, .declareClass hs⟩
  | declareFunction hf _ ih =>
      obtain ⟨d, hd⟩ := ih
      exact ⟨_, .declareFunction hf hd⟩
  | declareVariable _ ih => exact ⟨_, .declareVariable ih⟩
  | statement _ ih =>
      obtain ⟨isOpen, s, hs⟩ := ih
      exact ⟨_, .statement hs⟩
  | noDeclaration => exact ⟨_, .noDeclaration⟩
  | declarations _ _ ih ih' =>
      obtain ⟨s, hs⟩ := ih
      obtain ⟨ss, hss⟩ := ih'
      exact ⟨_, .declarations hs hss⟩
  | _ => simp only [HasNearest] at *; constructor <;> assumption

/-! ## Exactness -/

/-- Whether an answer is the one that a grammar asks for: a result if there is a
derivation and an error if there is none, and the result, apart from its numbers,
is the only tree of a derivation with a nearest `if` for each `else`. -/
structure AnswersExactly {α T : Type} (answer : Except Failure α × NodeId) (tree : α → T)
    (derives : (nearest : Prop) → T → Prop) : Prop where
  ok_iff : (∃ a nextId, answer = (.ok a, nextId)) ↔ ∃ t, derives False t
  error_iff : (∃ failure nextId, answer = (.error failure, nextId)) ↔ ¬∃ t, derives False t
  derived : ∀ a nextId, answer = (.ok a, nextId) → derives False (tree a)
  nearest_iff : ∀ a nextId, answer = (.ok a, nextId) → ∀ t, derives True t ↔ t = tree a

theorem AnswersExactly.of_iff {α T : Type} {answer : Except Failure α × NodeId} {tree : α → T}
    {derives : Prop → T → Prop} (hforget : ∀ t, derives True t → derives False t)
    (hnearest : (∃ t, derives False t) → ∃ t, derives True t)
    (h : ∀ t, (∃ a nextId, answer = (.ok a, nextId) ∧ tree a = t) ↔ derives True t) :
    AnswersExactly answer tree derives := by
  have htrue {a : α} {nextId : NodeId} (ha : answer = (.ok a, nextId)) : derives True (tree a) :=
    (h (tree a)).mp ⟨a, nextId, ha, rfl⟩
  have hok : (∃ a nextId, answer = (.ok a, nextId)) ↔ ∃ t, derives False t := by
    constructor
    · rintro ⟨a, nextId, ha⟩
      exact ⟨tree a, hforget _ (htrue ha)⟩
    · intro hderives
      obtain ⟨t, ht⟩ := hnearest hderives
      obtain ⟨a, nextId, ha, -⟩ := (h t).mpr ht
      exact ⟨a, nextId, ha⟩
  refine ⟨hok, ?_, fun a nextId ha => hforget _ (htrue ha), fun a nextId ha t => ?_⟩
  · rw [← hok]
    obtain ⟨a | a, nextId⟩ := answer <;> simp
  · constructor
    · intro ht
      obtain ⟨a', nextId', ha', rfl⟩ := (h t).mpr ht
      rw [ha] at ha'
      cases ha'
      rfl
    · rintro rfl
      exact htrue ha

section

variable {body : List Token} {eof : Token}

theorem parseProgram_iff (heof : eof.isEnd = true) (hbody : ∀ t ∈ body, t.isEnd = false)
    (firstId : NodeId) (tree : List Stmt) :
    (∃ ss nextId, parseProgram (body ++ [eof]) firstId = (.ok ss, nextId) ∧
        Stmt.unnumberedAll ss = tree) ↔
      Derives True .declarations Parser.maxNesting body tree := by
  constructor
  · rintro ⟨ss, nextId, hparse, rfl⟩
    exact parseProgram_sound heof hbody hparse
  · intro h
    exact parseProgram_complete heof h firstId

theorem parseExpression_iff (heof : eof.isEnd = true) (hbody : ∀ t ∈ body, t.isEnd = false)
    (firstId : NodeId) (tree : Expr) :
    (∃ e nextId, parseExpression (body ++ [eof]) firstId = (.ok e, nextId) ∧
        e.unnumbered = tree) ↔
      Derives True .expression Parser.maxNesting body tree := by
  constructor
  · rintro ⟨e, nextId, hparse, rfl⟩
    exact parseExpression_sound heof hbody hparse
  · intro h
    exact parseExpression_complete heof h firstId

/-- For tokens that end where their source does, both parsers answer as the
grammar asks, which allows `maxArity` parameters or arguments and `maxNesting`
expressions and blocks inside one another. -/
theorem parsers_answer_exactly (heof : eof.isEnd = true) (hbody : ∀ t ∈ body, t.isEnd = false)
    (firstId : NodeId) :
    AnswersExactly (parseProgram (body ++ [eof]) firstId) Stmt.unnumberedAll
        (fun nearest => Derives nearest .declarations Parser.maxNesting body) ∧
      AnswersExactly (parseExpression (body ++ [eof]) firstId) Expr.unnumbered
        (fun nearest => Derives nearest .expression Parser.maxNesting body) := by
  constructor
  · refine .of_iff (fun _ => Derives.forget) ?_ (parseProgram_iff heof hbody firstId)
    rintro ⟨tree, h⟩
    exact h.hasNearest
  · refine .of_iff (fun _ => Derives.forget) ?_ (parseExpression_iff heof hbody firstId)
    rintro ⟨tree, h⟩
    exact ⟨tree, h.hasNearest⟩

/-- The tokens of `print nil;` end where their source does. -/
theorem parsers_answer_exactly_print :
    (Token.endOfInput 1).isEnd = true ∧
    (∀ t ∈ [Token.mk (.keyword .print) "print" 1, ⟨.keyword .nil, "nil", 1⟩,
      ⟨.symbol .semicolon, ";", 1⟩], t.isEnd = false) ∧
    AnswersExactly (parseProgram ([⟨.keyword .print, "print", 1⟩, ⟨.keyword .nil, "nil", 1⟩,
        ⟨.symbol .semicolon, ";", 1⟩] ++ [.endOfInput 1]) 0) Stmt.unnumberedAll
      (fun nearest => Derives nearest .declarations Parser.maxNesting
        [⟨.keyword .print, "print", 1⟩, ⟨.keyword .nil, "nil", 1⟩,
          ⟨.symbol .semicolon, ";", 1⟩]) := by
  have hbody : ∀ t ∈ [Token.mk (.keyword .print) "print" 1, ⟨.keyword .nil, "nil", 1⟩,
      ⟨.symbol .semicolon, ";", 1⟩], t.isEnd = false := by
    simp [Token.isEnd]
  exact ⟨rfl, hbody, (parsers_answer_exactly rfl hbody 0).1⟩

end

end Lox
