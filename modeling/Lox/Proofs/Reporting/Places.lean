import Lox.Proofs.Incremental.Lexing
import Lox.Proofs.Incremental.Moves

/-!
# Tokens on the lines of their places

A token does not know where in a list it stands. To speak about places, tokens are put on
lines that are their places in the list: no stage looks at lines, so each does with these
tokens what it does with the others, and the line of what it blames is a place. From there
a move leads back to the lines of the source.
-/

namespace Lox

variable {Cause : Type} {tokens : List Token} {t u : Token}

/-- Tokens on the lines of their places. -/
def placed (tokens : List Token) : List Token :=
  tokens.mapIdx fun place t => { t with line := place }

/-- To put tokens from the lines of their places back on their own. -/
def Move.back (tokens : List Token) : Move :=
  ⟨fun place => tokens[place]?.elim 0 Token.line, 0⟩

theorem length_placed : (placed tokens).length = tokens.length :=
  List.length_mapIdx

theorem getElem_placed {place : Nat} (h : place < (placed tokens).length)
    (hplace : place < tokens.length) :
    (placed tokens)[place] = { tokens[place] with line := place } :=
  List.getElem_mapIdx

/-- What is on the line of its place is, back on its line, the token at that place. -/
theorem move_back_of_mem (h : t ∈ placed tokens) :
    tokens[t.line]? = some (t.move (.back tokens)) := by
  obtain ⟨place, hplace, rfl⟩ := List.mem_iff_getElem.mp h
  have hplace' : place < tokens.length := length_placed ▸ hplace
  rw [getElem_placed hplace hplace', List.getElem?_eq_getElem hplace']
  simp only [Token.move, Move.back, List.getElem?_eq_getElem hplace', Option.elim_some]

theorem map_move_back : (placed tokens).map (Token.move (.back tokens)) = tokens := by
  refine List.ext_getElem (by rw [List.length_map, length_placed]) fun place h h' => ?_
  rw [List.getElem_map, getElem_placed (length_placed.symm ▸ h') h']
  simp only [Token.move, Move.back, List.getElem?_eq_getElem h', Option.elim_some]

theorem pairwise_placed : (placed tokens).Pairwise fun t u => t.line < u.line := by
  refine List.pairwise_iff_getElem.mpr fun i j hi hj hij => ?_
  rw [getElem_placed hi (length_placed ▸ hi), getElem_placed hj (length_placed ▸ hj)]
  exact hij

theorem ends_placed (h : ∃ t ∈ tokens, t.isEnd = true) : ∃ t ∈ placed tokens, t.isEnd = true := by
  obtain ⟨t, ht, hend⟩ := h
  obtain ⟨place, hplace, rfl⟩ := List.mem_iff_getElem.mp ht
  have hplaced : place < (placed tokens).length := length_placed.symm ▸ hplace
  refine ⟨(placed tokens)[place], List.getElem_mem _, ?_⟩
  rw [getElem_placed hplaced hplace]
  exact hend

/-- Where one end comes last, it comes last on the lines of the places. -/
theorem placed_body {body : List Token} {eof : Token} (heof : eof.isEnd = true)
    (hbody : ∀ t ∈ body, t.isEnd = false) :
    ∃ body' eof', placed (body ++ [eof]) = body' ++ [eof'] ∧ eof'.isEnd = true ∧
      ∀ t ∈ body', t.isEnd = false := by
  refine ⟨placed body, { eof with line := body.length }, List.mapIdx_concat, heof, fun t ht => ?_⟩
  obtain ⟨place, hplace, rfl⟩ := List.mem_iff_getElem.mp ht
  have hplace' : place < body.length := length_placed ▸ hplace
  rw [getElem_placed hplace hplace']
  exact hbody body[place] (List.getElem_mem _)

/-- Where lines do not fall along a list, a token that stands further back is on no earlier
line. -/
theorem line_back_le (h : tokens.Pairwise fun t u => t.line ≤ u.line) (ht : t ∈ placed tokens)
    (hu : u ∈ placed tokens) (hle : t.line ≤ u.line) :
    (t.move (.back tokens)).line ≤ (u.move (.back tokens)).line := by
  obtain ⟨htline, ht⟩ := List.getElem?_eq_some_iff.mp (move_back_of_mem ht)
  obtain ⟨huline, hu⟩ := List.getElem?_eq_some_iff.mp (move_back_of_mem hu)
  rw [← ht, ← hu]
  obtain hlt | hsame := Nat.lt_or_eq_of_le hle
  · exact List.pairwise_iff_getElem.mp h _ _ htline huline hlt
  · simp only [hsame, Nat.le_refl]

/-! ## The lines of a source -/

/-- Lines do not fall along the tokens of a text, and start where the text does. -/
theorem Scans.lines {before rest : List Char} {ts : List Token} {fault? : Option (String × Nat)}
    (h : Scans before rest ts fault?) :
    (∀ t ∈ ts, 1 + newlines before ≤ t.line) ∧ ts.Pairwise fun t u => t.line ≤ u.line := by
  have hpast (before text : List Char) : 1 + newlines before ≤ 1 + newlines (before ++ text) := by
    rw [newlines_append]
    omega
  induction h with
  | finish before =>
    exact ⟨List.forall_mem_singleton.mpr (Nat.le_refl _), List.pairwise_singleton _ _⟩
  | skip _ _ ih => exact ⟨fun t ht => (hpast _ _).trans (ih.1 t ht), ih.2⟩
  | token _ _ _ ih =>
    exact ⟨List.forall_mem_cons.mpr ⟨hpast _ _, fun t ht => (hpast _ _).trans (ih.1 t ht)⟩,
      List.pairwise_cons.mpr ⟨ih.1, ih.2⟩⟩
  | unterminated => exact ⟨nofun, .nil⟩
  | unexpected => exact ⟨nofun, .nil⟩

theorem lines_of_lex {source : String} (h : (lex source).toExcept = .ok tokens) :
    tokens.Pairwise fun t u => t.line ≤ u.line := by
  have hscans := scans_lexFrom [] source.toList
  change Scans [] source.toList (lex source).tokens _ at hscans
  rw [Lexing.toExcept_eq_ok h] at hscans
  exact hscans.lines.2

/-! ## The order of what is blamed -/

/-- Whether blames stand in the order of their lines, except for some pairs. -/
def Blame.InOrder (exempt : Blame Cause → Blame Cause → Prop) (bs : List (Blame Cause)) : Prop :=
  bs.Pairwise fun b b' => b.token.line ≤ b'.token.line ∨ exempt b b'

namespace Blame.InOrder

variable {exempt exempt' : Blame Cause → Blame Cause → Prop} {bs bs' : List (Blame Cause)}

theorem nil : InOrder exempt [] :=
  List.Pairwise.nil

theorem singleton (b : Blame Cause) : InOrder exempt [b] :=
  List.pairwise_singleton _ b

theorem mono (h : InOrder exempt bs) (hexempt : ∀ b b', exempt b b' → exempt' b b') :
    InOrder exempt' bs :=
  h.imp fun hb => hb.imp_right (hexempt _ _)

theorem append (h : InOrder exempt bs) (h' : InOrder exempt bs')
    (hcross : ∀ b ∈ bs, ∀ b' ∈ bs', b.token.line ≤ b'.token.line ∨ exempt b b') :
    InOrder exempt (bs ++ bs') :=
  List.pairwise_append.mpr ⟨h, h', hcross⟩

end Blame.InOrder

/-- What a failure tells of tokens if the stage that reports it reports `bs` of the tokens on
the lines of their places: it reports the same, each at the token of the place that is told.
These places are in order except for some pairs, and so are the lines of the tokens, of which
the first is that of the failure. -/
structure Failure.Follows (failure : Failure) (tokens : List Token)
    (report : Blame Cause → Diagnostic) (exempt : Blame Cause → Blame Cause → Prop)
    (bs : List (Blame Cause)) : Prop where
  diagnostics : failure.diagnostics = bs.map fun b => report (b.move (.back tokens))
  places : ∀ b ∈ bs, tokens[b.token.line]? = some (b.move (.back tokens)).token
  order : Blame.InOrder exempt bs
  lines : bs.Pairwise fun b b' =>
    (b.move (.back tokens)).token.line ≤ (b'.move (.back tokens)).token.line ∨ exempt b b'
  first : ∃ b rest, bs = b :: rest ∧ failure.line? = some (b.move (.back tokens)).token.line ∧
    ∀ b' ∈ rest,
      (b.move (.back tokens)).token.line ≤ (b'.move (.back tokens)).token.line ∨ exempt b b'

/-- What is in order of places is in order of lines, if the tokens are. -/
theorem Failure.Follows.of_order {failure : Failure} {report : Blame Cause → Diagnostic}
    {exempt : Blame Cause → Blame Cause → Prop} {bs : List (Blame Cause)}
    (hlines : tokens.Pairwise fun t u => t.line ≤ u.line)
    (hline : ∀ b, (report b).line = b.token.line) (hne : bs ≠ [])
    (hdiagnostics : failure.diagnostics = bs.map fun b => report (b.move (.back tokens)))
    (hmem : ∀ b ∈ bs, b.token ∈ placed tokens) (horder : Blame.InOrder exempt bs) :
    failure.Follows tokens report exempt bs := by
  have hback : bs.Pairwise fun b b' =>
      (b.move (.back tokens)).token.line ≤ (b'.move (.back tokens)).token.line ∨ exempt b b' := by
    refine horder.imp_of_mem fun hb hb' h => h.imp_left ?_
    exact line_back_le hlines (hmem _ hb) (hmem _ hb')
  refine ⟨hdiagnostics, fun b hb => move_back_of_mem (hmem b hb), horder, hback, ?_⟩
  obtain ⟨b, rest, rfl⟩ := List.exists_cons_of_ne_nil hne
  refine ⟨b, rest, rfl, ?_, (List.pairwise_cons.mp hback).1⟩
  rw [Failure.line?, hdiagnostics, List.map_cons, List.head?_cons, Option.map_some, hline]

end Lox
