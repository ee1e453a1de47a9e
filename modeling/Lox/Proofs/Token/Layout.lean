import Lox.Proofs.Incremental.Lexing
import Lox.Proofs.Incremental.Parsing
import Mathlib

/-!
# Layout does not matter

A source can be put together from the lexemes of another one in many ways. As long
as something that starts with a blank stands between any two lexemes, the scanner
finds them again, and only the lines of the tokens tell the sources apart.

## Implementation notes

A lexeme that is no string has no blank in it, and a string ends at its second
quote. So no longer lexeme reaches over a blank, which is all that the greedy rules
of the scanner have to be asked. A slash in front of a comment would make one
comment of both, hence separators that start with a comment are left out.
-/

namespace Lox

/-! ## Layouts -/

/-- Blanks, and comments with the line end that closes them. -/
inductive IsLayout : List Char → Prop
  | nil : IsLayout []
  | blank (c : Char) (rest : List Char) (h : c ∈ [' ', '\t', '\r', '\n'])
      (next : IsLayout rest) : IsLayout (c :: rest)
  | comment (text rest : List Char) (h : '\n' ∉ text) (next : IsLayout rest) :
      IsLayout ('/' :: '/' :: text ++ '\n' :: rest)

/-- A layout that starts with a blank. -/
inductive IsSeparator : List Char → Prop
  | mk (c : Char) (rest : List Char) (h : c ∈ [' ', '\t', '\r', '\n'])
      (next : IsLayout rest) : IsSeparator (c :: rest)

/-- A token and the text that is put behind its lexeme. -/
structure SpacedToken where
  token : Token
  behind : List Char

/-- The text of a piece. -/
def SpacedToken.text (p : SpacedToken) : List Char :=
  p.token.lexeme.toList ++ p.behind

/-- What is behind tokens keeps them apart: a separator, or nothing behind the last. -/
inductive KeepsApart : List SpacedToken → Prop
  | nil : KeepsApart []
  | last (p : SpacedToken) (h : p.behind = [] ∨ IsSeparator p.behind) : KeepsApart [p]
  | cons (p q : SpacedToken) (ps : List SpacedToken) (h : IsSeparator p.behind)
      (next : KeepsApart (q :: ps)) : KeepsApart (p :: q :: ps)

/-- A way to write tokens down, with separators around them. -/
structure Arrangement where
  front : List Char
  pieces : List SpacedToken
  opens : front = [] ∨ IsSeparator front
  apart : KeepsApart pieces

namespace Arrangement

/-- The tokens that are arranged. -/
def body (a : Arrangement) : List Token :=
  a.pieces.map SpacedToken.token

/-- The source that an arrangement makes. -/
def text (a : Arrangement) : List Char :=
  a.front ++ a.pieces.flatMap SpacedToken.text

/-- The tokens of pieces behind some text, each on the line where its lexeme ends, and
the token for the end. -/
def tokensFrom (before : List Char) : List SpacedToken → List Token
  | [] => [.endOfInput (1 + newlines before)]
  | p :: ps =>
      { p.token with line := 1 + newlines (before ++ p.token.lexeme.toList) } ::
        tokensFrom (before ++ p.text) ps

/-- The tokens of an arrangement on their new lines. -/
def tokens (a : Arrangement) : List Token :=
  tokensFrom a.front a.pieces

end Arrangement

/-! ## Lexemes in front of a blank -/

theorem IsDigit.not_blank {c : Char} (h : IsDigit c) : c ∉ [' ', '\t', '\r', '\n'] := by
  intro hmem
  fin_cases hmem <;> exact absurd h (by decide)

theorem IsLetter.not_blank {c : Char} (h : IsLetter c) : c ∉ [' ', '\t', '\r', '\n'] := by
  intro hmem
  fin_cases hmem <;> exact absurd h (by decide)

theorem IsWord.not_blank {text : List Char} (h : IsWord text) :
    ∀ c ∈ text, c ∉ [' ', '\t', '\r', '\n'] := by
  cases h with
  | mk first others hfirst hothers =>
    intro c hc
    rcases List.mem_cons.mp hc with rfl | hc
    · exact hfirst.not_blank
    · exact (hothers c hc).elim IsLetter.not_blank IsDigit.not_blank

theorem Symbol.not_blank (s : Symbol) : ∀ c ∈ s.text.toList, c ∉ [' ', '\t', '\r', '\n'] := by
  cases s <;> simp [Symbol.text]

namespace Spells

variable {kind kind' : TokenKind} {text text' : List Char} {b c : Char} {cs more : List Char}

/-- There are blanks in strings only. -/
theorem not_blank (h : Spells kind (c :: cs)) (hq : c ≠ '"') :
    ∀ d ∈ c :: cs, d ∉ [' ', '\t', '\r', '\n'] := by
  by_cases hd : IsDigit c
  · rcases h.of_digit hd with ⟨v, -, hds, -⟩ | ⟨digits, fraction, v, -, heq, hds, hfr, -⟩
    · exact fun d hmem => (hds.digits d hmem).not_blank
    · intro d hmem
      rw [heq, List.mem_append, List.mem_cons] at hmem
      rcases hmem with hmem | rfl | hmem
      · exact (hds.digits d hmem).not_blank
      · decide
      · exact (hfr.digits d hmem).not_blank
  by_cases hl : IsLetter c
  · exact (h.of_letter hl).1.not_blank
  · obtain ⟨s, hs, -⟩ := h.of_mark hq hd hl
    exact hs ▸ s.not_blank

/-- No lexeme is another one with a blank behind it. -/
theorem not_over_blank (h : Spells kind text) (hb : b ∈ [' ', '\t', '\r', '\n']) :
    ¬ Spells kind' (text ++ b :: more) := by
  intro h'
  obtain ⟨c, cs, rfl⟩ := List.exists_cons_of_ne_nil h.nonempty
  by_cases hq : c = '"'
  · subst hq
    obtain ⟨contents, hcontents, rfl, -⟩ := h.of_quote
    obtain ⟨contents', hcontents', heq, -⟩ := h'.of_quote
    change contents ++ ['"'] ++ b :: more = contents' ++ ['"'] at heq
    -- the quote that ends the first string would stand inside the second one
    have hquote : '"' ∈ (contents ++ ['"'] ++ b :: more).dropLast := by
      simp [List.dropLast_append_of_ne_nil]
    rw [heq, List.dropLast_concat] at hquote
    exact hcontents' hquote
  · exact h'.not_blank hq b (by simp) hb

/-- A lexeme in front of a blank or of nothing is the longest one. -/
theorem front (h : Spells kind text) (hmore : more = [] ∨ IsSeparator more) (rest : List Char)
    (hrest : more = [] → rest = []) : Front (text ++ (more ++ rest)) kind text := by
  constructor
  · exact h
  · exact List.prefix_append _ _
  · intro kind' text' h' hpre
    by_contra hlong
    obtain ⟨tail, rfl⟩ : text <+: text' :=
      List.prefix_of_prefix_length_le (List.prefix_append _ _) hpre (by omega)
    have htail : tail <+: more ++ rest := (List.prefix_append_right_inj text).mp hpre
    have hne : tail ≠ [] := by
      rintro rfl
      simp at hlong
    obtain ⟨b, tail, rfl⟩ := List.exists_cons_of_ne_nil hne
    cases hmore with
    | inl hnil =>
      rw [hnil, hrest hnil] at htail
      exact absurd htail (by simp)
    | inr hsep =>
      cases hsep with
      | mk c others hc _ =>
        obtain ⟨rfl, -⟩ := List.cons_prefix_cons.mp htail
        exact h.not_over_blank hc h'

/-- A lexeme in front of a blank or of nothing does not start a comment with it. -/
theorem not_startsTrivia (h : Spells kind text) (hmore : more = [] ∨ IsSeparator more)
    (rest : List Char) (hrest : more = [] → rest = []) :
    ¬ StartsTrivia (text ++ (more ++ rest)) := by
  obtain ⟨c, cs, rfl⟩ := List.exists_cons_of_ne_nil h.nonempty
  by_cases hq : c = '"'
  · subst hq
    exact not_startsTrivia_quote _
  apply Chunk.not_startsTrivia
  · exact h.not_blank hq c List.mem_cons_self
  · rintro rfl
    obtain ⟨s, hs, -⟩ := h.of_mark hq (by decide) (by decide)
    obtain rfl : cs = [] := by
      revert hs
      cases s <;> simp [Symbol.text]
    cases hmore with
    | inl hnil => simp [hnil, hrest hnil]
    | inr hsep =>
      cases hsep with
      | mk c others hc _ =>
        rintro ⟨⟩
        exact absurd hc (by decide)

end Spells

/-! ## Reading an arrangement -/

section

variable {before rest : List Char} {ts : List Token} {fault? : Option (String × Nat)}

/-- Reading goes on behind a layout. -/
theorem IsLayout.scans {text : List Char} (h : IsLayout text)
    (next : Scans (before ++ text) rest ts fault?) : Scans before (text ++ rest) ts fault? := by
  induction h generalizing before with
  | nil => simpa using next
  | blank c text hc _ ih =>
    apply Scans.skip (.blank c (text ++ rest) hc)
    apply ih
    simpa using next
  | comment text text' hline _ ih =>
    rw [List.append_assoc]
    apply Scans.skip (.comment text _ hline (by simp))
    apply Scans.skip (.blank '\n' (text' ++ rest) (by decide))
    apply ih
    simpa using next

theorem IsSeparator.isLayout {text : List Char} (h : IsSeparator text) : IsLayout text := by
  cases h with
  | mk c rest hc next => exact .blank c rest hc next

theorem isLayout_of_separator {text : List Char} (h : text = [] ∨ IsSeparator text) :
    IsLayout text := by
  rcases h with rfl | h
  · exact .nil
  · exact h.isLayout

/-- The tokens of a reading are spelled with their lexemes. -/
theorem Scans.spells (h : Scans before rest ts fault?) :
    ∀ t ∈ ts, t.isEnd = false → Spells t.kind t.lexeme.toList := by
  induction h with
  | finish before =>
    intro t ht hend
    rw [List.mem_singleton.mp ht] at hend
    cases hend
  | skip _ _ ih => exact ih
  | @token before text rest kind ts fault? _ front _ ih =>
    intro t ht hend
    rcases List.mem_cons.mp ht with rfl | ht
    · rw [String.toList_ofList]
      exact front.spells
    · exact ih t ht hend
  | unterminated => simp
  | unexpected => simp

/-- A source that is read without a report is cut into the tokens of that reading. -/
theorem toExcept_of_scans {source : String} (h : Scans [] source.toList ts none) :
    (lex source).toExcept = .ok ts := by
  have hlex : Scans [] source.toList (lex source).tokens (lex source).report? :=
    scans_lexFrom [] source.toList
  obtain ⟨htokens, hreport⟩ := hlex.unique h
  rw [Lexing.report?, Option.map_eq_none_iff] at hreport
  rw [Lexing.toExcept, hreport, htokens]

/-- A token and what is behind it are read one after the other. -/
theorem SpacedToken.scans {p : SpacedToken} (h : Spells p.token.kind p.token.lexeme.toList)
    (hbehind : p.behind = [] ∨ IsSeparator p.behind) (hrest : p.behind = [] → rest = [])
    (next : Scans (before ++ p.text) rest ts fault?) :
    Scans before (p.text ++ rest)
      ({ p.token with line := 1 + newlines (before ++ p.token.lexeme.toList) } :: ts) fault? := by
  have hread := Scans.token (h.not_startsTrivia hbehind rest hrest) (h.front hbehind rest hrest)
    ((isLayout_of_separator hbehind).scans (by rwa [List.append_assoc, ← SpacedToken.text]))
  rwa [String.ofList_toList, ← List.append_assoc, ← SpacedToken.text] at hread

/-- Pieces that are kept apart are read one after the other. -/
theorem KeepsApart.scans {ps : List SpacedToken} (h : KeepsApart ps)
    (hspelled : ∀ p ∈ ps, Spells p.token.kind p.token.lexeme.toList) :
    Scans before (ps.flatMap SpacedToken.text) (Arrangement.tokensFrom before ps) none := by
  induction h generalizing before with
  | nil => exact .finish before
  | last p h =>
    apply SpacedToken.scans
    · exact hspelled p List.mem_cons_self
    · exact h
    · exact fun _ => rfl
    · exact .finish _
  | cons p q ps h _ ih =>
    rw [List.flatMap_cons]
    apply SpacedToken.scans
    · exact hspelled p List.mem_cons_self
    · exact .inr h
    · intro hnil
      rw [hnil] at h
      cases h
    · exact ih fun p' hp' => hspelled p' (List.mem_cons_of_mem _ hp')

end

/-! ## Arrangements -/

/-- To forget on which lines tokens are. -/
def Move.forget : Move :=
  ⟨fun _ => 0, 0⟩

namespace Arrangement

/-- But for their lines, the tokens of an arrangement are those that were arranged. -/
theorem tokens_forget (a : Arrangement) (line : Nat) :
    a.tokens.map (Token.move .forget) =
      (a.body ++ [Token.endOfInput line]).map (Token.move .forget) := by
  have hpieces (before : List Char) (ps : List SpacedToken) :
      (tokensFrom before ps).map (Token.move .forget) =
        (ps.map SpacedToken.token ++ [Token.endOfInput line]).map (Token.move .forget) := by
    induction ps generalizing before with
    | nil => rfl
    | cons p ps ih =>
      rw [tokensFrom, List.map_cons, ih]
      rfl
  exact hpieces a.front a.pieces

theorem exists_isEnd (a : Arrangement) : ∃ t ∈ a.tokens, t.isEnd = true := by
  have hpieces (before : List Char) (ps : List SpacedToken) :
      ∃ t ∈ tokensFrom before ps, t.isEnd = true := by
    induction ps generalizing before with
    | nil => exact ⟨_, List.mem_singleton_self _, rfl⟩
    | cons p ps ih =>
      obtain ⟨t, ht, hend⟩ := ih (before ++ p.text)
      exact ⟨t, List.mem_cons_of_mem _ ht, hend⟩
  exact hpieces a.front a.pieces

/-- An arrangement of the tokens of a source is cut into these tokens. -/
theorem lex_text {source : String} {a : Arrangement} {line : Nat}
    (h : (lex source).toExcept = .ok (a.body ++ [.endOfInput line])) :
    (lex (.ofList a.text)).toExcept = .ok a.tokens := by
  have hsource : Scans [] source.toList (lex source).tokens (lex source).report? :=
    scans_lexFrom [] source.toList
  obtain ⟨body, line', htokens, hbody⟩ := lex_body h
  obtain ⟨rfl, -⟩ := List.append_inj' htokens rfl
  rw [Lexing.toExcept_eq_ok h] at hsource
  have hspelled (p : SpacedToken) (hp : p ∈ a.pieces) :
      Spells p.token.kind p.token.lexeme.toList := by
    have hmem : p.token ∈ a.body := List.mem_map_of_mem hp
    exact hsource.spells _ (List.mem_append_left _ hmem) (hbody _ hmem)
  apply toExcept_of_scans
  rw [String.toList_ofList]
  exact (isLayout_of_separator a.opens).scans (a.apart.scans hspelled)

end Arrangement

/-- The tokens of a source can be arranged in any way: the new source is cut into
tokens of the same kinds and lexemes, on their new lines, and is read as the same
program or expression, or rejected for the same reasons, up to lines. -/
theorem layout_is_free (source : String) (a : Arrangement) (line : Nat)
    (h : (lex source).toExcept = .ok (a.body ++ [.endOfInput line])) :
    (lex (.ofList a.text)).toExcept = .ok a.tokens ∧
      a.tokens.map (Token.move .forget) =
        (a.body ++ [Token.endOfInput line]).map (Token.move .forget) ∧
      ∀ firstId : NodeId,
        Parser.moveAnswer .forget (List.map (Stmt.move .forget)) (parseProgram a.tokens firstId) =
          Parser.moveAnswer .forget (List.map (Stmt.move .forget))
            (parseProgram (a.body ++ [.endOfInput line]) firstId) ∧
        Parser.moveAnswer .forget (Expr.move .forget) (parseExpression a.tokens firstId) =
          Parser.moveAnswer .forget (Expr.move .forget)
            (parseExpression (a.body ++ [.endOfInput line]) firstId) := by
  have hends : ∃ t ∈ a.body ++ [Token.endOfInput line], t.isEnd = true :=
    ⟨.endOfInput line, by simp⟩
  refine ⟨a.lex_text h, a.tokens_forget line, fun firstId => ⟨?_, ?_⟩⟩
  · rw [← parseProgram_move .forget a.exists_isEnd, ← parseProgram_move .forget hends,
      a.tokens_forget line]
  · rw [← parseExpression_move .forget a.exists_isEnd, ← parseExpression_move .forget hends,
      a.tokens_forget line]

/-- A name, two equals signs and a string with a line end in it, which looks like a
comment, are found again when a comment follows the name. -/
theorem layout_is_free_string : ∃ a : Arrangement,
    a.text = "a \n//b\n== \"//\n\"".toList ∧
      (lex "a==\"//\n\"").toExcept = .ok (a.body ++ [.endOfInput 2]) ∧
      (lex (.ofList a.text)).toExcept = .ok
        [⟨.identifier, "a", 1⟩, ⟨.symbol .equalEqual, "==", 3⟩, ⟨.string "//\n", "\"//\n\"", 4⟩,
          .endOfInput 4] ∧
      (parseExpression a.tokens 0).2 = 1 := by
  let a : Arrangement :=
    { front := []
      pieces :=
        [⟨⟨.identifier, "a", 1⟩, [' ', '\n', '/', '/', 'b', '\n']⟩,
          ⟨⟨.symbol .equalEqual, "==", 1⟩, [' ']⟩, ⟨⟨.string "//\n", "\"//\n\"", 2⟩, []⟩]
      opens := .inl rfl
      apart := .cons _ _ _
        (.mk _ _ (by decide) (.blank _ _ (by decide) (.comment ['b'] [] (by decide) .nil)))
        (.cons _ _ _ (.mk _ _ (by decide) .nil) (.last _ (.inl rfl))) }
  have hlex : (lex "a==\"//\n\"").toExcept = .ok (a.body ++ [.endOfInput 2]) := by cbv
  obtain ⟨htext, -, hparse⟩ := layout_is_free _ a 2 hlex
  refine ⟨a, by cbv, hlex, htext, ?_⟩
  have hnumbers := congrArg Prod.snd (hparse 0).2
  have hread : (parseExpression (a.body ++ [.endOfInput 2]) 0).2 = 1 := by cbv
  exact hnumbers.trans hread

end Lox
