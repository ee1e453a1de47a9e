import Lox.Proofs.Incremental.Moves
import Lox.Proofs.Token.Scanning
import Mathlib.Data.List.TakeWhile

/-!
# Cutting one source after another

A source that can be cut into tokens is cut in the same way in front of a new
line, and what is behind that line as if it stood alone, but further down.

## Implementation notes

A line end stops whatever chunk is in front of it, but for a string, and that has
its closing quote.
-/

namespace Lox

/-! ## Runs of characters -/

section

variable {p : Char → Bool} {c : Char}

theorem takeWhile_append_of_stop (h : p c = false) (text more : List Char) :
    (text ++ c :: more).takeWhile p = text.takeWhile p := by
  induction text with
  | nil => simp [h]
  | cons first text ih =>
    rw [List.cons_append, List.takeWhile_cons, List.takeWhile_cons, ih]

theorem dropWhile_append_of_stop (h : p c = false) (text more : List Char) :
    (text ++ c :: more).dropWhile p = text.dropWhile p ++ c :: more := by
  induction text with
  | nil => simp [h]
  | cons first text ih =>
    rw [List.cons_append, List.dropWhile_cons, List.dropWhile_cons, ih]
    split <;> rfl

end

/-! ## Chunks -/

namespace Chunk

/-- The same chunk when the source goes on. -/
def onto (more : List Char) : Chunk → Chunk
  | .blank text rest => .blank text (rest ++ more)
  | .lexeme kind text rest => .lexeme kind text (rest ++ more)
  | .fault cause text => .fault cause text

theorem slash_onto (rest more : List Char) :
    slash (rest ++ '\n' :: more) = (slash rest).onto ('\n' :: more) := by
  cases rest with
  | nil => rfl
  | cons c rest =>
    by_cases hc : c = '/'
    · subst hc
      rw [List.cons_append, slash, slash, takeWhile_append_of_stop rfl, dropWhile_append_of_stop rfl,
        onto]
    · rw [List.cons_append, slash, slash, onto, List.cons_append]
      all_goals
        intro rest' heq
        exact hc (List.cons.inj heq).1

theorem quoted_onto {rest : List Char} (more : List Char)
    (h : (quoted rest).rest?.isSome = true) : quoted (rest ++ more) = (quoted rest).onto more := by
  unfold quoted at h ⊢
  cases hclose : rest.dropWhile (· != '"') with
  | nil =>
    rw [hclose] at h
    cases h
  | cons close others =>
    have hall : ¬ ∀ c ∈ rest, (c != '"') = true := by
      intro hall
      rw [List.dropWhile_eq_nil_iff.mpr hall] at hclose
      cases hclose
    have hcontents : (rest ++ more).takeWhile (· != '"') = rest.takeWhile (· != '"') := by
      rw [List.takeWhile_append, if_neg]
      intro hlength
      exact hall (List.takeWhile_eq_self_iff.mp
        ((List.takeWhile_prefix _).eq_of_length hlength))
    have hbehind : (rest ++ more).dropWhile (· != '"') = close :: others ++ more := by
      rw [List.dropWhile_append, hclose]
      rfl
    rw [hcontents, hbehind]
    rfl

theorem number_onto (first : Char) (rest more : List Char) :
    number first (rest ++ '\n' :: more) = (number first rest).onto ('\n' :: more) := by
  unfold number
  rw [takeWhile_append_of_stop rfl, dropWhile_append_of_stop rfl]
  rcases rest.dropWhile Char.isDigit with _ | ⟨point, _ | ⟨digit, others⟩⟩
  · rfl
  · by_cases hpoint : point = '.'
    · subst hpoint
      rfl
    · simp [hpoint, onto]
  · by_cases hpoint : point = '.'
    · subst hpoint
      simp only [List.cons_append]
      split
      · rw [takeWhile_append_of_stop rfl, dropWhile_append_of_stop rfl, onto]
      · rfl
    · simp [hpoint, onto]

theorem word_onto (first : Char) (rest more : List Char) :
    word first (rest ++ '\n' :: more) = (word first rest).onto ('\n' :: more) := by
  rw [word, word, takeWhile_append_of_stop rfl, dropWhile_append_of_stop rfl, onto]

theorem mark_onto (first : Char) (rest more : List Char) :
    mark first (rest ++ '\n' :: more) = (mark first rest).onto ('\n' :: more) := by
  unfold mark
  split
  · rfl
  · cases rest with
    | nil => rfl
    | cons c rest =>
      by_cases hc : c = '='
      · subst hc
        rfl
      · simp [hc, onto]
  · rfl

/-- A chunk that can be passed is the same in front of a new line. -/
theorem first_onto {c : Char} {cs : List Char} (more : List Char)
    (h : (first c cs).rest?.isSome = true) :
    first c (cs ++ '\n' :: more) = (first c cs).onto ('\n' :: more) := by
  unfold first at h ⊢
  split
  · rfl
  split
  · exact slash_onto cs more
  split
  · rename_i hblank hslash hquote
    rw [if_neg hblank, if_neg hslash, if_pos hquote] at h
    exact quoted_onto _ h
  split
  · exact number_onto c cs more
  split
  · exact word_onto c cs more
  · exact mark_onto c cs more

end Chunk

/-! ## Sources -/

namespace Lexing

/-- What was cut, with more tokens in front. -/
def after (ts : List Token) (l : Lexing) : Lexing :=
  ⟨ts ++ l.tokens, l.fault?⟩

/-- What was cut, on other lines. -/
def move (μ : Move) (l : Lexing) : Lexing :=
  ⟨l.tokens.map (Token.move μ), l.fault?.map fun e => { e with line := μ.line e.line }⟩

theorem toExcept_eq_ok {l : Lexing} {tokens : List Token} (h : l.toExcept = .ok tokens) :
    l = ⟨tokens, none⟩ := by
  obtain ⟨cut, fault?⟩ := l
  cases fault? with
  | none =>
    obtain rfl : cut = tokens := Except.ok.inj h
    rfl
  | some e => cases h

/-- The answer for a source that is further down, behind other tokens. -/
theorem toExcept_after_move (μ : Move) (ts : List Token) (l : Lexing) :
    ((l.move μ).after ts).toExcept =
      (l.toExcept.map fun tokens => ts ++ tokens.map (Token.move μ)).mapError
        fun e => { e with line := μ.line e.line } := by
  obtain ⟨tokens, fault?⟩ := l
  cases fault? <;> rfl

end Lexing

/-- A source that starts further down is cut in the same way. -/
theorem lexFrom_add (lines line : Nat) (source : List Char) :
    lexFrom (line + lines) source = (lexFrom line source).move (.down lines) := by
  fun_induction lexFrom line source with
  | case1 line =>
    rw [lexFrom]
    rfl
  | case2 line c cs text rest hchunk ih =>
    rw [lexFrom_blank _ hchunk, Nat.add_right_comm, ih]
  | case3 line c cs kind text rest hchunk line' ih =>
    rw [lexFrom_lexeme _ hchunk, Nat.add_right_comm, ih]
    rfl
  | case4 line c cs cause text hchunk =>
    rw [lexFrom_fault _ hchunk, Nat.add_right_comm]
    rfl

/-- What is behind a source that can be cut and a line end is cut on its own. -/
theorem lexFrom_append (line : Nat) (source more : List Char)
    (h : (lexFrom line source).fault? = none) :
    ∃ ts, (lexFrom line source).tokens = ts ++ [.endOfInput (line + newlines source)] ∧
      lexFrom line (source ++ '\n' :: more) =
        (lexFrom (line + newlines source + 1) more).after ts := by
  fun_induction lexFrom line source with
  | case1 line =>
    refine ⟨[], rfl, ?_⟩
    have hblank : Chunk.first '\n' more = .blank ['\n'] more := rfl
    rw [List.nil_append, lexFrom_blank _ hblank]
    rfl
  | case2 line c cs text rest hchunk ih =>
    obtain ⟨ts, htokens, hmore⟩ := ih h
    have hpassed : (Chunk.first c cs).rest?.isSome = true := by
      rw [hchunk]
      rfl
    have hfirst := Chunk.first_onto more hpassed
    have hfits := Chunk.first_fits c cs
    rw [hchunk] at hfirst hfits
    cases hfits with
    | blank _ _ heq _ =>
      refine ⟨ts, ?_, ?_⟩
      · rw [htokens, heq, newlines_append, Nat.add_assoc]
      · rw [List.cons_append, lexFrom_blank _ hfirst, hmore, heq, newlines_append, Nat.add_assoc line]
  | case3 line c cs kind text rest hchunk line' ih =>
    obtain ⟨ts, htokens, hmore⟩ := ih h
    have hpassed : (Chunk.first c cs).rest?.isSome = true := by
      rw [hchunk]
      rfl
    have hfirst := Chunk.first_onto more hpassed
    have hfits := Chunk.first_fits c cs
    rw [hchunk] at hfirst hfits
    cases hfits with
    | lexeme _ _ _ heq _ _ =>
      refine ⟨⟨kind, .ofList text, line'⟩ :: ts, ?_, ?_⟩
      · rw [Lexing.tokens_cons, htokens, heq, newlines_append, ← Nat.add_assoc]
        rfl
      · rw [List.cons_append, lexFrom_lexeme _ hfirst, hmore, heq, newlines_append,
          ← Nat.add_assoc line]
        rfl
  | case4 line c cs cause text hchunk => cases h

/-- How far down the second of two sources is when the first is put in front of it,
on lines of its own. -/
def linesOf (source : String) : Nat :=
  1 + newlines source.toList

/-- A source that can be cut has one token for the end, which is the last. -/
theorem lex_body {source : String} {tokens : List Token}
    (h : (lex source).toExcept = .ok tokens) :
    ∃ body line, tokens = body ++ [.endOfInput line] ∧ ∀ t ∈ body, t.isEnd = false := by
  have hends := (scans_lexFrom [] source.toList).endsOnce
  change EndsOnce _ (lex source).tokens (lex source).report? at hends
  rw [Lexing.toExcept_eq_ok h] at hends
  cases hends with
  | complete body hbody => exact ⟨body, _, rfl, hbody⟩

theorem ends_of_lex {source : String} {tokens : List Token}
    (h : (lex source).toExcept = .ok tokens) : ∃ t ∈ tokens, t.isEnd = true := by
  obtain ⟨body, line, rfl, -⟩ := lex_body h
  exact ⟨.endOfInput line, by simp, rfl⟩

/-- A source with another one in front of it is cut as it is alone, further down and
behind the tokens of the other. -/
theorem lex_append {first : String} {tokens : List Token}
    (h : (lex first).toExcept = .ok tokens) (second : String) :
    ∃ ts line, tokens = ts ++ [.endOfInput line] ∧ (∀ t ∈ ts, t.isEnd = false) ∧
      lex (first ++ "\n" ++ second) = ((lex second).move (.down (linesOf first))).after ts := by
  obtain ⟨body, line, hbody, hends⟩ := lex_body h
  have hcut : lexFrom 1 first.toList = ⟨tokens, none⟩ := Lexing.toExcept_eq_ok h
  obtain ⟨ts, htokens, hmore⟩ := lexFrom_append 1 first.toList second.toList (by rw [hcut])
  rw [hcut, hbody] at htokens
  obtain ⟨rfl, -⟩ := List.append_inj' htokens rfl
  refine ⟨body, line, hbody, hends, ?_⟩
  have hsource : (first ++ "\n" ++ second).toList = first.toList ++ '\n' :: second.toList := by
    simp
  have hline : 1 + newlines first.toList + 1 = 1 + linesOf first := Nat.add_comm _ _
  rw [lex, hsource, hmore, hline, lexFrom_add]
  rfl

end Lox
