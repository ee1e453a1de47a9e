import Lox.Proofs.Token.Lexemes

/-!
# The scanner reads by the grammar

`Chunk.first` decides by one or two characters and then takes what it can; each
of its cases takes a whole blank, comment or longest lexeme, or fails where the
grammar has nothing to offer. Cutting a source to its end is thus the one way in
which the grammar reads it.
-/

namespace Lox

/-! ## Classes of characters -/

theorem isDigit_iff (c : Char) : c.isDigit = true ↔ IsDigit c := by
  simp [Char.isDigit, IsDigit, Char.le_def]

theorem isUpper_iff (c : Char) : c.isUpper = true ↔ 'A' ≤ c ∧ c ≤ 'Z' :=
  decide_eq_true_iff

theorem isLower_iff (c : Char) : c.isLower = true ↔ 'a' ≤ c ∧ c ≤ 'z' :=
  (Bool.and_eq_true _ _).to_iff.trans (and_congr decide_eq_true_iff decide_eq_true_iff)

theorem isWordStart_iff (c : Char) : isWordStart c = true ↔ IsLetter c := by
  change (c.isUpper || c.isLower || c == '_') = true ↔ _
  rw [Bool.or_eq_true, Bool.or_eq_true, isUpper_iff, isLower_iff, beq_iff_eq, or_assoc, IsLetter]

theorem isWordPart_iff (c : Char) : isWordPart c = true ↔ IsLetter c ∨ IsDigit c := by
  rw [← isDigit_iff, ← isWordStart_iff]
  simp only [isWordPart, isWordStart, Char.isAlphanum, Bool.or_eq_true]
  tauto

theorem isBlank_iff (c : Char) : isBlank c = true ↔ c ∈ [' ', '\t', '\r', '\n'] := by
  simp [isBlank, or_assoc]

/-! ## Runs of characters -/

/-- A prefix of characters of a class is no longer than the run of that class. -/
theorem length_le_takeWhile {p : Char → Bool} {text source : List Char} (h : text <+: source)
    (hall : ∀ c ∈ text, p c = true) : text.length ≤ (source.takeWhile p).length := by
  obtain ⟨tail, rfl⟩ := h
  rw [List.takeWhile_append_of_pos hall, List.length_append]
  exact Nat.le_add_right _ _

/-- Characters of a class and one that is not cut a text where its run ends. -/
theorem span_append {p : Char → Bool} {text tail : List Char} {c : Char}
    (hall : ∀ c ∈ text, p c = true) (hc : p c = false) :
    (text ++ c :: tail).takeWhile p = text ∧ (text ++ c :: tail).dropWhile p = c :: tail := by
  rw [List.takeWhile_append_of_pos hall, List.dropWhile_append_of_pos hall]
  simp [hc]

theorem mem_takeWhile {p : Char → Bool} {source : List Char} {c : Char}
    (h : c ∈ source.takeWhile p) : p c = true :=
  List.all_eq_true.mp (List.all_takeWhile) c h

/-- A run stops at a character outside its class. -/
theorem head_dropWhile {p : Char → Bool} {source : List Char} {c : Char}
    (h : c ∈ (source.dropWhile p).head?) : p c = false := by
  have := List.head?_dropWhile_not p source
  rw [Option.mem_def.mp h] at this
  simpa using this

/-- The digits at the front of a text that starts with one. -/
theorem isDigits_takeWhile {c : Char} (hc : c.isDigit = true) (cs : List Char) :
    IsDigits (c :: cs.takeWhile Char.isDigit) := by
  constructor
  · simp
  · intro d hd
    rw [← isDigit_iff]
    rcases List.mem_cons.mp hd with rfl | hd
    · exact hc
    · exact mem_takeWhile hd

theorem IsDigits.isDigit {text : List Char} (h : IsDigits text) : ∀ c ∈ text, c.isDigit = true :=
  fun c hc => (isDigit_iff c).mpr (h.digits c hc)

/-! ## Chunks -/

namespace Chunk

variable {c : Char} {cs : List Char}

/-- A chunk is what the grammar finds at the front of a text. -/
inductive Fits (c : Char) (cs : List Char) : Chunk → Prop
  | blank (text rest : List Char) (heq : c :: cs = text ++ rest) (h : Trivia text rest) :
      Fits c cs (.blank text rest)
  | lexeme (kind : TokenKind) (text rest : List Char) (heq : c :: cs = text ++ rest)
      (h : ¬ StartsTrivia (c :: cs)) (front : Front (c :: cs) kind text) :
      Fits c cs (.lexeme kind text rest)
  | unterminated (hq : c = '"') (h : '"' ∉ cs) : Fits c cs (.fault .unterminatedString (c :: cs))
  | unexpected (hq : c ≠ '"') (h : ¬ StartsTrivia (c :: cs))
      (hnone : ∀ kind text, Spells kind text → ¬ text <+: c :: cs) :
      Fits c cs (.fault (.unexpectedCharacter c) [])

/-- A text starts with a blank or a comment only if its first characters say
so. -/
theorem not_startsTrivia (hb : c ∉ [' ', '\t', '\r', '\n'])
    (hslash : c = '/' → '/' ∉ cs.head?) : ¬ StartsTrivia (c :: cs) := by
  rintro ⟨text, rest, heq, h⟩
  cases h with
  | blank c' rest hc =>
    cases heq
    exact hb hc
  | comment text rest hline hend =>
    cases heq
    exact hslash rfl (by simp)

/-- A lexeme at the front of a nonempty text starts with its first character. -/
theorem prefix_cons {kind : TokenKind} {text : List Char} (h : Spells kind text)
    (hpre : text <+: c :: cs) : ∃ text', text = c :: text' ∧ text' <+: cs := by
  obtain ⟨c', text', rfl⟩ := List.exists_cons_of_ne_nil h.nonempty
  obtain ⟨rfl, htail⟩ := List.cons_prefix_cons.mp hpre
  exact ⟨text', rfl, htail⟩

theorem fits_slash (rest : List Char) : (slash rest).Fits '/' rest := by
  unfold slash
  split
  · rename_i rest
    apply Fits.blank
    · simp [List.takeWhile_append_dropWhile]
    · apply Trivia.comment
      · intro hmem
        simpa using mem_takeWhile hmem
      · intro c hc
        simpa using head_dropWhile hc
  · rename_i rest hno
    apply Fits.lexeme
    · rfl
    · apply not_startsTrivia (by decide)
      intro _ hhead
      obtain ⟨tail, rfl⟩ := List.head?_eq_some_iff.mp hhead
      exact hno tail rfl
    · constructor
      · exact .symbol .slash
      · exact ⟨_, rfl⟩
      · intro kind text h hpre
        obtain ⟨text, rfl, -⟩ := prefix_cons h hpre
        obtain ⟨s, hs, -⟩ := h.of_mark (by decide) (by decide) (by decide)
        revert hs
        cases s <;> simp +contextual [Symbol.text]

theorem fits_quoted (rest : List Char) : (quoted rest).Fits '"' rest := by
  have hsplit : rest.takeWhile (· != '"') ++ rest.dropWhile (· != '"') = rest :=
    List.takeWhile_append_dropWhile
  have hfree : '"' ∉ rest.takeWhile (· != '"') := fun hmem => by simpa using mem_takeWhile hmem
  unfold quoted
  simp only
  split
  · rename_i hnil
    rw [hnil, List.append_nil] at hsplit
    exact .unterminated rfl (hsplit ▸ hfree)
  · rename_i close tail hcons
    obtain rfl : close = '"' := by
      have hhead : close ∈ (rest.dropWhile (· != '"')).head? := by simp [hcons]
      simpa using head_dropWhile hhead
    rw [hcons] at hsplit
    have heq : '"' :: rest = ('"' :: rest.takeWhile (· != '"') ++ ['"']) ++ tail := by
      simpa using hsplit.symm
    apply Fits.lexeme
    · exact heq
    · exact not_startsTrivia_quote rest
    · constructor
      · exact .string _ hfree
      · exact ⟨tail, heq.symm⟩
      · intro kind text h hpre
        obtain ⟨text, rfl, htail⟩ := prefix_cons h hpre
        obtain ⟨contents, hcontents, rfl, -⟩ := h.of_quote
        have hlen : contents.length ≤ (rest.takeWhile (· != '"')).length := by
          apply length_le_takeWhile ((List.prefix_append _ _).trans htail)
          intro c hc
          have hne : c ≠ '"' := by
            rintro rfl
            exact hcontents hc
          simpa using hne
        simpa using hlen

theorem fits_number (hc : c.isDigit = true) (rest : List Char) : (number c rest).Fits c rest := by
  have hdig : IsDigit c := (isDigit_iff c).mp hc
  have hwhole := isDigits_takeWhile hc rest
  have hsplit : c :: rest.takeWhile Char.isDigit ++ rest.dropWhile Char.isDigit = c :: rest := by
    rw [List.cons_append, List.takeWhile_append_dropWhile]
  have htrivia : ¬ StartsTrivia (c :: rest) := by
    apply not_startsTrivia
    · intro hmem
      fin_cases hmem <;> exact absurd hc (by decide)
    · rintro rfl
      exact absurd hc (by decide)
  have htake : (c :: rest).takeWhile Char.isDigit = c :: rest.takeWhile Char.isDigit := by
    simp [hc]
  have hdrop : (c :: rest).dropWhile Char.isDigit = rest.dropWhile Char.isDigit := by simp [hc]
  -- digits without a point are part of the run, digits with one start with it
  have hdigits {text : List Char} (h : IsDigits text) (hpre : text <+: c :: rest) :
      text.length ≤ (c :: rest.takeWhile Char.isDigit).length :=
    htake ▸ length_le_takeWhile hpre h.isDigit
  have hpoint {digits fraction : List Char} (h : IsDigits digits)
      (hpre : digits ++ '.' :: fraction <+: c :: rest) :
      digits = c :: rest.takeWhile Char.isDigit ∧
        ∃ tail, rest.dropWhile Char.isDigit = '.' :: (fraction ++ tail) := by
    obtain ⟨tail, heq⟩ := hpre
    obtain ⟨h1, h2⟩ := @span_append Char.isDigit digits (fraction ++ tail) '.' h.isDigit (by decide)
    rw [List.append_assoc, List.cons_append] at heq
    rw [heq, htake] at h1
    rw [heq, hdrop] at h2
    exact ⟨h1.symm, tail, h2⟩
  -- without a fraction, the run of digits is the longest number
  have hint (hno : ∀ digit tail, digit.isDigit = true →
      rest.dropWhile Char.isDigit ≠ '.' :: digit :: tail) :
      Front (c :: rest) (.number (Number.ofLiteral (c :: rest.takeWhile Char.isDigit) []))
        (c :: rest.takeWhile Char.isDigit) := by
    constructor
    · exact .whole _ _ hwhole (Number.rounds_ofLiteral _ _)
    · exact ⟨_, hsplit⟩
    · intro kind text h hpre
      obtain ⟨text, rfl, -⟩ := prefix_cons h hpre
      rcases h.of_digit hdig with ⟨v, -, hds, -⟩ | ⟨digits, fraction, v, -, heq, hds, hfr, -⟩
      · exact hdigits hds hpre
      · rw [heq] at hpre
        obtain ⟨-, tail, htail⟩ := hpoint hds hpre
        obtain ⟨d, ds, rfl, hd⟩ := hfr.first
        exact absurd htail (hno d (ds ++ tail) ((isDigit_iff d).mpr hd))
  unfold number
  simp only
  split
  · rename_i digit tail hafter
    rw [hafter] at hsplit
    split
    · rename_i hdigit
      have hfraction := isDigits_takeWhile hdigit tail
      have hsplit' : c :: rest = (c :: rest.takeWhile Char.isDigit ++
          '.' :: digit :: tail.takeWhile Char.isDigit) ++ tail.dropWhile Char.isDigit := by
        rw [← hsplit]
        simp [List.takeWhile_append_dropWhile]
      apply Fits.lexeme
      · exact hsplit'
      · exact htrivia
      · constructor
        · exact .decimal _ _ _ hwhole hfraction (Number.rounds_ofLiteral _ _)
        · exact ⟨_, hsplit'.symm⟩
        · intro kind text h hpre
          obtain ⟨text, rfl, -⟩ := prefix_cons h hpre
          rcases h.of_digit hdig with ⟨v, -, hds, -⟩ | ⟨digits, fraction, v, -, heq, hds, hfr, -⟩
          · exact (hdigits hds hpre).trans (by simp)
          · rw [heq] at hpre
            obtain ⟨rfl, after, hrest⟩ := hpoint hds hpre
            have hpre' : fraction <+: digit :: tail := by
              rw [hafter] at hrest
              exact ⟨after, (List.cons.inj hrest).2.symm⟩
            have hlen := length_le_takeWhile hpre' hfr.isDigit
            simp only [List.takeWhile_cons, hdigit, if_true] at hlen
            rw [heq]
            simpa using hlen
    · rename_i hdigit
      apply Fits.lexeme
      · exact hsplit.symm
      · exact htrivia
      · apply hint
        intro d t hd heq
        rw [hafter] at heq
        cases heq
        exact hdigit hd
  · rename_i hno
    apply Fits.lexeme
    · exact hsplit.symm
    · exact htrivia
    · apply hint
      intro d t _ heq
      exact hno d t heq

theorem spells_wordKind {text : List Char} (h : IsWord text) : Spells (wordKind text) text := by
  unfold wordKind Keyword.ofText?
  split
  · rename_i k hk
    have htext : k.text = String.ofList text := by simpa using List.find?_some hk
    have hlist : k.text.toList = text := by rw [htext, String.toList_ofList]
    rw [← hlist]
    exact .keyword k
  · rename_i hnone
    apply Spells.identifier text h
    intro k hk
    have hne := List.find?_eq_none.mp hnone k k.mem_all
    simp [← hk] at hne

theorem fits_word (hc : isWordStart c = true) (rest : List Char) : (word c rest).Fits c rest := by
  have hletter : IsLetter c := (isWordStart_iff c).mp hc
  have hsplit : c :: rest.takeWhile isWordPart ++ rest.dropWhile isWordPart = c :: rest := by
    rw [List.cons_append, List.takeWhile_append_dropWhile]
  have hword : IsWord (c :: rest.takeWhile isWordPart) := by
    apply IsWord.mk
    · exact hletter
    · intro d hd
      exact (isWordPart_iff d).mp (mem_takeWhile hd)
  apply Fits.lexeme
  · exact hsplit.symm
  · apply not_startsTrivia
    · intro hmem
      fin_cases hmem <;> exact absurd hc (by decide)
    · rintro rfl
      exact absurd hc (by decide)
  · constructor
    · exact spells_wordKind hword
    · exact ⟨_, hsplit⟩
    · intro kind text h hpre
      obtain ⟨text, rfl, htail⟩ := prefix_cons h hpre
      obtain ⟨hothers, -⟩ := h.of_letter hletter
      cases hothers with
      | mk _ _ _ hall =>
        have hlen := length_le_takeWhile htail fun d hd => (isWordPart_iff d).mpr (hall d hd)
        simpa using hlen

theorem text_of_single {s : Symbol} (h : Symbol.single? c = some s) : s.text.toList = [c] := by
  unfold Symbol.single? at h
  split at h <;> cases h <;> rfl

theorem text_of_extensible {alone extended : Symbol}
    (h : Symbol.extensible? c = some (alone, extended)) :
    alone.text.toList = [c] ∧ extended.text.toList = [c, '='] := by
  unfold Symbol.extensible? at h
  split at h <;> cases h <;> exact ⟨rfl, rfl⟩

/-- The first character of a symbol determines what can follow in it. -/
theorem symbol_text {s : Symbol} (h : s.text.toList = c :: cs) :
    c = '/' ∨ (Symbol.single? c = some s ∧ cs = []) ∨
      Symbol.single? c = none ∧ ∃ alone extended, Symbol.extensible? c = some (alone, extended) ∧
        (cs = [] ∨ cs = ['=']) := by
  cases s <;> simp only [Symbol.text, String.reduceToList, List.cons.injEq] at h <;>
    obtain ⟨rfl, rfl⟩ := h <;> simp [Symbol.single?, Symbol.extensible?]

theorem fits_mark (hb : isBlank c = false) (hslash : c ≠ '/') (hq : c ≠ '"')
    (hd : c.isDigit = false) (hl : isWordStart c = false) (rest : List Char) :
    (mark c rest).Fits c rest := by
  have htrivia : ¬ StartsTrivia (c :: rest) := by
    apply not_startsTrivia
    · rw [← isBlank_iff, hb]
      exact Bool.false_ne_true
    · intro heq
      exact absurd heq hslash
  have hdig : ¬ IsDigit c := by
    rw [← isDigit_iff, hd]
    exact Bool.false_ne_true
  have hletter : ¬ IsLetter c := by
    rw [← isWordStart_iff, hl]
    exact Bool.false_ne_true
  -- whatever is spelled here is a symbol
  have hsymbol {kind : TokenKind} {text : List Char} (h : Spells kind text)
      (hpre : text <+: c :: rest) : ∃ s : Symbol, ∃ text', text = c :: text' ∧
        s.text.toList = c :: text' ∧ text' <+: rest := by
    obtain ⟨text', rfl, htail⟩ := prefix_cons h hpre
    obtain ⟨s, hs, -⟩ := h.of_mark hq hdig hletter
    exact ⟨s, text', rfl, hs, htail⟩
  unfold mark
  split
  · rename_i s hsingle
    have hspelled : Spells (.symbol s) [c] := text_of_single hsingle ▸ .symbol s
    apply Fits.lexeme
    · rfl
    · exact htrivia
    · constructor
      · exact hspelled
      · exact ⟨_, rfl⟩
      · intro kind text h hpre
        obtain ⟨s', text', rfl, hs', -⟩ := hsymbol h hpre
        rcases symbol_text hs' with heq | ⟨-, rfl⟩ | ⟨hnone, -⟩
        · exact absurd heq hslash
        · exact Nat.le_refl _
        · simp [hsingle] at hnone
  · rename_i alone extended hsingle hext
    obtain ⟨halone, hextended⟩ := text_of_extensible hext
    split
    · rename_i rest
      apply Fits.lexeme
      · rfl
      · exact htrivia
      · constructor
        · exact hextended ▸ .symbol extended
        · exact ⟨_, rfl⟩
        · intro kind text h hpre
          obtain ⟨s', text', rfl, hs', -⟩ := hsymbol h hpre
          rcases symbol_text hs' with heq | ⟨-, rfl⟩ | ⟨-, _, _, -, rfl | rfl⟩
          · exact absurd heq hslash
          · simp
          · simp
          · simp
    · rename_i hno
      apply Fits.lexeme
      · rfl
      · exact htrivia
      · constructor
        · exact halone ▸ .symbol alone
        · exact ⟨_, rfl⟩
        · intro kind text h hpre
          obtain ⟨s', text', rfl, hs', htail⟩ := hsymbol h hpre
          rcases symbol_text hs' with heq | ⟨-, rfl⟩ | ⟨-, _, _, -, rfl | rfl⟩
          · exact absurd heq hslash
          · simp
          · simp
          · obtain ⟨tail, rfl⟩ := htail
            exact absurd rfl (hno tail)
  · rename_i hsingle hext
    apply Fits.unexpected hq htrivia
    intro kind text h hpre
    obtain ⟨s', text', rfl, hs', -⟩ := hsymbol h hpre
    rcases symbol_text hs' with heq | ⟨hs, -⟩ | ⟨-, _, _, he, -⟩
    · exact absurd heq hslash
    · simp [hsingle] at hs
    · simp [hext] at he

/-- The first chunk of a text is what the grammar finds there. -/
theorem first_fits (c : Char) (cs : List Char) : (first c cs).Fits c cs := by
  unfold first
  split
  · rename_i hb
    exact .blank _ _ rfl (.blank c cs ((isBlank_iff c).mp hb))
  rename_i hb
  split
  · rename_i hc
    obtain rfl := beq_iff_eq.mp hc
    exact fits_slash cs
  rename_i hslash
  split
  · rename_i hc
    obtain rfl := beq_iff_eq.mp hc
    exact fits_quoted cs
  rename_i hq
  split
  · rename_i hd
    exact fits_number hd cs
  rename_i hd
  split
  · rename_i hl
    exact fits_word hl cs
  · rename_i hl
    apply fits_mark
    · simpa using hb
    · simpa using hslash
    · simpa using hq
    · simpa using hd
    · simpa using hl

end Chunk

/-! ## Whole sources -/

/-- How a lexing ended early: the message and the line. -/
def Lexing.report? (l : Lexing) : Option (String × Nat) :=
  l.fault?.map fun e => (e.cause.message, e.line)

@[simp] theorem Lexing.tokens_cons (t : Token) (l : Lexing) : (l.cons t).tokens = t :: l.tokens :=
  rfl

@[simp] theorem Lexing.report?_cons (t : Token) (l : Lexing) : (l.cons t).report? = l.report? :=
  rfl

theorem newlines_append (text rest : List Char) :
    newlines (text ++ rest) = newlines text + newlines rest :=
  List.count_append

section

variable {c : Char} {cs text rest : List Char}

theorem lexFrom_blank (line : Nat) (h : Chunk.first c cs = .blank text rest) :
    lexFrom line (c :: cs) = lexFrom (line + newlines text) rest := by
  rw [lexFrom, h]

theorem lexFrom_lexeme (line : Nat) {kind : TokenKind}
    (h : Chunk.first c cs = .lexeme kind text rest) :
    lexFrom line (c :: cs) = (lexFrom (line + newlines text) rest).cons
      ⟨kind, .ofList text, line + newlines text⟩ := by
  rw [lexFrom, h]

theorem lexFrom_fault (line : Nat) {cause : LexicalCause}
    (h : Chunk.first c cs = .fault cause text) :
    lexFrom line (c :: cs) = ⟨[], some ⟨cause, line + newlines text⟩⟩ := by
  rw [lexFrom, h]

end

/-- Cutting the rest of a text on the line that it starts on reads it by the
grammar. -/
theorem scans_lexFrom (before rest : List Char) :
    Scans before rest (lexFrom (1 + newlines before) rest).tokens
      (lexFrom (1 + newlines before) rest).report? := by
  generalize hline : 1 + newlines before = line
  fun_induction lexFrom line rest generalizing before with
  | case1 line =>
    subst hline
    exact .finish before
  | case2 line c cs text rest hchunk ih =>
    have hfits := Chunk.first_fits c cs
    rw [hchunk] at hfits
    cases hfits with
    | blank _ _ heq h =>
      rw [heq]
      apply Scans.skip h
      apply ih
      rw [newlines_append]
      omega
  | case3 line c cs kind text rest hchunk line' ih =>
    have hfits := Chunk.first_fits c cs
    rw [hchunk] at hfits
    cases hfits with
    | lexeme _ _ _ heq h front =>
      have hline' : 1 + newlines (before ++ text) = line' := by
        rw [newlines_append]
        omega
      rw [heq] at h front ⊢
      rw [Lexing.tokens_cons, Lexing.report?_cons]
      have hnext := ih (before ++ text) hline'
      rw [← hline'] at hnext ⊢
      exact .token h front hnext
  | case4 line c cs cause text hchunk =>
    have hfits := Chunk.first_fits c cs
    rw [hchunk] at hfits
    cases hfits with
    | unterminated hq h =>
      subst hq
      have hend : line + newlines ('"' :: cs) = 1 + newlines (before ++ '"' :: cs) := by
        rw [newlines_append]
        omega
      rw [hend]
      exact .unterminated before cs h
    | unexpected hq h hnone =>
      subst hline
      exact .unexpected before c cs hq h hnone

theorem Spells.isEnd_eq_false {kind : TokenKind} {text : List Char} (h : Spells kind text)
    (lexeme : String) (line : Nat) : (Token.mk kind lexeme line).isEnd = false := by
  cases h <;> rfl

/-- A reading ends once: after a token for the end on the last line, or with a
report and without such a token. -/
inductive EndsOnce (line : Nat) : List Token → Option (String × Nat) → Prop
  | complete (body : List Token) (h : ∀ t ∈ body, t.isEnd = false) :
      EndsOnce line (body ++ [⟨.endOfInput, "", line⟩]) none
  | early (body : List Token) (report : String × Nat) (h : ∀ t ∈ body, t.isEnd = false) :
      EndsOnce line body (some report)

theorem EndsOnce.cons {line : Nat} {ts : List Token} {fault? : Option (String × Nat)} {t : Token}
    (h : EndsOnce line ts fault?) (ht : t.isEnd = false) : EndsOnce line (t :: ts) fault? := by
  cases h with
  | complete body h => exact .complete (t :: body) (List.forall_mem_cons.mpr ⟨ht, h⟩)
  | early _ report h => exact .early (t :: ts) report (List.forall_mem_cons.mpr ⟨ht, h⟩)

theorem Scans.endsOnce {before rest : List Char} {ts : List Token}
    {fault? : Option (String × Nat)} (h : Scans before rest ts fault?) :
    EndsOnce (1 + newlines (before ++ rest)) ts fault? := by
  induction h with
  | finish before =>
    rw [List.append_nil]
    exact .complete [] (by simp)
  | skip _ _ ih =>
    rw [List.append_assoc] at ih
    exact ih
  | token _ front _ ih =>
    rw [List.append_assoc] at ih
    exact ih.cons (front.spells.isEnd_eq_false _ _)
  | unterminated => exact .early [] _ (by simp)
  | unexpected => exact .early [] _ (by simp)

/-- Cutting a source is the one way to read it by the lexical grammar, and it
ends once. -/
theorem scans_iff_lex (source : String) :
    (∀ ts fault?, Scans [] source.toList ts fault? ↔
      (lex source).tokens = ts ∧ (lex source).report? = fault?) ∧
    EndsOnce (1 + newlines source.toList) (lex source).tokens (lex source).report? := by
  have hscans : Scans [] source.toList (lex source).tokens (lex source).report? :=
    scans_lexFrom [] source.toList
  constructor
  · intro ts fault?
    constructor
    · exact hscans.unique
    · rintro ⟨rfl, rfl⟩
      exact hscans
  · exact hscans.endsOnce

end Lox
