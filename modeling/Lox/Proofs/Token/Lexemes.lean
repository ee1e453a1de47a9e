import Lox.Token.Lexer
import Lox.Proofs.Number.Nearest

/-!
# The lexical grammar

What a source is made of, said without a scanner. `Spells` has one rule for each
class of lexemes, `Trivia` the blanks and comments between them, and
`Lexeme.Front` picks the longest lexeme at the front of a text. `Scans` reads a
text from left to right with these, until it ends or nothing fits.

## Implementation notes

`Scans` keeps the text that it has passed, so that a line is always one more
than the newlines of a text that is at hand, and the passed text and the rest
always make up the whole source. It is deterministic since a text is spelled by
at most one kind and there is one longest prefix.
-/

namespace Lox

/-! ## Rules -/

/-- The decimal digits. -/
def IsDigit (c : Char) : Prop :=
  '0' ≤ c ∧ c ≤ '9'

instance : DecidablePred IsDigit := fun _ => inferInstanceAs (Decidable (_ ∧ _))

/-- The characters that a word starts with. -/
def IsLetter (c : Char) : Prop :=
  ('A' ≤ c ∧ c ≤ 'Z') ∨ ('a' ≤ c ∧ c ≤ 'z') ∨ c = '_'

instance : DecidablePred IsLetter := fun _ => inferInstanceAs (Decidable (_ ∨ _))

/-- A nonempty run of digits. -/
structure IsDigits (text : List Char) : Prop where
  nonempty : text ≠ []
  digits (c : Char) (h : c ∈ text) : IsDigit c

/-- A letter, then letters and digits. -/
inductive IsWord : List Char → Prop
  | mk (first : Char) (others : List Char) (hfirst : IsLetter first)
      (hothers : ∀ c ∈ others, IsLetter c ∨ IsDigit c) : IsWord (first :: others)

/-- The texts that the tokens of each kind are spelled with. -/
inductive Spells : TokenKind → List Char → Prop
  | symbol (s : Symbol) : Spells (.symbol s) s.text.toList
  | string (contents : List Char) (h : '"' ∉ contents) :
      Spells (.string (.ofList contents)) ('"' :: contents ++ ['"'])
  | whole (digits : List Char) (value : Float) (h : IsDigits digits)
      (hvalue : Number.Rounds (Number.decimalValue digits []) value) :
      Spells (.number value) digits
  | decimal (digits fraction : List Char) (value : Float) (h : IsDigits digits)
      (hfraction : IsDigits fraction)
      (hvalue : Number.Rounds (Number.decimalValue digits fraction) value) :
      Spells (.number value) (digits ++ '.' :: fraction)
  | keyword (k : Keyword) : Spells (.keyword k) k.text.toList
  | identifier (text : List Char) (h : IsWord text) (hfree : ∀ k : Keyword, k.text.toList ≠ text) :
      Spells .identifier text

/-- What is skipped at once in front of a text: a blank, or a comment up to the
end of its line. -/
inductive Trivia : (text rest : List Char) → Prop
  | blank (c : Char) (rest : List Char) (h : c ∈ [' ', '\t', '\r', '\n']) : Trivia [c] rest
  | comment (text rest : List Char) (h : '\n' ∉ text) (hend : ∀ c ∈ rest.head?, c = '\n') :
      Trivia ('/' :: '/' :: text) rest

/-- A text starts with a blank or a comment. -/
def StartsTrivia (source : List Char) : Prop :=
  ∃ text rest, source = text ++ rest ∧ Trivia text rest

/-- The longest lexeme at the front of a text. -/
structure Front (source : List Char) (kind : TokenKind) (text : List Char) : Prop where
  spells : Spells kind text
  isPrefix : text <+: source
  longest (kind' : TokenKind) (text' : List Char) (h : Spells kind' text')
    (hpre : text' <+: source) : text'.length ≤ text.length

/-- Reading the text `rest` after the text `before` gives these tokens and, if
the reading stops early, the message and the line that it stops with. -/
inductive Scans : (before rest : List Char) → List Token → Option (String × Nat) → Prop
  | finish (before : List Char) : Scans before [] [⟨.endOfInput, "", 1 + newlines before⟩] none
  | skip {before text rest : List Char} {ts : List Token} {fault? : Option (String × Nat)}
      (h : Trivia text rest) (next : Scans (before ++ text) rest ts fault?) :
      Scans before (text ++ rest) ts fault?
  | token {before text rest : List Char} {kind : TokenKind} {ts : List Token}
      {fault? : Option (String × Nat)} (h : ¬ StartsTrivia (text ++ rest))
      (front : Front (text ++ rest) kind text) (next : Scans (before ++ text) rest ts fault?) :
      Scans before (text ++ rest) (⟨kind, .ofList text, 1 + newlines (before ++ text)⟩ :: ts) fault?
  | unterminated (before rest : List Char) (h : '"' ∉ rest) :
      Scans before ('"' :: rest) []
        (some ("Unterminated string.", 1 + newlines (before ++ '"' :: rest)))
  | unexpected (before : List Char) (c : Char) (rest : List Char) (hq : c ≠ '"')
      (h : ¬ StartsTrivia (c :: rest))
      (hnone : ∀ kind text, Spells kind text → ¬ text <+: c :: rest) :
      Scans before (c :: rest) [] (some (s!"Unexpected character: {c}", 1 + newlines before))

/-! ## Texts have one kind -/

theorem IsDigit.not_letter {c : Char} (h : IsDigit c) : ¬ IsLetter c := by
  rintro (⟨h', -⟩ | ⟨h', -⟩ | rfl)
  · exact absurd (Char.le_trans h' h.2) (by decide)
  · exact absurd (Char.le_trans h' h.2) (by decide)
  · exact absurd h.2 (by decide)

theorem not_isDigit_point : ¬ IsDigit '.' := by
  decide

theorem not_isDigit_quote : ¬ IsDigit '"' := by
  decide

theorem not_isLetter_quote : ¬ IsLetter '"' := by
  decide

/-- The first character of a symbol starts nothing else. -/
theorem Symbol.text_first (s : Symbol) : ∃ c cs, s.text.toList = c :: cs ∧ ¬ IsDigit c ∧
    ¬ IsLetter c ∧ c ≠ '"' := by
  cases s <;> exact ⟨_, _, rfl, by decide, by decide, by decide⟩

/-- Checking the characters one by one shows that a text is a word. -/
theorem isWord_of_all {first : Char} {others : List Char} (hfirst : IsLetter first)
    (hothers : (others.all fun c => IsLetter c ∨ IsDigit c) = true) :
    IsWord (first :: others) := by
  refine .mk first others hfirst fun c hc => ?_
  simpa using List.all_eq_true.mp hothers c hc

theorem Keyword.isWord_text (k : Keyword) : IsWord k.text.toList := by
  cases k <;> exact isWord_of_all (by decide) (by decide)

theorem Symbol.text_injective {s s' : Symbol} (h : s.text.toList = s'.text.toList) : s = s' := by
  revert h
  cases s <;> cases s' <;> decide

theorem Keyword.text_injective {k k' : Keyword} (h : k.text.toList = k'.text.toList) : k = k' := by
  revert h
  cases k <;> cases k' <;> decide

theorem IsDigits.first {text : List Char} (h : IsDigits text) :
    ∃ c cs, text = c :: cs ∧ IsDigit c := by
  obtain ⟨c, cs, rfl⟩ := List.exists_cons_of_ne_nil h.nonempty
  exact ⟨c, cs, rfl, h.digits c List.mem_cons_self⟩

theorem IsWord.first {text : List Char} (h : IsWord text) :
    ∃ c cs, text = c :: cs ∧ IsLetter c := by
  cases h with
  | mk c cs hfirst _ => exact ⟨c, cs, rfl, hfirst⟩

namespace Spells

variable {kind kind' : TokenKind} {text : List Char} {c : Char} {cs : List Char}

theorem nonempty (h : Spells kind text) : text ≠ [] := by
  cases h with
  | symbol s =>
    obtain ⟨c, cs, heq, -⟩ := s.text_first
    simp [heq]
  | string contents h => simp
  | whole digits value h hvalue => exact h.nonempty
  | decimal digits fraction value h hfraction hvalue => simp
  | keyword k =>
    obtain ⟨c, cs, heq, -⟩ := k.isWord_text.first
    simp [heq]
  | identifier text h hfree =>
    obtain ⟨c, cs, rfl, -⟩ := h.first
    simp

/-- What starts with a quote is a string. -/
theorem of_quote (h : Spells kind ('"' :: cs)) :
    ∃ contents, '"' ∉ contents ∧ cs = contents ++ ['"'] ∧ kind = .string (.ofList contents) := by
  generalize htext : '"' :: cs = text at h
  cases h with
  | symbol s =>
    obtain ⟨c, cs', heq, -, -, hq⟩ := s.text_first
    rw [heq] at htext
    cases htext
    exact absurd rfl hq
  | string contents h =>
    cases htext
    exact ⟨contents, h, rfl, rfl⟩
  | whole digits value h hvalue =>
    subst htext
    exact absurd (h.digits _ List.mem_cons_self) not_isDigit_quote
  | decimal digits fraction value h hfraction hvalue =>
    obtain ⟨c, cs', rfl, hc⟩ := h.first
    cases htext
    exact absurd hc not_isDigit_quote
  | keyword k =>
    obtain ⟨c', cs', heq, hfirst⟩ := k.isWord_text.first
    rw [heq] at htext
    cases htext
    exact absurd hfirst not_isLetter_quote
  | identifier text h hfree =>
    obtain ⟨c', cs', rfl, hfirst⟩ := h.first
    cases htext
    exact absurd hfirst not_isLetter_quote

/-- What starts with a digit is a number, with or without a point. -/
theorem of_digit (hc : IsDigit c) (h : Spells kind (c :: cs)) :
    (∃ value, kind = .number value ∧ IsDigits (c :: cs) ∧
      Number.Rounds (Number.decimalValue (c :: cs) []) value) ∨
    ∃ digits fraction value, kind = .number value ∧ c :: cs = digits ++ '.' :: fraction ∧
      IsDigits digits ∧ IsDigits fraction ∧
      Number.Rounds (Number.decimalValue digits fraction) value := by
  generalize htext : c :: cs = text at h
  cases h with
  | symbol s =>
    obtain ⟨c', cs', heq, hd, -⟩ := s.text_first
    rw [heq] at htext
    cases htext
    exact absurd hc hd
  | string contents h =>
    cases htext
    exact absurd hc not_isDigit_quote
  | whole digits value h hvalue => exact .inl ⟨value, rfl, h, hvalue⟩
  | decimal digits fraction value h hfraction hvalue =>
    exact .inr ⟨digits, fraction, value, rfl, rfl, h, hfraction, hvalue⟩
  | keyword k =>
    obtain ⟨c', cs', heq, hfirst⟩ := k.isWord_text.first
    rw [heq] at htext
    cases htext
    exact absurd hfirst hc.not_letter
  | identifier text h hfree =>
    obtain ⟨c', cs', rfl, hfirst⟩ := h.first
    cases htext
    exact absurd hfirst hc.not_letter

/-- What starts with a letter is a word, and a keyword if it is spelled like
one. -/
theorem of_letter (hc : IsLetter c) (h : Spells kind (c :: cs)) : IsWord (c :: cs) ∧
    ((∃ k : Keyword, k.text.toList = c :: cs ∧ kind = .keyword k) ∨
      (∀ k : Keyword, k.text.toList ≠ c :: cs) ∧ kind = .identifier) := by
  generalize htext : c :: cs = text at h
  cases h with
  | symbol s =>
    obtain ⟨c', cs', heq, -, hl, -⟩ := s.text_first
    rw [heq] at htext
    cases htext
    exact absurd hc hl
  | string contents h =>
    cases htext
    exact absurd hc not_isLetter_quote
  | whole digits value h hvalue =>
    subst htext
    exact absurd hc (h.digits c List.mem_cons_self).not_letter
  | decimal digits fraction value h hfraction hvalue =>
    obtain ⟨c', cs', rfl, hc'⟩ := h.first
    cases htext
    exact absurd hc hc'.not_letter
  | keyword k => exact ⟨k.isWord_text, .inl ⟨k, rfl, rfl⟩⟩
  | identifier text h hfree => exact ⟨h, .inr ⟨hfree, rfl⟩⟩

/-- What starts with anything else is a symbol. -/
theorem of_mark (hq : c ≠ '"') (hd : ¬ IsDigit c) (hl : ¬ IsLetter c) (h : Spells kind (c :: cs)) :
    ∃ s : Symbol, s.text.toList = c :: cs ∧ kind = .symbol s := by
  generalize htext : c :: cs = text at h
  cases h with
  | symbol s => exact ⟨s, rfl, rfl⟩
  | string contents h =>
    cases htext
    exact absurd rfl hq
  | whole digits value h hvalue =>
    subst htext
    exact absurd (h.digits c List.mem_cons_self) hd
  | decimal digits fraction value h hfraction hvalue =>
    obtain ⟨c', cs', rfl, hc'⟩ := h.first
    cases htext
    exact absurd hc' hd
  | keyword k =>
    obtain ⟨c', cs', heq, hfirst⟩ := k.isWord_text.first
    rw [heq] at htext
    cases htext
    exact absurd hfirst hl
  | identifier text h hfree =>
    obtain ⟨c', cs', rfl, hfirst⟩ := h.first
    cases htext
    exact absurd hfirst hl

/-- A point splits a text of digits in one way. -/
theorem split_unique {digits digits' fraction fraction' : List Char} (h : IsDigits digits)
    (h' : IsDigits digits') (heq : digits ++ '.' :: fraction = digits' ++ '.' :: fraction') :
    digits = digits' ∧ fraction = fraction' := by
  have hfree {ds : List Char} (hds : IsDigits ds) : '.' ∉ ds :=
    fun hmem => not_isDigit_point (hds.digits _ hmem)
  have hsplit := List.append_eq_append_iff.mp heq
  rcases hsplit with ⟨mid, hdig, hrest⟩ | ⟨mid, hdig, hrest⟩
  · cases mid with
    | nil => simp_all
    | cons m mid =>
      cases hrest
      exact absurd (by simp [hdig]) (hfree h')
  · cases mid with
    | nil => simp_all
    | cons m mid =>
      cases hrest
      exact absurd (by simp [hdig]) (hfree h)

/-- A text is spelled by at most one kind. -/
theorem unique (h : Spells kind text) (h' : Spells kind' text) : kind = kind' := by
  obtain ⟨c, cs, rfl⟩ := List.exists_cons_of_ne_nil h.nonempty
  by_cases hq : c = '"'
  · subst hq
    obtain ⟨contents, -, hcs, rfl⟩ := h.of_quote
    obtain ⟨contents', -, hcs', rfl⟩ := h'.of_quote
    rw [List.append_cancel_right (hcs.symm.trans hcs')]
  by_cases hd : IsDigit c
  · have hpoint {digits fraction : List Char} (hds : IsDigits (c :: cs))
        (heq : c :: cs = digits ++ '.' :: fraction) : False :=
      not_isDigit_point (hds.digits _ (by simp [heq]))
    rcases h.of_digit hd with ⟨v, rfl, hds, hv⟩ | ⟨digits, fraction, v, rfl, heq, hds, -, hv⟩ <;>
      rcases h'.of_digit hd with
        ⟨v', rfl, hds', hv'⟩ | ⟨digits', fraction', v', rfl, heq', hds', -, hv'⟩
    · rw [hv.unique hv']
    · exact (hpoint hds heq').elim
    · exact (hpoint hds' heq).elim
    · obtain ⟨rfl, rfl⟩ := split_unique hds hds' (heq.symm.trans heq')
      rw [hv.unique hv']
  by_cases hl : IsLetter c
  · rcases (h.of_letter hl).2 with ⟨k, hk, rfl⟩ | ⟨hfree, rfl⟩ <;>
      rcases (h'.of_letter hl).2 with ⟨k', hk', rfl⟩ | ⟨hfree', rfl⟩
    · rw [Keyword.text_injective (hk.trans hk'.symm)]
    · exact absurd hk (hfree' k)
    · exact absurd hk' (hfree k')
    · rfl
  · obtain ⟨s, hs, rfl⟩ := h.of_mark hq hd hl
    obtain ⟨s', hs', rfl⟩ := h'.of_mark hq hd hl
    rw [Symbol.text_injective (hs.trans hs'.symm)]

end Spells

/-! ## A text is read in one way -/

/-- There is one longest lexeme at the front of a text. -/
theorem Front.unique {source text text' : List Char} {kind kind' : TokenKind}
    (h : Front source kind text) (h' : Front source kind' text') : kind = kind' ∧ text = text' := by
  have htext : text = text' :=
    (List.prefix_of_prefix_length_le h.isPrefix h'.isPrefix
      (h'.longest _ _ h.spells h.isPrefix)).eq_of_length_le (h.longest _ _ h'.spells h'.isPrefix)
  subst htext
  exact ⟨h.spells.unique h'.spells, rfl⟩

/-- A comment ends where its line does. -/
theorem line_unique {text text' rest rest' : List Char} (h : '\n' ∉ text) (h' : '\n' ∉ text')
    (hend : ∀ c ∈ rest.head?, c = '\n') (hend' : ∀ c ∈ rest'.head?, c = '\n')
    (heq : text ++ rest = text' ++ rest') : text = text' ∧ rest = rest' := by
  rcases List.append_eq_append_iff.mp heq with ⟨mid, htext, hrest⟩ | ⟨mid, htext, hrest⟩
  · cases mid with
    | nil => simp_all
    | cons m mid =>
      obtain rfl : m = '\n' := hend m (by simp [hrest])
      exact absurd (by simp [htext]) h'
  · cases mid with
    | nil => simp_all
    | cons m mid =>
      obtain rfl : m = '\n' := hend' m (by simp [hrest])
      exact absurd (by simp [htext]) h

theorem Trivia.unique {text text' rest rest' : List Char} (h : Trivia text rest)
    (h' : Trivia text' rest') (heq : text ++ rest = text' ++ rest') :
    text = text' ∧ rest = rest' := by
  cases h with
  | blank c rest hc =>
    cases h' with
    | blank c' rest' hc' => simpa using heq
    | comment text' rest' _ _ =>
      cases heq
      exact absurd hc (by decide)
  | comment text rest hline hend =>
    cases h' with
    | blank c' rest' hc' =>
      cases heq
      exact absurd hc' (by decide)
    | comment text' rest' hline' hend' =>
      have htail : text ++ rest = text' ++ rest' := by simpa using heq
      obtain ⟨rfl, rfl⟩ := line_unique hline hline' hend hend' htail
      exact ⟨rfl, rfl⟩

theorem Trivia.starts {text rest : List Char} (h : Trivia text rest) : StartsTrivia (text ++ rest) :=
  ⟨text, rest, rfl, h⟩

theorem Trivia.nonempty {text rest : List Char} (h : Trivia text rest) : text ≠ [] := by
  cases h <;> simp

theorem not_startsTrivia_quote (rest : List Char) : ¬ StartsTrivia ('"' :: rest) := by
  rintro ⟨text, rest', heq, h⟩
  cases h with
  | blank c rest hc =>
    cases heq
    exact absurd hc (by decide)
  | comment text rest hline hend => cases heq

/-- Nothing is spelled at the front of a quote that no later one closes. -/
theorem Spells.not_prefix_quote {kind : TokenKind} {text rest : List Char} (h : Spells kind text)
    (hfree : '"' ∉ rest) : ¬ text <+: '"' :: rest := by
  rintro ⟨tail, heq⟩
  obtain ⟨c, cs, rfl⟩ := List.exists_cons_of_ne_nil h.nonempty
  cases heq
  obtain ⟨contents, -, rfl, -⟩ := h.of_quote
  simp at hfree

/-- The grammar is unambiguous: a text is read in at most one way. -/
theorem Scans.unique {before rest : List Char} {ts ts' : List Token}
    {fault? fault?' : Option (String × Nat)} (h : Scans before rest ts fault?)
    (h' : Scans before rest ts' fault?') : ts = ts' ∧ fault? = fault?' := by
  induction h generalizing ts' fault?' with
  | finish before =>
    generalize hrest : ([] : List Char) = rest at h'
    cases h' with
    | finish => exact ⟨rfl, rfl⟩
    | skip ht _ => exact absurd (List.append_eq_nil_iff.mp hrest.symm).1 ht.nonempty
    | token _ front _ =>
      exact absurd (List.append_eq_nil_iff.mp hrest.symm).1 front.spells.nonempty
    | unterminated => cases hrest
    | unexpected => cases hrest
  | @skip before text rest ts fault? ht next ih =>
    generalize hrest : text ++ rest = rest' at h'
    cases h' with
    | finish => exact absurd (List.append_eq_nil_iff.mp hrest).1 ht.nonempty
    | skip ht' next' =>
      obtain ⟨rfl, rfl⟩ := ht.unique ht' hrest
      exact ih next'
    | token hno _ _ => exact absurd (hrest ▸ ht.starts) hno
    | unterminated _ rest' _ => exact absurd (hrest ▸ ht.starts) (not_startsTrivia_quote rest')
    | unexpected _ c rest' _ hno _ => exact absurd (hrest ▸ ht.starts) hno
  | @token before text rest kind ts fault? hno front next ih =>
    generalize hrest : text ++ rest = rest' at h'
    cases h' with
    | finish => exact absurd (List.append_eq_nil_iff.mp hrest).1 front.spells.nonempty
    | skip ht' next' => exact absurd (hrest ▸ ht'.starts) hno
    | @token _ text' rest' kind' ts' _ hno' front' next' =>
      obtain ⟨rfl, rfl⟩ := front.unique (hrest ▸ front')
      obtain rfl := List.append_cancel_left hrest
      obtain ⟨rfl, rfl⟩ := ih next'
      exact ⟨rfl, rfl⟩
    | unterminated _ rest' hfree =>
      exact absurd (hrest ▸ front.isPrefix) (front.spells.not_prefix_quote hfree)
    | unexpected _ c rest' _ _ hnone =>
      exact absurd (hrest ▸ front.isPrefix) (hnone _ _ front.spells)
  | unterminated before rest hfree =>
    generalize hrest : '"' :: rest = rest' at h'
    cases h' with
    | finish => cases hrest
    | skip ht' next' => exact absurd (hrest ▸ ht'.starts) (not_startsTrivia_quote rest)
    | token _ front' _ =>
      exact absurd (hrest ▸ front'.isPrefix) (front'.spells.not_prefix_quote hfree)
    | unterminated =>
      cases hrest
      exact ⟨rfl, rfl⟩
    | unexpected _ c rest' hq _ _ =>
      cases hrest
      exact absurd rfl hq
  | unexpected before c rest hq hno hnone =>
    generalize hrest : c :: rest = rest' at h'
    cases h' with
    | finish => cases hrest
    | skip ht' next' => exact absurd (hrest ▸ ht'.starts) hno
    | token _ front' _ => exact absurd (hrest ▸ front'.isPrefix) (hnone _ _ front'.spells)
    | unterminated =>
      cases hrest
      exact absurd rfl hq
    | unexpected =>
      cases hrest
      exact ⟨rfl, rfl⟩

end Lox
