import Lox.Proofs.Token.ByteReading

/-!
# Scanning bytes finds the same tokens

A scanner that goes over the bytes of a source finds one after the other what `lex` finds
among its characters, up to the error that ends both. At every chunk it stands between two
characters, and the first byte decides as the first character does: a byte that is not ASCII
starts nothing, and then the character is refused as a whole.
-/

namespace Lox

namespace Scanner

variable {s : Scanner} {before after text : List Char} {c : Char}

/-! ## Marks and other characters -/

theorem toNat_lt_of_single {symbol : Symbol} (h : Symbol.single? c = some symbol) :
    c.toNat < 128 := by
  unfold Symbol.single? at h
  split at h <;> first | decide | cases h

theorem toNat_lt_of_extensible {pair : Symbol × Symbol} (h : Symbol.extensible? c = some pair) :
    c.toNat < 128 := by
  unfold Symbol.extensible? at h
  split at h <;> first | decide | cases h

/-- Whether a character starts no blank, comment, string, number or word. -/
def IsOther (c : Char) : Prop :=
  isBlank c = false ∧ c ≠ '/' ∧ c ≠ '"' ∧ c.isDigit = false ∧ isWordStart c = false

theorem isOther_of_single {symbol : Symbol} (h : Symbol.single? c = some symbol) : IsOther c := by
  unfold Symbol.single? at h
  unfold IsOther
  split at h <;> first | decide | cases h

theorem isOther_of_extensible {pair : Symbol × Symbol} (h : Symbol.extensible? c = some pair) :
    IsOther c := by
  unfold Symbol.extensible? at h
  unfold IsOther
  split at h <;> first | decide | cases h

theorem isOther_not_ascii (h : 128 ≤ c.toNat) : IsOther c := by
  have hne {d : Char} (hd : d.toNat < 128) : c ≠ d := ne_of_not_ascii h hd
  have hblank : isBlank c = false := by
    simp [isBlank, hne (d := ' ') (by decide), hne (d := '\t') (by decide),
      hne (d := '\r') (by decide), hne (d := '\n') (by decide)]
  have hword : isWordStart c = false := by
    have hpart := isWordPart_not_ascii c h
    rw [Bool.eq_false_iff, Ne, isWordPart_iff] at hpart
    rw [Bool.eq_false_iff, Ne, isWordStart_iff]
    exact fun hletter => hpart (.inl hletter)
  exact ⟨hblank, hne (by decide), hne (by decide), isDigit_not_ascii c h, hword⟩

theorem no_symbol_of_not_isOther (h : ¬ IsOther c) :
    Symbol.single? c = none ∧ Symbol.extensible? c = none :=
  ⟨Option.eq_none_iff_forall_ne_some.mpr fun _ hs => h (isOther_of_single hs),
    Option.eq_none_iff_forall_ne_some.mpr fun _ hs => h (isOther_of_extensible hs)⟩

theorem no_symbol_not_ascii (h : 128 ≤ c.toNat) :
    Symbol.single? c = none ∧ Symbol.extensible? c = none :=
  ⟨Option.eq_none_iff_forall_ne_some.mpr fun _ hs =>
      absurd (toNat_lt_of_single hs) (Nat.not_lt_of_le h),
    Option.eq_none_iff_forall_ne_some.mpr fun _ hs =>
      absurd (toNat_lt_of_extensible hs) (Nat.not_lt_of_le h)⟩

/-- Whether a scanner reads the chunk that comes next. -/
def Scans (s : Scanner) : Chunk → Prop
  | .blank text _ => s.scanToken = .ok (.ok (), s.past text)
  | .lexeme kind text _ => s.scanToken = .ok (.ok (), (s.past text).recognise kind)
  | .fault cause text => ∃ s', s.scanToken = .ok (.error ⟨cause, s.line + newlines text⟩, s')

/-- How blanks, comments and strings start. -/
def leads : List Char :=
  [' ', '\r', '\t', '\n', '/', '"']

theorem ne_leads {p : Char → Bool} (h : leads.any p = false) (hc : p c = true) :
    ∀ d ∈ leads, c ≠ d := by
  rintro _ hd rfl
  exact List.any_eq_false.mp h c hd hc

/-- What starts like no symbol, blank, comment or string is a number, a word or refused. -/
theorem scanFrom_of_bare (hsingle : Symbol.single? c = none)
    (hextensible : Symbol.extensible? c = none)
    (hbare : ∀ d ∈ leads, c ≠ d) (s : Scanner) :
    s.scanFrom c =
      if c.isDigit then (return (.ok (), ← s.number))
      else if isWordStart c then (return (.ok (), ← s.word))
      else s.unexpected := by
  simp only [leads, List.forall_mem_cons] at hbare
  obtain ⟨hspace, hreturn, htab, hline, hslash, hquote, -⟩ := hbare
  simp [scanFrom, hsingle, hextensible, hspace, hreturn, htab, hline, hslash, hquote]

theorem scanFrom_of_isOther (h : IsOther c) (hsingle : Symbol.single? c = none)
    (hextensible : Symbol.extensible? c = none) (s : Scanner) : s.scanFrom c = s.unexpected := by
  obtain ⟨hblank, hslash, hquote, hdigit, hword⟩ := h
  have hbare : ∀ d ∈ leads, c ≠ d := by
    simp only [isBlank, Bool.or_eq_false_iff, beq_eq_false_iff_ne] at hblank
    obtain ⟨⟨⟨hspace, htab⟩, hreturn⟩, hline⟩ := hblank
    simp [leads, hspace, htab, hreturn, hline, hslash, hquote]
  rw [scanFrom_of_bare hsingle hextensible hbare, hdigit, hword]
  rfl

theorem head?_ne_of_forall {d : Char} (h : ∀ rest, after = d :: rest → False) :
    after.head? ≠ some d := by
  intro hhead
  obtain ⟨rest, rfl⟩ := List.head?_eq_some_iff.mp hhead
  exact h rest rfl

namespace Reads

theorem scanToken_ascii (h : s.Reads before (c :: after)) (hc : c.toNat < 128) (hline : c ≠ '\n') :
    s.scanToken = (s.past [c]).scanFrom c := by
  rw [Scanner.scanToken, h.advance hc hline]
  rfl

/-- The first byte of a character that is not ASCII is refused as the whole character. -/
theorem scanToken_not_ascii (h : s.Reads before (c :: after))
    (hstart : s.start = (codes before).length) (hc : 128 ≤ c.toNat) :
    s.scanToken = .ok (.error ⟨.unexpectedCharacter c, s.line⟩, s.moved 1 0) := by
  obtain ⟨d, ds, hcodes, hall⟩ := codes_not_ascii hc
  have hahead : s.ahead = d :: (ds ++ codes after) := by
    rw [h.ahead, codes_cons, hcodes, List.cons_append]
  have hd : 128 ≤ d.toNat := hall d List.mem_cons_self
  obtain ⟨hsingle, hextensible⟩ := no_symbol_not_ascii hd
  have hunexpected : (s.moved 1 0).unexpected =
      .ok (.error ⟨.unexpectedCharacter c, s.line⟩, s.moved 1 0) := unexpected h.source hstart
  rw [← hunexpected, ← scanFrom_of_isOther (isOther_not_ascii hd) hsingle hextensible,
    Scanner.scanToken, advance_cons hahead]
  rfl

theorem scans_mark (h : s.Reads before (c :: after)) (hstart : s.start = (codes before).length)
    (hother : IsOther c) : s.Scans (Chunk.mark c after) := by
  have hline : c ≠ '\n' := by
    rintro rfl
    cases hother.1
  unfold Chunk.mark
  split
  · rename_i symbol hsingle
    have hfrom : (s.past [c]).scanFrom c =
        .ok (.ok (), (s.past [c]).recognise (.symbol symbol)) := by
      rw [scanFrom, hsingle]
      rfl
    exact (h.scanToken_ascii (toNat_lt_of_single hsingle) hline).trans hfrom
  · rename_i alone extended hsingle hextensible
    have hnext : (s.past [c]).Reads (before ++ [c]) after := h.past
    have hfrom : (s.past [c]).scanFrom c = .ok (.ok (), if after.head? == some '=' then
        ((s.past [c]).past ['=']).recognise (.symbol extended)
        else (s.past [c]).recognise (.symbol alone)) := by
      rw [scanFrom, hsingle, hextensible]
      simp only [hnext.extended]
      rfl
    have hscan := (h.scanToken_ascii (toNat_lt_of_extensible hextensible) hline).trans hfrom
    split
    · rw [past_past] at hscan
      exact hscan
    · rename_i hno
      rw [beq_eq_false_iff_ne.mpr (head?_ne_of_forall hno)] at hscan
      exact hscan
  · rename_i hsingle hextensible
    obtain hascii | hnot := Nat.lt_or_ge c.toNat 128
    · have hunexpected : (s.past [c]).unexpected =
          .ok (.error ⟨.unexpectedCharacter c, (s.past [c]).line⟩, s.past [c]) :=
        unexpected h.source hstart
      have hnone : newlines [c] = 0 := List.count_eq_zero.mpr (by simp [hline.symm])
      have hsame : (s.past [c]).line = s.line := by rw [Scanner.past, hnone]; rfl
      refine ⟨s.past [c], ?_⟩
      rw [h.scanToken_ascii hascii hline, scanFrom_of_isOther hother hsingle hextensible,
        hunexpected, hsame]
      rfl
    · exact ⟨s.moved 1 0, h.scanToken_not_ascii hstart hnot⟩

theorem scans_slash (h : s.Reads before ('/' :: after)) : s.Scans (Chunk.slash after) := by
  have hnext : (s.past ['/']).Reads (before ++ ['/']) after := h.past
  have hscan : s.scanToken = (return (.ok (), ← (s.past ['/']).slash)) :=
    h.scanToken_ascii (by decide) (by decide)
  unfold Chunk.slash
  split
  · rw [hnext.slash_comment, ok_bind, past_past] at hscan
    exact hscan
  · rename_i hno
    rw [hnext.slash_alone (head?_ne_of_forall hno), ok_bind] at hscan
    exact hscan

theorem scans_quoted (h : s.Reads before ('"' :: after))
    (hstart : s.start = (codes before).length) : s.Scans (Chunk.quoted after) := by
  have hnext : (s.past ['"']).Reads (before ++ ['"']) after := h.past
  have hscan : s.scanToken = (s.past ['"']).string := h.scanToken_ascii (by decide) (by decide)
  have hsplit : after.takeWhile (· != '"') ++ after.dropWhile (· != '"') = after :=
    List.takeWhile_append_dropWhile
  have hfree : '"' ∉ after.takeWhile (· != '"') := fun hmem => by simpa using mem_takeWhile hmem
  unfold Chunk.quoted
  simp only
  split
  · rename_i hnil
    rw [hnil, List.append_nil] at hsplit
    refine ⟨_, hscan.trans (hnext.string_open (hsplit ▸ hfree))⟩
  · rename_i close rest hcons
    obtain rfl : close = '"' := by
      have hhead : close ∈ (after.dropWhile (· != '"')).head? := by simp [hcons]
      simpa using head_dropWhile hhead
    rw [hcons] at hsplit
    rw [← hsplit] at hnext
    have hstring := hnext.string_closed hfree hstart
    rw [past_past] at hstring
    exact hscan.trans hstring

theorem scans_number (h : s.Reads before (c :: after)) (hstart : s.start = (codes before).length)
    (hc : c.isDigit = true) : s.Scans (Chunk.number c after) := by
  have hno : ¬ IsOther c := fun hother => by simp [hother.2.2.2.1] at hc
  obtain ⟨hsingle, hextensible⟩ := no_symbol_of_not_isOther hno
  have hascii : c.toNat < 128 := Nat.lt_of_not_le fun hnot => by
    rw [isDigit_not_ascii c hnot] at hc
    cases hc
  have hbare : ∀ d ∈ leads, c ≠ d := ne_leads (by decide) hc
  have hnext : (s.past [c]).Reads (before ++ [c]) after := h.past
  have hscan : s.scanToken = (return (.ok (), ← (s.past [c]).number)) := by
    rw [h.scanToken_ascii hascii (hbare '\n' (by decide)),
      scanFrom_of_bare hsingle hextensible hbare, if_pos hc]
  have hwhole : ∀ d ∈ c :: after.takeWhile Char.isDigit, d.isDigit = true :=
    List.forall_mem_cons.mpr ⟨hc, fun d hd => mem_takeWhile hd⟩
  have hstop (cs : List Char) : (cs.dropWhile Char.isDigit).head?.any Char.isDigit = false := by
    cases hhead : (cs.dropWhile Char.isDigit).head? with
    | none => rfl
    | some d => exact head_dropWhile (Option.mem_def.mpr hhead)
  rw [← List.takeWhile_append_dropWhile (p := Char.isDigit) (l := after)] at hnext
  unfold Chunk.number
  simp only
  split
  · rename_i digit rest hdrop
    split
    · rename_i hdigit
      have hfraction : ∀ d ∈ digit :: rest.takeWhile Char.isDigit, d.isDigit = true :=
        List.forall_mem_cons.mpr ⟨hdigit, fun d hd => mem_takeWhile hd⟩
      rw [hdrop, ← List.takeWhile_append_dropWhile (p := Char.isDigit) (l := rest),
        ← List.cons_append (a := digit)] at hnext
      have hnumber := hnext.number_point hstart hwhole (List.cons_ne_nil _ _) hfraction (hstop rest)
      rw [hnumber, ok_bind, past_past] at hscan
      exact hscan
    · rename_i hdigit
      have hnumber := hnext.number_whole hstart hwhole (hstop after) fun digit' rest' heq => by
        cases hdrop.symm.trans heq
        exact Bool.eq_false_iff.mpr hdigit
      rw [hnumber, ok_bind, past_past] at hscan
      exact hscan
  · rename_i hpoint
    have hnumber := hnext.number_whole hstart hwhole (hstop after) fun digit rest heq =>
      absurd heq (hpoint digit rest)
    rw [hnumber, ok_bind, past_past] at hscan
    exact hscan

theorem scans_word (h : s.Reads before (c :: after)) (hstart : s.start = (codes before).length)
    (hc : isWordStart c = true) (hdigit : c.isDigit = false) :
    s.Scans (Chunk.word c after) := by
  have hno : ¬ IsOther c := fun hother => by simp [hother.2.2.2.2] at hc
  obtain ⟨hsingle, hextensible⟩ := no_symbol_of_not_isOther hno
  have hbare : ∀ d ∈ leads, c ≠ d := ne_leads (by decide) hc
  have hascii : c.toNat < 128 := Nat.lt_of_not_le fun hnot => by
    simp [(isOther_not_ascii hnot).2.2.2.2] at hc
  have hnext : (s.past [c]).Reads (before ++ [c]) after := h.past
  have hscan : s.scanToken = (return (.ok (), ← (s.past [c]).word)) := by
    rw [h.scanToken_ascii hascii (hbare '\n' (by decide)),
      scanFrom_of_bare hsingle hextensible hbare, hdigit, if_pos hc]
    rfl
  rw [hnext.word hstart, ok_bind, past_past] at hscan
  exact hscan

theorem scans_blank (h : s.Reads before (c :: after)) (hc : isBlank c = true) :
    s.Scans (.blank [c] after) := by
  have hmem := (isBlank_iff c).mp hc
  fin_cases hmem
  · exact h.scanToken_ascii (by decide) (by decide)
  · exact h.scanToken_ascii (by decide) (by decide)
  · exact h.scanToken_ascii (by decide) (by decide)
  · have hadvance : s.advance = .ok ('\n', s.moved 1 0) :=
      advance_cons (h.ahead.trans (codes_cons_ascii (by decide) after))
    have hscan : s.scanToken = (s.moved 1 0).scanFrom '\n' := by
      rw [Scanner.scanToken, hadvance]
      rfl
    exact hscan

theorem begun (h : s.Reads before after) : s.begun.Reads before after :=
  ⟨h.source, h.curr⟩

/-- A scanner reads the chunk that comes next. -/
theorem scans (h : s.Reads before (c :: after)) (hstart : s.start = (codes before).length) :
    s.Scans (Chunk.first c after) := by
  unfold Chunk.first
  split
  · rename_i hblank
    exact h.scans_blank hblank
  rename_i hblank
  split
  · rename_i hslash
    obtain rfl := beq_iff_eq.mp hslash
    exact h.scans_slash
  rename_i hslash
  split
  · rename_i hquote
    obtain rfl := beq_iff_eq.mp hquote
    exact h.scans_quoted hstart
  rename_i hquote
  split
  · rename_i hdigit
    exact h.scans_number hstart hdigit
  rename_i hdigit
  split
  · rename_i hword
    exact h.scans_word hstart hword (Bool.eq_false_iff.mpr hdigit)
  rename_i hword
  exact h.scans_mark hstart ⟨Bool.eq_false_iff.mpr hblank, fun heq => hslash (beq_iff_eq.mpr heq),
    fun heq => hquote (beq_iff_eq.mpr heq), Bool.eq_false_iff.mpr hdigit,
    Bool.eq_false_iff.mpr hword⟩

theorem scans_begun (h : s.Reads before (c :: after)) {chunk : Chunk}
    (hfirst : Chunk.first c after = chunk) : s.begun.Scans chunk :=
  hfirst ▸ h.begun.scans h.curr

end Reads

/-! ## Whole sources -/

theorem left_of_not_done (h : s.done = false) : s.left = s.bytes.size - s.curr + 1 := by
  rw [left, h, if_neg Bool.false_ne_true]

theorem left_of_done (h : s.done = true) : s.left = 0 := by
  rw [left, h, if_pos rfl]

/-- Less is left behind a text. -/
theorem Reads.left_past (h : s.Reads before (text ++ after)) (hdone : s.done = false)
    (hne : text ≠ []) : (s.past text).left < s.left := by
  have hsize :
      s.bytes.size = (codes before).length + (codes text).length + (codes after).length := by
    rw [h.size, codes_append, codes_append, List.length_append, List.length_append, Nat.add_assoc]
  have hpos : 0 < (codes text).length := by
    obtain ⟨c, cs, rfl⟩ := List.exists_cons_of_ne_nil hne
    have hbytes := List.length_pos_iff.mpr (String.utf8EncodeChar_ne_nil (c := c))
    rw [length_codes, List.flatMap_cons, List.length_append]
    omega
  have hpast : (s.past text).left = s.bytes.size - (s.curr + (codes text).length) + 1 :=
    left_of_not_done hdone
  rw [hpast, left_of_not_done hdone, h.curr]
  omega

/-- What a scanner finds next, if it goes on as a source is cut into tokens. -/
inductive Finds (s : Scanner) : Lexing → Prop
  | token {t s' before after} : s.next = .ok (some (.ok t), s') → s'.left < s.left →
      s'.done = false → s'.Reads before after → Finds s ((lexFrom s'.line after).cons t)
  | last {t s'} : s.next = .ok (some (.ok t), s') → s'.done = true → Finds s ⟨[t], none⟩
  | fault {e s'} : s.next = .ok (some (.error e), s') → s'.done = true → Finds s ⟨[], some e⟩

/-- What is found behind a blank is found before it. -/
theorem Finds.of_next {s' : Scanner} {l : Lexing} (h : s'.Finds l) (hnext : s.next = s'.next)
    (hleft : s'.left < s.left) : s.Finds l := by
  cases h with
  | token hfound hless hdone hreads =>
    exact .token (hnext.trans hfound) (Nat.lt_trans hless hleft) hdone hreads
  | last hfound hdone => exact .last (hnext.trans hfound) hdone
  | fault hfound hdone => exact .fault (hnext.trans hfound) hdone

/-- A chunk that can be passed stands at the front of the source, and is not empty. -/
theorem front_of_first {cs rest : List Char} (h : Chunk.first c cs = .blank text rest ∨
    ∃ kind, Chunk.first c cs = .lexeme kind text rest) : c :: cs = text ++ rest ∧ text ≠ [] := by
  have hfits := Chunk.first_fits c cs
  have hsplit : c :: cs = text ++ rest := by
    obtain hfirst | ⟨kind, hfirst⟩ := h <;> rw [hfirst] at hfits <;> cases hfits <;> assumption
  have hshorter : rest.length < (c :: cs).length :=
    Chunk.length_rest_lt (by obtain hfirst | ⟨kind, hfirst⟩ := h <;> rw [hfirst] <;> rfl)
  refine ⟨hsplit, ?_⟩
  rintro rfl
  rw [hsplit] at hshorter
  exact absurd hshorter (Nat.lt_irrefl _)

theorem next_of_scanToken (hdone : s.done = false) (hend : s.isAtEnd = false) :
    s.next = match s.begun.scanToken with
      | .error d => .error d
      | .ok (.error e, s') => .ok (some (.error e), { s' with done := true })
      | .ok (.ok (), s') =>
          match s'.pending with
          | some kind => do
              let lexeme ← slice s'.source s'.start s'.curr
              return (some (.ok ⟨kind, lexeme, s'.line⟩), { s' with pending := none })
          | none => if s'.left < s.left then s'.next else .error .stalled := by
  rw [next]
  exact (if_neg (by simp [hdone])).trans (if_neg (by simp [hend]))

/-- A scanner finds what `lexFrom` finds. -/
theorem Reads.finds (h : s.Reads before after) (hdone : s.done = false) :
    s.Finds (lexFrom s.line after) := by
  induction hline : s.line, after using lexFrom.induct generalizing s before with
  | case1 line =>
    have hnext : s.next = .ok (some (.ok (.endOfInput s.line)), { s with done := true }) := by
      rw [next, hdone, h.isAtEnd]
      rfl
    rw [lexFrom, ← hline]
    exact .last hnext rfl
  | case2 line c cs text rest hfirst ih =>
    obtain ⟨hsplit, hne⟩ := front_of_first (.inl hfirst)
    have hbegun : s.begun.Reads before (text ++ rest) := hsplit ▸ h.begun
    have hscan : s.begun.scanToken = .ok (.ok (), s.begun.past text) := h.scans_begun hfirst
    have hleft : (s.begun.past text).left < s.left := hbegun.left_past hdone hne
    have hnext : s.next = (s.begun.past text).next := by
      rw [next_of_scanToken hdone h.isAtEnd, hscan]
      exact if_pos hleft
    have hrest := ih hbegun.past hdone (hline ▸ rfl)
    rw [lexFrom_blank line hfirst]
    exact hrest.of_next hnext hleft
  | case3 line c cs kind text rest hfirst =>
    obtain ⟨hsplit, hne⟩ := front_of_first (.inr ⟨kind, hfirst⟩)
    have hbegun : s.begun.Reads before (text ++ rest) := hsplit ▸ h.begun
    have hscan : s.begun.scanToken = .ok (.ok (), (s.begun.past text).recognise kind) :=
      h.scans_begun hfirst
    have hleft : (s.begun.past text).left < s.left := hbegun.left_past hdone hne
    have hlexeme : slice s.source s.curr (s.curr + (codes text).length) = .ok (.ofList text) :=
      hbegun.past.lexeme h.curr
    have hnext : s.next = .ok (some (.ok ⟨kind, .ofList text, s.line + newlines text⟩),
        s.begun.past text) := by
      rw [next_of_scanToken hdone h.isAtEnd, hscan]
      exact (congrArg (· >>= _) hlexeme).trans rfl
    subst hline
    rw [lexFrom_lexeme s.line hfirst]
    exact .token hnext hleft hdone hbegun.past
  | case4 line c cs cause text hfirst =>
    obtain ⟨s', hscan⟩ := h.scans_begun hfirst
    have hnext : s.next = .ok (some (.error ⟨cause, s.line + newlines text⟩),
        { s' with done := true }) := by
      rw [next_of_scanToken hdone h.isAtEnd, hscan]
      rfl
    subst hline
    rw [lexFrom_fault s.line hfirst]
    exact .fault hnext rfl

theorem items_of_done (h : s.done = true) : s.items = .ok [] := by
  have hnext : s.next = .ok (none, s) := by rw [next, if_pos h]
  rw [items, hnext]

theorem items_of_next {item : Except LexicalError Token} {s' : Scanner}
    {others : List (Except LexicalError Token)} (h : s.next = .ok (some item, s'))
    (hleft : s'.left < s.left) (hothers : s'.items = .ok others) :
    s.items = .ok (item :: others) := by
  rw [items, h]
  simp only [if_pos hleft, hothers]
  rfl

/-- A scanner gives all that `lexFrom` finds. -/
theorem Reads.items (h : s.Reads before after) (hdone : s.done = false) :
    s.items = .ok ((lexFrom s.line after).tokens.map .ok ++
      (lexFrom s.line after).fault?.toList.map .error) := by
  induction hleft : s.left using Nat.strongRecOn generalizing s before after with
  | ind left ih =>
    have hlast {s' : Scanner} (hended : s'.done = true) : s'.left < s.left := by
      rw [left_of_done hended, left_of_not_done hdone]
      exact Nat.succ_pos _
    generalize hlexing : lexFrom s.line after = l
    have hfinds : s.Finds l := hlexing ▸ h.finds hdone
    cases hfinds with
    | token hnext hless hmore hreads =>
      exact items_of_next hnext hless (ih _ (hleft ▸ hless) hreads hmore rfl)
    | last hnext hended => exact items_of_next hnext (hlast hended) (items_of_done hended)
    | fault hnext hended => exact items_of_next hnext (hlast hended) (items_of_done hended)

end Scanner

theorem mapM_ok (tokens : List Token) (fault? : Option LexicalError) :
    (tokens.map .ok ++ fault?.toList.map .error : List (Except LexicalError Token)).mapM id =
      (⟨tokens, fault?⟩ : Lexing).toExcept := by
  induction tokens with
  | nil => cases fault? <;> rfl
  | cons t tokens ih =>
    rw [List.map_cons, List.cons_append, List.mapM_cons, ih]
    cases fault? <;> rfl

/-- A scanner that goes over the bytes of a source, whatever characters it has, does nothing
that can go wrong: it takes no byte behind the end, cuts no text out of bounds or inside a
character, falls back on nothing and comes to an end. It gives the tokens, with their lines,
and the error that are found among the characters. -/
theorem scanning_bytes_reads_characters (source : String) :
    (Scanner.of source).items = .ok ((lex source).tokens.map .ok ++
      (lex source).fault?.toList.map .error) ∧
    scanTokens source = .ok (lex source).toExcept := by
  have hreads : (Scanner.of source).Reads [] source.toList := ⟨rfl, rfl⟩
  have hitems := hreads.items rfl
  refine ⟨hitems, ?_⟩
  rw [scanTokens, hitems]
  exact congrArg Except.ok (mapM_ok _ _)

end Lox
