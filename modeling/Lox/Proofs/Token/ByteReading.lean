import Lox.Proofs.Token.Bytes
import Lox.Proofs.Token.Scanning
import Mathlib.Data.List.TakeWhile

/-!
# Reading characters byte by byte

What a scanner does with single bytes and with runs of them, said of the characters that
they encode. A scanner that stands between two characters gets from there to between two
others: over a character that it looks for, or over a run that ends before one. So all text
that it cuts out is whole characters.

## Implementation notes

The bytes that are left are a list, so loops over them are a `takeWhile`, and a place among
the bytes is the number of bytes of the characters before it.
-/

namespace Lox

theorem ok_bind {ε α β : Type} (a : α) (f : α → Except ε β) : (Except.ok a >>= f) = f a := rfl

theorem bne_of_not_mem {d : Char} {text : List Char} (h : d ∉ text) :
    ∀ c ∈ text, (c != d) = true := by
  intro c hc
  rw [bne_iff_ne]
  rintro rfl
  exact h hc

namespace Scanner

variable {s : Scanner} {b : Char} {bs : List Char} {test : Char → Bool}

/-! ## Reading bytes -/

/-- The bytes that are left, read as characters. -/
def ahead (s : Scanner) : List Char :=
  (s.bytes.toList.drop s.curr).map Char.ofUInt8

/-- The scanner so many bytes and lines further on. -/
def moved (s : Scanner) (bytes lines : Nat) : Scanner :=
  { s with curr := s.curr + bytes, line := s.line + lines }

theorem moved_moved (s : Scanner) (m n l k : Nat) :
    (s.moved m l).moved n k = s.moved (m + n) (l + k) := by
  simp [moved, Nat.add_assoc]

theorem getElem?_ahead (s : Scanner) (i : Nat) :
    s.ahead[i]? = s.bytes[s.curr + i]?.map Char.ofUInt8 := by
  rw [ahead, List.getElem?_map, List.getElem?_drop, Array.getElem?_toList]

theorem peek_eq (s : Scanner) : s.peek = s.ahead.headD '\x00' := by
  have hget := getElem?_ahead s 0
  rw [peek, List.headD_eq_head?_getD, List.head?_eq_getElem?, hget, Nat.add_zero]
  cases s.bytes[s.curr]? <;> rfl

theorem peekNext_eq (s : Scanner) : s.peekNext = s.ahead.tail.headD '\x00' := by
  have hget := getElem?_ahead s 1
  rw [peekNext, List.headD_eq_head?_getD, List.head?_tail, hget]
  cases s.bytes[s.curr + 1]? <;> rfl

theorem isAtEnd_eq (s : Scanner) : s.isAtEnd = s.ahead.isEmpty := by
  rw [Bool.eq_iff_iff, List.isEmpty_iff]
  simp [isAtEnd, ahead]

theorem ahead_moved (h : s.ahead = b :: bs) (lines : Nat) : (s.moved 1 lines).ahead = bs := by
  have hdrop : (s.moved 1 lines).ahead = s.ahead.drop 1 := by
    rw [ahead, ahead, ← List.map_drop, List.drop_drop]
    rfl
  rw [hdrop, h, List.drop_one, List.tail_cons]

theorem advance_cons (h : s.ahead = b :: bs) : s.advance = .ok (b, s.moved 1 0) := by
  have hget := getElem?_ahead s 0
  rw [h, Nat.add_zero] at hget
  unfold advance
  cases hb : s.bytes[s.curr]? with
  | none => simp [hb] at hget
  | some b' =>
    simp only [hb, Option.map_some, List.getElem?_cons_zero, Option.some.injEq] at hget
    rw [hget]
    rfl

/-- Bytes are taken up to the first that does not pass the test. -/
theorem advanceWhile_eq (hzero : test '\x00' = false) (s : Scanner) :
    s.advanceWhile test = .ok (s.moved (s.ahead.takeWhile test).length 0) := by
  induction hahead : s.ahead generalizing s with
  | nil =>
    rw [advanceWhile, peek_eq, hahead, List.headD_nil, hzero]
    rfl
  | cons b bs ih =>
    rw [advanceWhile, peek_eq, hahead, List.headD_cons, advance_cons hahead, List.takeWhile_cons]
    cases test b with
    | false => rfl
    | true =>
      simp only [if_true, ih _ (ahead_moved hahead 0), moved_moved, List.length_cons,
        Nat.add_comm 1]

/-- Bytes are taken up to the first quote, and the lines among them counted. -/
theorem advanceToQuote_eq (s : Scanner) :
    s.advanceToQuote = .ok (s.moved (s.ahead.takeWhile (· != '"')).length
      (newlines (s.ahead.takeWhile (· != '"')))) := by
  induction hahead : s.ahead generalizing s with
  | nil =>
    rw [advanceToQuote, isAtEnd_eq, hahead]
    rfl
  | cons b bs ih =>
    rw [advanceToQuote, isAtEnd_eq, peek_eq, hahead, List.headD_cons, advance_cons hahead,
      List.takeWhile_cons]
    cases b != '"' with
    | false => rfl
    | true =>
      refine (ih (s.moved 1 (newlines [b])) (ahead_moved hahead _)).trans ?_
      have hlines (ds : List Char) : newlines [b] + newlines ds = newlines (b :: ds) :=
        List.count_append.symm
      rw [moved_moved, hlines, Nat.add_comm 1]
      rfl

/-! ## Reading characters -/

/-- Whether a scanner has read the characters of a source up to some place. -/
structure Reads (s : Scanner) (before after : List Char) : Prop where
  source : s.source.toList = before ++ after
  curr : s.curr = (codes before).length

/-- The scanner behind a text that is next. -/
def past (s : Scanner) (text : List Char) : Scanner :=
  s.moved (codes text).length (newlines text)

variable {before after text : List Char} {c : Char}

theorem past_past (s : Scanner) (text text' : List Char) :
    (s.past text).past text' = s.past (text ++ text') := by
  rw [past, past, past, moved_moved, codes_append, List.length_append, newlines, newlines,
    newlines, List.count_append]

namespace Reads

theorem ahead (h : s.Reads before after) : s.ahead = codes after := by
  rw [Scanner.ahead, bytes, data_toUTF8, h.source, List.flatMap_append, h.curr, length_codes,
    List.drop_left, codes]

theorem past (h : s.Reads before (text ++ after)) : (s.past text).Reads (before ++ text) after := by
  constructor
  · exact h.source.trans (List.append_assoc _ _ _).symm
  · rw [codes_append, List.length_append, ← h.curr]
    rfl

theorem isAtEnd (h : s.Reads before after) : s.isAtEnd = after.isEmpty := by
  rw [isAtEnd_eq, h.ahead]
  cases after with
  | nil => rfl
  | cons c cs =>
    cases hcodes : codes (c :: cs) with
    | nil => simp [codes, String.utf8EncodeChar_ne_nil] at hcodes
    | cons b bs => rfl

/-- An ASCII character is one byte. -/
theorem advance (h : s.Reads before (c :: after)) (hc : c.toNat < 128) (hline : c ≠ '\n') :
    s.advance = .ok (c, s.past [c]) := by
  have hnone : newlines [c] = 0 := List.count_eq_zero.mpr (by simp [hline.symm])
  rw [advance_cons (h.ahead.trans (codes_cons_ascii hc after)), Scanner.past, codes_ascii hc, hnone]
  rfl

/-- A test for ASCII characters is passed by the next byte if the next character passes it. -/
theorem test_peek (h : s.Reads before after) (test : Char → Bool) (hzero : test '\x00' = false)
    (htest : ∀ c : Char, 128 ≤ c.toNat → test c = false) : test s.peek = after.head?.any test := by
  rw [peek_eq, h.ahead]
  exact test_headD_codes hzero htest after

theorem advanceWhile (h : s.Reads before after) (hzero : test '\x00' = false)
    (hline : test '\n' = false) (htest : ∀ c : Char, 128 ≤ c.toNat → test c = false) :
    s.advanceWhile test = .ok (s.past (after.takeWhile test)) := by
  have hnone : newlines (after.takeWhile test) = 0 := by
    refine List.count_eq_zero.mpr fun hmem => ?_
    rw [mem_takeWhile hmem] at hline
    cases hline
  rw [advanceWhile_eq hzero, h.ahead, takeWhile_codes htest, Scanner.past, hnone]

theorem advanceToQuote (h : s.Reads before after) :
    s.advanceToQuote = .ok (s.past (after.takeWhile (· != '"'))) := by
  rw [advanceToQuote_eq, h.ahead, takeWhile_bne_codes (by decide), newlines_codes]
  rfl

/-- An ASCII character is matched if it is next. -/
theorem matchByte (h : s.Reads before after) (hc : c.toNat < 128) (hline : c ≠ '\n')
    (hzero : c ≠ '\x00') :
    s.matchByte c =
      .ok (after.head? == some c, if after.head? == some c then s.past [c] else s) := by
  have hpeek : (s.peek == c) = after.head?.any (· == c) :=
    h.test_peek (· == c) (beq_eq_false_iff_ne.mpr hzero.symm) fun d hd =>
      beq_eq_false_iff_ne.mpr (ne_of_not_ascii hd hc)
  rw [Scanner.matchByte, h.isAtEnd, hpeek]
  cases after with
  | nil => rfl
  | cons d cs =>
    by_cases hd : d = c
    · subst hd
      simp [h.advance hc hline, Bind.bind, Except.bind, Pure.pure, Except.pure]
    · simp [hd, Pure.pure, Except.pure]

end Reads

/-! ## Comments, symbols and strings -/

namespace Reads

/-- The text between the start of a lexeme and the next byte. -/
theorem lexeme (h : s.Reads (before ++ text) after) (hstart : s.start = (codes before).length) :
    slice s.source s.start s.curr = .ok (.ofList text) := by
  rw [hstart, h.curr]
  exact slice_codes h.source

theorem lexemeBytes (h : s.Reads (before ++ text) after)
    (hstart : s.start = (codes before).length) :
    sliceBytes s.source s.start s.curr = .ok (text.flatMap String.utf8EncodeChar) := by
  rw [hstart, h.curr]
  exact sliceBytes_codes h.source

theorem size (h : s.Reads before after) : s.bytes.size = (codes (before ++ after)).length := by
  rw [← h.source]
  exact size_toUTF8 s.source

theorem unexpected (hsource : s.source.toList = before ++ c :: after)
    (hstart : s.start = (codes before).length) :
    s.unexpected = .ok (.error ⟨.unexpectedCharacter c, s.line⟩, s) := by
  have hsize : s.bytes.size = (codes (before ++ c :: after)).length := by
    rw [← hsource]
    exact size_toUTF8 s.source
  have hbehind : slice s.source s.start s.bytes.size = .ok (.ofList (c :: after)) := by
    rw [hstart, hsize]
    exact slice_codes (hsource.trans (List.append_nil _).symm)
  rw [Scanner.unexpected, hbehind, ok_bind, String.toList_ofList]
  rfl

end Reads

theorem memchr_newline (bytes : List UInt8) :
    (memchr 0x0A bytes).getD bytes.length =
      ((bytes.map Char.ofUInt8).takeWhile (· != '\n')).length := by
  have hcode (b : UInt8) : (Char.ofUInt8 b != '\n') = !(b == 0x0A) := by
    have hiff : Char.ofUInt8 b = '\n' ↔ b = 0x0A := by
      rw [← Char.toNat_inj, toNat_ofUInt8, ← UInt8.toNat_inj]
      rfl
    rw [Bool.eq_iff_iff, bne_iff_ne, Bool.not_eq_true', beq_eq_false_iff_ne, ne_eq, hiff]
  induction bytes with
  | nil => rfl
  | cons b bs ih =>
    rw [memchr] at ih ⊢
    rw [List.findIdx?_cons, List.map_cons, List.takeWhile_cons, hcode]
    cases b == 0x0A with
    | true => rfl
    | false =>
      simp only [Bool.not_false, if_true, Bool.false_eq_true, if_false, List.length_cons, ← ih]
      cases List.findIdx? (· == 0x0A) bs <;> rfl

namespace Reads

/-- A comment is passed over up to the end of its line. -/
theorem slash_comment (h : s.Reads before ('/' :: after)) :
    s.slash = .ok (s.past ('/' :: after.takeWhile (· != '\n'))) := by
  have hnext : (s.past ['/']).Reads (before ++ ['/']) after := h.past
  have hmatch : s.matchByte '/' = .ok (true, s.past ['/']) :=
    h.matchByte (by decide) (by decide) (by decide)
  have hbehind : sliceBytes (s.past ['/']).source (s.past ['/']).curr (s.past ['/']).bytes.size =
      .ok (after.flatMap String.utf8EncodeChar) := by
    rw [hnext.curr, hnext.size]
    exact sliceBytes_codes (hnext.source.trans (List.append_nil _).symm)
  -- The jump goes as far as reading up to the line end.
  have hjump : (memchr 0x0A (after.flatMap String.utf8EncodeChar)).getD
      (after.flatMap String.utf8EncodeChar).length =
        (codes (after.takeWhile (· != '\n'))).length := by
    rw [memchr_newline, ← takeWhile_bne_codes (by decide)]
    rfl
  have hline : newlines (after.takeWhile (· != '\n')) = 0 := by
    refine List.count_eq_zero.mpr fun hmem => ?_
    simpa using mem_takeWhile hmem
  have hend : (s.past ['/']).bytes.size =
      (s.past ['/']).curr + (after.flatMap String.utf8EncodeChar).length := by
    rw [hnext.size, hnext.curr, codes_append, List.length_append, length_codes after]
  have hpast : s.past ('/' :: after.takeWhile (· != '\n')) = (s.past ['/']).moved
      ((memchr 0x0A (after.flatMap String.utf8EncodeChar)).getD
        (after.flatMap String.utf8EncodeChar).length) 0 := by
    rw [← List.singleton_append, ← past_past, Scanner.past, hline, hjump]
  rw [Scanner.slash, hmatch, hpast]
  simp only [ok_bind, if_true, hbehind]
  cases memchr 0x0A (after.flatMap String.utf8EncodeChar) with
  | none => simp only [hend, Option.getD_none, Pure.pure, Except.pure, moved, Nat.add_zero]
  | some i => rfl

theorem slash_alone (h : s.Reads before after) (hne : after.head? ≠ some '/') :
    s.slash = .ok (s.recognise (.symbol .slash)) := by
  have hmatch : s.matchByte '/' = .ok (false, s) := by
    have hread := h.matchByte (c := '/') (by decide) (by decide) (by decide)
    rwa [beq_eq_false_iff_ne.mpr hne] at hread
  rw [Scanner.slash, hmatch]
  rfl

theorem extended (h : s.Reads before after) (alone extended : Symbol) :
    s.extended alone extended = .ok (if after.head? == some '=' then
      (s.past ['=']).recognise (.symbol extended) else s.recognise (.symbol alone)) := by
  rw [Scanner.extended, h.matchByte (by decide) (by decide) (by decide)]
  cases after.head? == some '=' <;> rfl

/-- A string is read up to the next quote, and its contents cut out. -/
theorem string_closed {contents : List Char}
    (h : s.Reads (before ++ ['"']) (contents ++ '"' :: after)) (hfree : '"' ∉ contents)
    (hstart : s.start = (codes before).length) :
    s.string = .ok (.ok (), (s.past (contents ++ ['"'])).recognise
      (.string (.ofList contents))) := by
  have hquote : (s.past contents).Reads (before ++ ['"'] ++ contents) ('"' :: after) := h.past
  have hclosed : ((s.past contents).past ['"']).Reads
      (before ++ ['"'] ++ contents ++ ['"']) after := hquote.past
  have hskip : s.advanceToQuote = .ok (s.past contents) := by
    rw [h.advanceToQuote, (span_append (bne_of_not_mem hfree) rfl).1]
  have hfirst : s.start + 1 = (codes (before ++ ['"'])).length := by
    rw [hstart, codes_append, List.length_append]
    rfl
  have hlast : ((s.past contents).past ['"']).curr - 1 =
      (codes (before ++ ['"'] ++ contents)).length := by
    rw [hclosed.curr, codes_append _ ['"'], List.length_append]
    rfl
  have hcontents : slice ((s.past contents).past ['"']).source
      (((s.past contents).past ['"']).start + 1) (((s.past contents).past ['"']).curr - 1) =
        .ok (.ofList contents) := by
    change slice s.source (s.start + 1) _ = _
    rw [hfirst, hlast]
    exact slice_codes hquote.source
  rw [Scanner.string, hskip, ok_bind, hquote.isAtEnd, hquote.advance (by decide) (by decide),
    ← past_past]
  simp only [List.isEmpty_cons, Bool.false_eq_true, if_false, ok_bind, hcontents]
  rfl

/-- A string without a quote behind it is refused on the last line. -/
theorem string_open (h : s.Reads before after) (hfree : '"' ∉ after) :
    s.string = .ok (.error ⟨.unterminatedString, s.line + newlines after⟩, s.past after) := by
  have hend : (s.past after).Reads (before ++ after) [] :=
    Reads.past ((List.append_nil after).symm ▸ h)
  have hskip : s.advanceToQuote = .ok (s.past after) := by
    rw [h.advanceToQuote, List.takeWhile_eq_self_iff.mpr (bne_of_not_mem hfree)]
  rw [Scanner.string, hskip, ok_bind, hend.isAtEnd]
  rfl

end Reads

/-! ## Numbers -/

theorem decimal?_whole {whole : List Char} (hne : whole ≠ []) (h : ∀ c ∈ whole, c.isDigit = true) :
    decimal? (.ofList whole) = some (Number.ofLiteral whole []) := by
  have htake : whole.takeWhile Char.isDigit = whole := List.takeWhile_eq_self_iff.mpr h
  have hdrop : whole.dropWhile Char.isDigit = [] := List.dropWhile_eq_nil_iff.mpr h
  simp [decimal?, htake, hdrop, hne]

theorem decimal?_point {whole fraction : List Char} (hne : whole ≠ [])
    (h : ∀ c ∈ whole, c.isDigit = true) (hfraction : ∀ c ∈ fraction, c.isDigit = true) :
    decimal? (.ofList (whole ++ '.' :: fraction)) = some (Number.ofLiteral whole fraction) := by
  obtain ⟨htake, hdrop⟩ := @span_append Char.isDigit whole fraction '.' h rfl
  have hall : fraction.all Char.isDigit = true := List.all_eq_true.mpr hfraction
  simp only [decimal?, String.toList_ofList, htake, hdrop, hall]
  simp [hne]

theorem isDigit_not_ascii (c : Char) (h : 128 ≤ c.toNat) : c.isDigit = false := by
  rw [Bool.eq_false_iff, Ne, isDigit_iff, IsDigit]
  rintro ⟨-, hle⟩
  have hnat : c.toNat ≤ '9'.toNat := hle
  exact absurd h (Nat.not_le_of_lt (Nat.lt_of_le_of_lt hnat (by decide)))

theorem isWordPart_not_ascii (c : Char) (h : 128 ≤ c.toNat) : isWordPart c = false := by
  rw [Bool.eq_false_iff, Ne, isWordPart_iff]
  rintro (hletter | hdigit)
  · have hnat : c.toNat ≤ 'z'.toNat := by
      obtain ⟨-, hle⟩ | ⟨-, hle⟩ | rfl := hletter
      · exact Nat.le_trans (show c.toNat ≤ 'Z'.toNat from hle) (by decide)
      · exact hle
      · decide
    exact absurd h (Nat.not_le_of_lt (Nat.lt_of_le_of_lt hnat (by decide)))
  · rw [← isDigit_iff, isDigit_not_ascii c h] at hdigit
    cases hdigit

/-- Characters of a class are a run if none follows. -/
theorem takeWhile_run {run : List Char} (hrun : ∀ c ∈ run, test c = true)
    (hstop : after.head?.any test = false) : (run ++ after).takeWhile test = run := by
  rw [List.takeWhile_append_of_pos hrun]
  cases after with
  | nil => exact List.append_nil run
  | cons c cs =>
    have hc : test c = false := hstop
    rw [List.takeWhile_cons, hc]
    exact List.append_nil run

namespace Reads

theorem digits {run : List Char} (h : s.Reads before (run ++ after))
    (hrun : ∀ c ∈ run, c.isDigit = true) (hstop : after.head?.any Char.isDigit = false) :
    s.advanceWhile Char.isDigit = .ok (s.past run) := by
  rw [h.advanceWhile rfl rfl isDigit_not_ascii, takeWhile_run hrun hstop]

/-- A point is read only if a digit follows. -/
theorem fraction_next (h : s.Reads before after) :
    (s.peek == '.' && s.peekNext.isDigit) =
      match after with
      | '.' :: digit :: _ => digit.isDigit
      | _ => false := by
  have hpoint : (s.peek == '.') = after.head?.any (· == '.') :=
    h.test_peek (· == '.') rfl fun c hc =>
      beq_eq_false_iff_ne.mpr (ne_of_not_ascii hc (by decide))
  rw [hpoint]
  cases after with
  | nil => rfl
  | cons c cs =>
    by_cases hc : c = '.'
    · subst hc
      have hahead : s.ahead = '.' :: codes cs := h.ahead.trans (codes_cons_ascii (by decide) cs)
      rw [peekNext_eq, hahead, List.tail_cons, test_headD_codes rfl isDigit_not_ascii]
      cases cs <;> rfl
    · have hne : (c == '.') = false := beq_eq_false_iff_ne.mpr hc
      simp [hne, hc]

/-- Digits are a number by themselves if no point with a digit follows. -/
theorem number_whole {c : Char} {whole : List Char}
    (h : s.Reads (before ++ [c]) (whole ++ after)) (hstart : s.start = (codes before).length)
    (hwhole : ∀ d ∈ c :: whole, d.isDigit = true) (hstop : after.head?.any Char.isDigit = false)
    (hno : ∀ digit rest, after = '.' :: digit :: rest → digit.isDigit = false) :
    s.number =
      .ok ((s.past whole).recognise (.number (Number.ofLiteral (c :: whole) []))) := by
  have hbehind : (s.past whole).Reads (before ++ c :: whole) after := by
    have hpast := h.past
    rwa [List.append_assoc, List.singleton_append] at hpast
  have hfraction : ((s.past whole).peek == '.' && (s.past whole).peekNext.isDigit) = false := by
    rw [hbehind.fraction_next]
    split
    · exact hno _ _ rfl
    · rfl
  rw [Scanner.number, h.digits (List.forall_mem_cons.mp hwhole).2 hstop, ok_bind, hfraction]
  simp only [Bool.false_eq_true, if_false]
  rw [pure_bind, hbehind.lexeme hstart, ok_bind, decimal?_whole (List.cons_ne_nil _ _) hwhole]
  rfl

/-- A point and a digit behind digits start a fraction. -/
theorem number_point {c : Char} {whole fraction : List Char}
    (h : s.Reads (before ++ [c]) (whole ++ '.' :: (fraction ++ after)))
    (hstart : s.start = (codes before).length) (hwhole : ∀ d ∈ c :: whole, d.isDigit = true)
    (hne : fraction ≠ []) (hfraction : ∀ d ∈ fraction, d.isDigit = true)
    (hstop : after.head?.any Char.isDigit = false) :
    s.number = .ok ((s.past (whole ++ '.' :: fraction)).recognise
      (.number (Number.ofLiteral (c :: whole) fraction))) := by
  have hpoint := h.past
  have hdigits : ((s.past whole).past ['.']).Reads
      (before ++ [c] ++ whole ++ ['.']) (fraction ++ after) := hpoint.past
  have hbehind : (((s.past whole).past ['.']).past fraction).Reads
      (before ++ (c :: whole ++ '.' :: fraction)) after := by
    have hpast := hdigits.past
    simpa only [List.append_assoc, List.cons_append, List.nil_append] using hpast
  have hnext : ((s.past whole).peek == '.' && (s.past whole).peekNext.isDigit) = true := by
    obtain ⟨digit, rest, rfl⟩ := List.exists_cons_of_ne_nil hne
    exact hpoint.fraction_next.trans (hfraction digit List.mem_cons_self)
  have hpast : s.past (whole ++ '.' :: fraction) = ((s.past whole).past ['.']).past fraction := by
    rw [past_past, past_past, List.singleton_append]
  rw [Scanner.number, h.digits (List.forall_mem_cons.mp hwhole).2 rfl, ok_bind, hnext, hpast]
  simp only [if_true]
  rw [hpoint.advance (by decide) (by decide), ok_bind]
  change (Scanner.advanceWhile Char.isDigit ((s.past whole).past ['.']) >>= _) = _
  rw [hdigits.digits hfraction hstop, ok_bind, hbehind.lexeme hstart, ok_bind,
    decimal?_point (List.cons_ne_nil _ _) hwhole hfraction]
  rfl

end Reads

/-! ## Words -/

theorem ofBytes?_eq (text : List Char) :
    Keyword.ofBytes? (text.flatMap String.utf8EncodeChar) = Keyword.ofText? (.ofList text) := by
  refine congrArg Keyword.all.find? (funext fun k => ?_)
  rw [Bool.eq_iff_iff, beq_iff_eq, beq_iff_eq, ← String.toByteArray_inj, String.toByteArray_ofList,
    data_toUTF8, ← String.utf8Encode_toList]
  exact List.toByteArray_inj.symm

namespace Reads

theorem word {c : Char} (h : s.Reads (before ++ [c]) after)
    (hstart : s.start = (codes before).length) :
    s.word = .ok ((s.past (after.takeWhile isWordPart)).recognise
      (Chunk.wordKind (c :: after.takeWhile isWordPart))) := by
  have hbehind : (s.past (after.takeWhile isWordPart)).Reads
      (before ++ c :: after.takeWhile isWordPart) (after.dropWhile isWordPart) := by
    have hsplit := h
    rw [← List.takeWhile_append_dropWhile (p := isWordPart) (l := after)] at hsplit
    have hpast := hsplit.past
    rwa [List.append_assoc, List.singleton_append] at hpast
  rw [Scanner.word, h.advanceWhile rfl rfl isWordPart_not_ascii, ok_bind,
    hbehind.lexemeBytes hstart, ok_bind, ofBytes?_eq, Chunk.wordKind]
  cases Keyword.ofText? (.ofList (c :: after.takeWhile isWordPart)) <;> rfl

end Reads

end Scanner

end Lox
