import Lox.Proofs.Number.Bits
import Lox.Proofs.Number.Shortest
import Lox.Proofs.Token.Layout
import Lox.Session

/-!
# Printed numbers are literals

What is printed for a finite number is a number literal that is read as that number,
with a minus in front of it if the number has a sign.

## Implementation notes

A text is a numeral of the rational that its digits spell, whether this is a
floating-point number or not. What is read for it is then a matter of rounding alone.
-/

namespace Lox

/-! ## Digits -/

/-- The texts that are number literals, and what they spell. -/
inductive IsNumeral : ℚ → List Char → Prop
  | whole (digits : List Char) (h : IsDigits digits) :
      IsNumeral (Number.decimalValue digits []) digits
  | decimal (digits fraction : List Char) (h : IsDigits digits) (hfraction : IsDigits fraction) :
      IsNumeral (Number.decimalValue digits fraction) (digits ++ '.' :: fraction)

theorem IsNumeral.spells {q : ℚ} {text : List Char} {word : ℕ} (h : IsNumeral q text)
    (hword : Number.Nearest q word) : Spells (.number (.ofBits (.ofNat word))) text := by
  cases h with
  | whole _ h => exact .whole text _ h ⟨word, hword, rfl⟩
  | decimal digits fraction h hfraction =>
    exact .decimal digits fraction _ h hfraction ⟨word, hword, rfl⟩

namespace Number

theorem digitsValue_digits (n : ℕ) : digitsValue (digits n) = n := by
  rw [← ofDigits_eq]
  exact Nat.ofDigitChars_ten_toDigits

theorem isDigits_digits (n : ℕ) : IsDigits (digits n) where
  nonempty := Nat.toDigits_ne_nil
  digits c h := (isDigit_iff c).mp (Nat.isDigit_of_mem_toDigits (by norm_num) le_rfl h)

theorem digitsValue_append (ds ds' : List Char) :
    digitsValue (ds ++ ds') = digitsValue ds * 10 ^ ds'.length + digitsValue ds' := by
  rw [digitsValue, digitsValue, digitsValue, List.reverse_append, List.map_append,
    Nat.ofDigits_append, List.length_map, List.length_reverse]
  ring

theorem digitsValue_replicate (k : ℕ) : digitsValue (List.replicate k '0') = 0 := by
  induction k with
  | zero => rfl
  | succ k ih =>
    rw [List.replicate_succ', digitsValue_append, ih]
    rfl

theorem isDigit_replicate {k : ℕ} {c : Char} (h : c ∈ List.replicate k '0') : IsDigit c := by
  rw [List.eq_of_mem_replicate h]
  decide

/-- A whole number and zeros behind it. -/
theorem isNumeral_zeros (n k : ℕ) :
    IsNumeral (n * 10 ^ k) (digits n ++ List.replicate k '0') := by
  have hdigits : IsDigits (digits n ++ List.replicate k '0') := by
    constructor
    · exact List.append_ne_nil_of_left_ne_nil (isDigits_digits n).nonempty _
    · intro c hc
      rcases List.mem_append.mp hc with hc | hc
      · exact (isDigits_digits n).digits c hc
      · exact isDigit_replicate hc
  have hnumeral := IsNumeral.whole _ hdigits
  rw [decimalValue, List.append_nil, digitsValue_append, digitsValue_digits, digitsValue_replicate,
    List.length_replicate] at hnumeral
  simpa using hnumeral

theorem isNumeral_digits (n : ℕ) : IsNumeral n (digits n) := by
  have hnumeral := isNumeral_zeros n 0
  simpa using hnumeral

/-- A whole number and a zero behind its point. -/
theorem isNumeral_point (n : ℕ) : IsNumeral n (digits n ++ ".0".toList) := by
  have hzero : IsDigits ['0'] := ⟨by simp, by simpa using (by decide : IsDigit '0')⟩
  have hnumeral := IsNumeral.decimal _ ['0'] (isDigits_digits n) hzero
  rw [decimalValue, digitsValue_append, digitsValue_digits] at hnumeral
  have hvalue : (((n * 10 ^ ['0'].length + digitsValue ['0'] : ℕ) : ℚ) / 10 ^ ['0'].length) = n := by
    rw [show digitsValue ['0'] = 0 from rfl]
    simp
  rwa [hvalue] at hnumeral

/-- A whole number with a point that is moved into it. -/
theorem isNumeral_pointed (n : ℕ) {places : ℕ} (h : 0 < places) :
    IsNumeral (n / 10 ^ places) (pointed (digits n) places) := by
  generalize hpadded : List.replicate (places + 1 - (digits n).length) '0' ++ digits n = padded
  have hlength : places < padded.length := by
    rw [← hpadded, List.length_append, List.length_replicate]
    omega
  have hdigit (c : Char) (hc : c ∈ padded) : IsDigit c := by
    rw [← hpadded] at hc
    rcases List.mem_append.mp hc with hc | hc
    · exact isDigit_replicate hc
    · exact (isDigits_digits n).digits c hc
  have hvalue : digitsValue padded = n := by
    rw [← hpadded, digitsValue_append, digitsValue_replicate, digitsValue_digits]
    omega
  have hwhole : IsDigits (padded.take (padded.length - places)) := by
    constructor
    · rw [← List.length_pos_iff, List.length_take]
      omega
    · exact fun c hc => hdigit c (List.mem_of_mem_take hc)
  have hplaces : (padded.drop (padded.length - places)).length = places := by
    rw [List.length_drop]
    omega
  have hfraction : IsDigits (padded.drop (padded.length - places)) := by
    constructor
    · rw [← List.length_pos_iff, hplaces]
      exact h
    · exact fun c hc => hdigit c (List.mem_of_mem_drop hc)
  have hnumeral := IsNumeral.decimal _ _ hwhole hfraction
  rw [decimalValue, List.take_append_drop, hvalue, hplaces] at hnumeral
  rw [pointed, hpadded]
  exact hnumeral

/-- A decimal without an exponent spells its value. -/
theorem isNumeral_positional (d : Decimal) :
    IsNumeral (d.coefficient * 10 ^ d.exponent) d.positional := by
  unfold Decimal.positional
  simp only
  split
  · rename_i hexponent
    have hnumeral := isNumeral_zeros d.coefficient d.exponent.toNat
    rwa [← zpow_natCast, Int.toNat_of_nonneg hexponent] at hnumeral
  · rename_i hexponent
    have hplaces : 0 < (-d.exponent).toNat := by omega
    have hnumeral := isNumeral_pointed d.coefficient hplaces
    rwa [← zpow_natCast, Int.toNat_of_nonneg (by omega), zpow_neg, div_inv_eq_mul] at hnumeral

/-! ## Printed numbers -/

section

variable {word : ℕ}

/-- A magnitude that is whole is the number that it is found to be. -/
theorem rung_of_whole? {n : ℕ} (h : (Magnitude.ofWord word).fraction.whole? = some n) :
    rung word = n := by
  have hden : (Magnitude.ofWord word).fraction.den ≠ 0 :=
    (Fraction.scale_den_pos Nat.one_pos two_pos _).ne'
  unfold Fraction.whole? at h
  split at h
  · rename_i hmod
    rw [← Magnitude.toRat_fraction_ofWord, Fraction.toRat, ← Option.some.inj h,
      Nat.cast_div (Nat.dvd_of_mod_eq_zero hmod) (by exact_mod_cast hden)]
  · cases h

theorem whole?_ofWord_zero : (Magnitude.ofWord 0).fraction.whole? = some 0 := by
  have hnum : (Magnitude.ofWord 0).fraction.num = 0 := Nat.zero_mul _
  rw [Fraction.whole?, hnum, Nat.zero_mod, if_pos rfl, Nat.zero_div]

/-- A magnitude that is not a small whole number is not zero. -/
theorem pos_of_whole? (h : (Magnitude.ofWord word).fraction.whole? ≠ some 0) : 0 < word := by
  rw [Nat.pos_iff_ne_zero]
  rintro rfl
  exact h whole?_ofWord_zero

/-- What is written for a magnitude is a numeral that is rounded to it. -/
def Writes (word : ℕ) (text : List Char) : Prop :=
  ∃ q, IsNumeral q text ∧ Nearest q word

theorem writes_positional (hpos : 0 < word) (h : word < infinityWord) (tie : TieRule) :
    Writes word ((Magnitude.ofWord word).shortest tie).positional :=
  ⟨_, isNumeral_positional _, Magnitude.nearest_shortest hpos h tie⟩

theorem writes_digits (h : word < infinityWord) {n : ℕ}
    (hn : (Magnitude.ofWord word).fraction.whole? = some n) : Writes word (digits n) :=
  ⟨n, isNumeral_digits n, rung_of_whole? hn ▸ nearest_rung h.le⟩

theorem writes_point (h : word < infinityWord) {n : ℕ}
    (hn : (Magnitude.ofWord word).fraction.whole? = some n) : Writes word (digits n ++ ".0".toList) :=
  ⟨n, isNumeral_point n, rung_of_whole? hn ▸ nearest_rung h.le⟩

end

namespace Reading

variable {word : ℕ} (h : word < infinityWord)
include h

/-- What is printed for a finite number is a numeral, with a minus in front of it if the
number is negative. -/
theorem writes_display (negative : Bool) : ∃ text, Writes word text ∧
    display (.finite negative (.ofWord word)) = signed negative text := by
  refine ⟨_, ?_, rfl⟩
  split
  · rename_i n hn
    exact writes_digits h hn
  · rename_i hn
    exact writes_positional (pos_of_whole? (by simp [hn])) h .up

theorem writes_literal (negative : Bool) : ∃ text, Writes word text ∧
    literal (.finite negative (.ofWord word)) = signed negative text := by
  refine ⟨_, ?_, rfl⟩
  split
  · rename_i n hn
    split
    · exact writes_point h hn
    · rename_i hlarge
      have hpos : 0 < word := by
        apply pos_of_whole?
        rw [hn]
        rintro ⟨⟩
        exact hlarge (by decide)
      exact writes_positional hpos h .up
  · rename_i hn
    exact writes_positional (pos_of_whole? (by simp [hn])) h .up

end Reading

end Number

/-! ## Tokens -/

section

variable {kind : TokenKind} {text : List Char}

/-- Nothing longer than a minus starts with one. -/
theorem front_minus (rest : List Char) : Front ('-' :: rest) (.symbol .minus) ['-'] where
  spells := .symbol .minus
  isPrefix := ⟨rest, rfl⟩
  longest kind text h hpre := by
    obtain ⟨text, rfl, -⟩ := Chunk.prefix_cons h hpre
    obtain ⟨s, hs, -⟩ := h.of_mark (by decide) (by decide) (by decide)
    revert hs
    cases s <;> simp +contextual [Symbol.text]

/-- A lexeme at the end of a source, on the line of what is in front of it. -/
theorem Spells.scans_last (h : Spells kind text) (before : List Char)
    (hline : newlines (before ++ text) = 0) :
    Scans before text [⟨kind, .ofList text, 1⟩, .endOfInput 1] none := by
  have hnil : ([] : List Char) = [] → ([] : List Char) = [] := fun _ => rfl
  have hread := Scans.token (h.not_startsTrivia (.inl rfl) [] hnil) (h.front (.inl rfl) [] hnil)
    (.finish (before ++ text))
  rwa [hline, List.append_nil, List.append_nil] at hread

end

namespace IsNumeral

variable {q : ℚ} {text : List Char} {word : ℕ} (h : IsNumeral q text)
include h

theorem newlines_eq_zero : newlines text = 0 := by
  rw [newlines, List.count_eq_zero]
  cases h with
  | whole _ h => exact fun hmem => absurd (h.digits _ hmem) (by decide)
  | decimal digits fraction h hfraction =>
    intro hmem
    rcases List.mem_append.mp hmem with hmem | hmem
    · exact absurd (h.digits _ hmem) (by decide)
    · rcases List.mem_cons.mp hmem with heq | hmem
      · exact absurd heq (by decide)
      · exact absurd (hfraction.digits _ hmem) (by decide)

end IsNumeral

namespace Number.Writes

variable {word : ℕ} {text : List Char} (h : Writes word text)
include h

/-- A written magnitude is cut into one token for the number that it is. -/
theorem lex_eq : (lex (.ofList text)).toExcept =
    .ok [⟨.number (.ofBits (.ofNat word)), .ofList text, 1⟩, .endOfInput 1] := by
  obtain ⟨q, hnumeral, hnearest⟩ := h
  apply toExcept_of_scans
  rw [String.toList_ofList]
  exact (hnumeral.spells hnearest).scans_last [] hnumeral.newlines_eq_zero

/-- A written magnitude behind a minus is cut into the minus and a token for the number. -/
theorem lex_minus_eq : (lex (.ofList ('-' :: text))).toExcept =
    .ok [⟨.symbol .minus, "-", 1⟩, ⟨.number (.ofBits (.ofNat word)), .ofList text, 1⟩,
      .endOfInput 1] := by
  obtain ⟨q, hnumeral, hnearest⟩ := h
  have htrivia : ¬ StartsTrivia ('-' :: text) := Chunk.not_startsTrivia (by decide) (by simp)
  have hline : newlines (['-'] ++ text) = 0 := by
    rw [newlines_append, hnumeral.newlines_eq_zero]
    rfl
  apply toExcept_of_scans
  rw [String.toList_ofList]
  exact @Scans.token [] ['-'] text _ _ _ htrivia (front_minus text)
    ((hnumeral.spells hnearest).scans_last ['-'] hline)

end Number.Writes

/-! ## Trees and values -/

section

variable (lexeme : String) (x : Float) (firstId : NodeId)

theorem parseExpression_number :
    parseExpression [⟨.number x, lexeme, 1⟩, .endOfInput 1] firstId =
      (.ok (.literal (.number x)), firstId) := by
  rfl

theorem parseExpression_minus :
    parseExpression [⟨.symbol .minus, "-", 1⟩, ⟨.number x, lexeme, 1⟩, .endOfInput 1] firstId =
      (.ok (.unary .negate ⟨.symbol .minus, "-", 1⟩ (.literal (.number x))), firstId) := by
  rfl

end

namespace Session

/-- Whether a text is read back as a number: as one token for it, behind a minus if the
number has a sign, and when it is evaluated in a session. -/
structure ReadsBack (s : Session) (x : Float) (text : String) : Prop where
  evaluate (limits : Limits) (h : 4 ≤ limits.steps) :
    s.evaluate limits text = some (.ok (.number x), s)
  positive (h : ¬ Number.IsNegative x) :
    (lex text).toExcept = .ok [⟨.number x, text, 1⟩, .endOfInput 1]
  negative (h : Number.IsNegative x) : ∃ (y : Float) (magnitude : String), -y = x ∧
    text = "-" ++ magnitude ∧ (lex text).toExcept =
      .ok [⟨.symbol .minus, "-", 1⟩, ⟨.number y, magnitude, 1⟩, .endOfInput 1]

theorem evaluate_of_run {s : Session} {source : String} {tokens : List Token} {e : Expr} {v : Value}
    {limits : Limits} (hlex : (lex source).toExcept = .ok tokens)
    (hparse : parseExpression tokens s.nextId = (.ok e, s.nextId))
    (hrun : s.state.evaluate limits e = some (.ok v, s.state)) :
    s.evaluate limits source = some (.ok v, s) := by
  simp only [evaluate, hlex, hparse, hrun, Option.map_some]

/-- A written magnitude is read back as the number that has its sign. -/
theorem readsBack_of_writes (s : Session) {x : Float} (h : x.isFinite = true) {text : List Char}
    (htext : Number.Writes (Number.wordOf x) text) :
    s.ReadsBack x (.ofList (Number.signed (decide (Number.IsNegative x)) text)) := by
  by_cases hneg : Number.IsNegative x
  · have hx := Number.neg_ofBits_wordOf h hneg
    have hlex := htext.lex_minus_eq
    have hsigned : Number.signed (decide (Number.IsNegative x)) text = '-' :: text := by
      rw [decide_eq_true hneg, Number.signed, if_pos rfl]
    rw [hsigned]
    refine ⟨fun limits hsteps => ?_, fun hpos => absurd hneg hpos, fun _ => ?_⟩
    · obtain ⟨steps, hsteps⟩ := Nat.exists_eq_add_of_le' hsteps
      apply evaluate_of_run hlex (parseExpression_minus _ _ _)
      rw [State.evaluate, hsteps]
      exact congrArg (fun y => some (Except.ok (Value.number y), s.state)) hx
    · exact ⟨_, .ofList text, hx, @String.ofList_append ['-'] text, hlex⟩
  · have hx := Number.ofBits_wordOf h hneg
    have hlex := htext.lex_eq
    have hsigned : Number.signed (decide (Number.IsNegative x)) text = text := by
      rw [decide_eq_false hneg, Number.signed, if_neg Bool.false_ne_true]
    rw [hx] at hlex
    rw [hsigned]
    refine ⟨fun limits hsteps => ?_, fun _ => hlex, fun hneg' => absurd hneg' hneg⟩
    obtain ⟨steps, hsteps⟩ := Nat.exists_eq_add_of_le' hsteps
    apply evaluate_of_run hlex (parseExpression_number _ _ _)
    rw [State.evaluate, hsteps]
    rfl

/-- The text that is printed for a finite number and the text of its literal are read
back as the number, in any session. -/
theorem printed_numbers_read_back (s : Session) {x : Float} (h : x.isFinite = true) :
    s.ReadsBack x (s.state.store.display (.number x)) ∧ s.ReadsBack x (Number.literal x) := by
  have hword : Number.wordOf x < Number.infinityWord := (Number.isFinite_iff x).mp h
  obtain ⟨shown, hshown, hdisplay⟩ :=
    Number.Reading.writes_display hword (decide (Number.IsNegative x))
  obtain ⟨written, hwritten, hliteral⟩ :=
    Number.Reading.writes_literal hword (decide (Number.IsNegative x))
  constructor
  · rw [Store.display, Number.display, Number.ofFloat_eq h, hdisplay]
    exact s.readsBack_of_writes h hshown
  · rw [Number.literal, Number.ofFloat_eq h, hliteral]
    exact s.readsBack_of_writes h hwritten

/-- Negative zero is printed with its sign and read back with it, and a tenth is read
back from its one digit. -/
theorem printed_numbers_read_back_tenth :
    Number.display (.ofBits 0x8000000000000000) = "-0" ∧
    fresh.evaluate ⟨1, 4⟩ "-0" = some (.ok (.number (.ofBits 0x8000000000000000)), fresh) ∧
    Number.literal (.ofBits 0x3FB999999999999A) = "0.1" ∧
    (lex "0.1").toExcept =
      .ok [⟨.number (.ofBits 0x3FB999999999999A), "0.1", 1⟩, .endOfInput 1] := by
  have hzero : Number.display (.ofBits 0x8000000000000000) = "-0" := by decide +kernel
  have htenth : Number.literal (.ofBits 0x3FB999999999999A) = "0.1" := by decide +kernel
  have hfinite : (Float.ofBits 0x8000000000000000).isFinite = true := by decide +kernel
  have hfinite' : (Float.ofBits 0x3FB999999999999A).isFinite = true := by decide +kernel
  have hpos : ¬ Number.IsNegative (.ofBits 0x3FB999999999999A) := by decide
  have hread := (fresh.printed_numbers_read_back hfinite).1.evaluate ⟨1, 4⟩ le_rfl
  have hlex := (fresh.printed_numbers_read_back hfinite').2.positive hpos
  rw [Store.display, hzero] at hread
  rw [htenth] at hlex
  exact ⟨hzero, hread, htenth, hlex⟩

end Session

end Lox
