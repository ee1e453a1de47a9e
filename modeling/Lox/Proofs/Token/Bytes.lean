import Lox.Token.Scanner
import Mathlib.Data.List.Basic
import Mathlib.Tactic.SplitIfs

/-!
# Bytes and characters

A scanner that goes over the bytes of a source finds the tokens that `lex` finds among its
characters, and does nothing that can go wrong. All that it looks for are ASCII characters,
and no byte of any other character looks like one of them, so what it passes over ends where
a character does.

## Implementation notes

The bytes of a text are read as the characters that have their codes. An ASCII character
then stands for itself, and any other one for several that are not ASCII.
-/

namespace Lox

/-! ## The bytes of characters -/

theorem utf8EncodeChar_ascii {c : Char} (h : c.toNat < 128) :
    String.utf8EncodeChar c = [UInt8.ofNat c.toNat] := by
  have hascii : c.val.toNat ≤ 127 := Nat.le_of_lt_succ h
  rw [String.utf8EncodeChar, if_pos hascii]
  rfl

theorem startsCharacter_ofNat {n : Nat} (h : 192 ≤ n) (hlt : n < 256) :
    startsCharacter (UInt8.ofNat n) = true := by
  simp only [startsCharacter, Bool.or_eq_true, decide_eq_true_eq, UInt8.le_iff_toNat_le,
    UInt8.toNat_ofNat', Nat.reducePow, UInt8.reduceToNat]
  omega

theorem ne_of_not_ascii {c d : Char} (hc : 128 ≤ c.toNat) (hd : d.toNat < 128) : c ≠ d := by
  rintro rfl
  exact absurd hd (Nat.not_lt_of_le hc)

/-- A character that is not ASCII has no ASCII byte, and starts with a byte that no character
goes on with. -/
theorem utf8EncodeChar_of_not_ascii {c : Char} (h : 128 ≤ c.toNat) :
    ∃ b bs, String.utf8EncodeChar c = b :: bs ∧ startsCharacter b = true ∧
      ∀ b' ∈ b :: bs, 128 ≤ b'.toNat := by
  have hascii : ¬ c.val.toNat ≤ 127 := Nat.not_le_of_lt h
  rw [String.utf8EncodeChar, if_neg hascii]
  split_ifs <;> refine ⟨_, _, rfl, startsCharacter_ofNat (by omega) (by omega), ?_⟩ <;>
    simp only [List.forall_mem_cons, UInt8.toNat_ofNat', Nat.reducePow] <;>
    refine ⟨by omega, ?_⟩ <;> simp <;> omega

theorem startsCharacter_head {c : Char} {b : UInt8} {bs : List UInt8}
    (h : String.utf8EncodeChar c = b :: bs) : startsCharacter b = true := by
  obtain hascii | hnot := Nat.lt_or_ge c.toNat 128
  · rw [utf8EncodeChar_ascii hascii] at h
    cases h
    simp only [startsCharacter, Bool.or_eq_true, decide_eq_true_eq, UInt8.lt_iff_toNat_lt,
      UInt8.toNat_ofNat', Nat.reducePow, UInt8.reduceToNat]
    omega
  · obtain ⟨b', bs', hencode, hstarts, -⟩ := utf8EncodeChar_of_not_ascii hnot
    cases hencode.symm.trans h
    exact hstarts

/-! ## The codes of a text -/

/-- The bytes of a text, read as characters. -/
def codes (cs : List Char) : List Char :=
  (cs.flatMap String.utf8EncodeChar).map Char.ofUInt8

theorem codes_append (cs ds : List Char) : codes (cs ++ ds) = codes cs ++ codes ds := by
  simp [codes]

theorem codes_cons (c : Char) (cs : List Char) : codes (c :: cs) = codes [c] ++ codes cs :=
  codes_append [c] cs

theorem toNat_ofUInt8 (b : UInt8) : (Char.ofUInt8 b).toNat = b.toNat :=
  UInt8.toNat_toUInt32 b

theorem codes_ascii {c : Char} (h : c.toNat < 128) : codes [c] = [c] := by
  have hcode : Char.ofUInt8 (UInt8.ofNat c.toNat) = c := by
    apply Char.toNat_inj.mp
    rw [toNat_ofUInt8, UInt8.toNat_ofNat', Nat.mod_eq_of_lt (by omega)]
  simp [codes, utf8EncodeChar_ascii h, hcode]

theorem codes_cons_ascii {c : Char} (h : c.toNat < 128) (cs : List Char) :
    codes (c :: cs) = c :: codes cs := by
  rw [codes_cons, codes_ascii h, List.singleton_append]

theorem codes_not_ascii {c : Char} (h : 128 ≤ c.toNat) :
    ∃ d ds, codes [c] = d :: ds ∧ ∀ d' ∈ d :: ds, 128 ≤ d'.toNat := by
  obtain ⟨b, bs, hencode, -, hall⟩ := utf8EncodeChar_of_not_ascii h
  refine ⟨.ofUInt8 b, bs.map .ofUInt8, by simp [codes, hencode], ?_⟩
  rw [← List.map_cons]
  intro d hd
  obtain ⟨b', hb', rfl⟩ := List.mem_map.mp hd
  rw [toNat_ofUInt8]
  exact hall b' hb'

/-- A test that tells ASCII characters only apart stops in the bytes of a text where it stops
in the text. -/
theorem takeWhile_codes {test : Char → Bool} {others : Bool}
    (htest : ∀ c : Char, 128 ≤ c.toNat → test c = others) (cs : List Char) :
    (codes cs).takeWhile test = codes (cs.takeWhile test) := by
  induction cs with
  | nil => rfl
  | cons c cs ih =>
    obtain hascii | hnot := Nat.lt_or_ge c.toNat 128
    · rw [codes_cons_ascii hascii, List.takeWhile_cons, List.takeWhile_cons, ih]
      split
      · rw [codes_cons_ascii hascii]
      · rfl
    · obtain ⟨d, ds, hcodes, hall⟩ := codes_not_ascii hnot
      rw [codes_cons, List.takeWhile_cons, htest c hnot]
      cases others with
      | true =>
        have hpass : ∀ d' ∈ codes [c], test d' = true := by
          rw [hcodes]
          exact fun d' hd' => htest d' (hall d' hd')
        rw [List.takeWhile_append_of_pos hpass, ih, if_pos rfl]
        exact (codes_cons c _).symm
      | false =>
        have hfails : test d = false := htest d (hall d List.mem_cons_self)
        rw [hcodes, List.cons_append, List.takeWhile_cons, hfails]
        rfl

/-- Lines end at the same bytes as characters. -/
theorem newlines_codes (cs : List Char) : newlines (codes cs) = newlines cs := by
  have hnewline {c : Char} (h : 128 ≤ c.toNat) : c ≠ '\n' := ne_of_not_ascii h (by decide)
  induction cs with
  | nil => rfl
  | cons c cs ih =>
    obtain hascii | hnot := Nat.lt_or_ge c.toNat 128
    · rw [codes_cons_ascii hascii, newlines, newlines, List.count_cons, List.count_cons]
      exact congrArg (· + _) ih
    · obtain ⟨d, ds, hcodes, hall⟩ := codes_not_ascii hnot
      have hnone : (codes [c]).count '\n' = 0 := by
        rw [hcodes]
        exact List.count_eq_zero.mpr fun hmem => hnewline (hall _ hmem) rfl
      rw [codes_cons, newlines, List.count_append, hnone, Nat.zero_add, newlines,
        List.count_cons_of_ne (hnewline hnot)]
      exact ih

/-- The bytes up to a given one are those of the characters up to it. -/
theorem takeWhile_bne_codes {d : Char} (hd : d.toNat < 128) (cs : List Char) :
    (codes cs).takeWhile (· != d) = codes (cs.takeWhile (· != d)) :=
  takeWhile_codes (fun _ hc => bne_iff_ne.mpr (ne_of_not_ascii hc hd)) cs

/-- The first byte of a text passes a test for ASCII characters if the first character does. -/
theorem test_headD_codes {test : Char → Bool} (hzero : test '\x00' = false)
    (htest : ∀ c : Char, 128 ≤ c.toNat → test c = false) (cs : List Char) :
    test ((codes cs).headD '\x00') = cs.head?.any test := by
  cases cs with
  | nil => exact hzero
  | cons c cs =>
    obtain hascii | hnot := Nat.lt_or_ge c.toNat 128
    · rw [codes_cons_ascii hascii]
      rfl
    · obtain ⟨d, ds, hcodes, hall⟩ := codes_not_ascii hnot
      rw [codes_cons, hcodes]
      exact (htest d (hall d List.mem_cons_self)).trans (htest c hnot).symm

/-! ## Cutting text -/

theorem data_toUTF8 (text : String) :
    text.toUTF8.data.toList = text.toList.flatMap String.utf8EncodeChar := by
  rw [String.toUTF8_eq_toByteArray, ← String.utf8Encode_toList]
  exact List.toList_data_toByteArray

theorem length_codes (cs : List Char) :
    (codes cs).length = (cs.flatMap String.utf8EncodeChar).length := by
  simp [codes]

theorem size_utf8Encode (cs : List Char) : cs.utf8Encode.size = (codes cs).length := by
  rw [length_codes]
  exact List.size_toByteArray

theorem size_toUTF8 (text : String) : text.toUTF8.size = (codes text.toList).length := by
  rw [String.toUTF8_eq_toByteArray, ← String.utf8Encode_toList, size_utf8Encode]

section Cutting

variable {text : String} {before part after : List Char}

theorem isBoundary_codes (h : text.toList = before ++ after) :
    isBoundary text (codes before).length = true := by
  have hget : text.toUTF8.data[(codes before).length]? =
      (after.flatMap String.utf8EncodeChar).head? := by
    rw [← Array.getElem?_toList, data_toUTF8, h, List.flatMap_append, length_codes,
      List.getElem?_append_right (Nat.le_refl _), Nat.sub_self, List.head?_eq_getElem?]
  rw [isBoundary, hget]
  cases after with
  | nil => exact beq_iff_eq.mpr (by rw [size_toUTF8, h, List.append_nil])
  | cons c cs =>
    cases hencode : String.utf8EncodeChar c with
    | nil => exact absurd hencode String.utf8EncodeChar_ne_nil
    | cons b bs =>
      rw [List.flatMap_cons, hencode]
      exact startsCharacter_head hencode

theorem extract_codes (h : text.toList = before ++ part ++ after) :
    text.toUTF8.extract (codes before).length (codes (before ++ part)).length =
      part.utf8Encode := by
  rw [String.toUTF8_eq_toByteArray, ← String.utf8Encode_toList, h, ← size_utf8Encode,
    ← size_utf8Encode, List.append_assoc, List.utf8Encode_append, List.utf8Encode_append,
    List.utf8Encode_append, ByteArray.size_append]
  have hfront := ByteArray.extract_append_size_add (a := before.utf8Encode)
    (b := part.utf8Encode ++ after.utf8Encode) (i := 0) (j := part.utf8Encode.size)
  rw [Nat.add_zero] at hfront
  rw [hfront]
  exact ByteArray.extract_append_eq_left rfl

theorem le_codes (h : text.toList = before ++ part ++ after) :
    (codes before).length ≤ (codes (before ++ part)).length ∧
      (codes (before ++ part)).length ≤ text.toUTF8.size := by
  have hpart : (codes (before ++ part)).length = (codes before).length + (codes part).length := by
    rw [codes_append, List.length_append]
  rw [size_toUTF8, h, codes_append (before ++ part), List.length_append, hpart]
  omega

/-- Text is cut between characters without a defect. -/
theorem slice_codes (h : text.toList = before ++ part ++ after) :
    slice text (codes before).length (codes (before ++ part)).length = .ok (.ofList part) := by
  obtain ⟨hle, hsize⟩ := le_codes h
  have hfirst : isBoundary text (codes before).length = true :=
    isBoundary_codes (h.trans (List.append_assoc _ _ _))
  have hlast : isBoundary text (codes (before ++ part)).length = true := isBoundary_codes h
  have hpart : String.fromUTF8? part.utf8Encode = some (.ofList part) :=
    dif_pos ByteArray.isValidUTF8_utf8Encode
  rw [slice, extract_codes h, hpart, hfirst, hlast]
  simp only [Nat.not_lt_of_le hle, Nat.not_lt_of_le hsize, decide_false, Bool.or_self,
    Bool.false_eq_true, if_false, Bool.not_true]

theorem sliceBytes_codes (h : text.toList = before ++ part ++ after) :
    sliceBytes text (codes before).length (codes (before ++ part)).length =
      .ok (part.flatMap String.utf8EncodeChar) := by
  obtain ⟨hle, hsize⟩ := le_codes h
  rw [sliceBytes, extract_codes h]
  simp only [Nat.not_lt_of_le hle, Nat.not_lt_of_le hsize, decide_false, Bool.or_self,
    Bool.false_eq_true, if_false]
  exact congrArg Except.ok List.toList_data_toByteArray

end Cutting

end Lox
