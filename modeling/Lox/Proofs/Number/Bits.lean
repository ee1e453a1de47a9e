import Lox.Number.Text
import Mathlib

/-!
# Finite numbers and their words

A finite floating-point number is the word that its bits are without the sign, with a
minus in front of it if the sign bit is set.
-/

namespace Lox.Number

open Float.Model Float.Model.UnpackedFloat

/-! ## Fields -/

/-- The bits of a binary64 number. -/
abbrev Bits := BitVec Format.binary64.numBits

section

variable (b : Bits) (sign : Sign) (exponent : BitVec 11) (mantissa : BitVec 52)

theorem toNat_unpackMantissa : (unpackMantissa b).toNat = b.toNat % 2 ^ 52 := by
  simp [unpackMantissa]

theorem toNat_unpackExponent : (unpackExponent b).toNat = b.toNat / 2 ^ 52 % 2 ^ 11 := by
  simp [unpackExponent, Nat.shiftRight_eq_div_pow]

/-- The sign that the first bit stands for. -/
def signOf : Sign :=
  Sign.ofBitVec (unpackSign b)

/-- The bits with another sign. -/
def signedBits : Bits :=
  packComponents Format.binary64 sign (unpackExponent b) (unpackMantissa b)

theorem toBitVec_signOf : (signOf b).toBitVec = unpackSign b := by
  unfold signOf
  rcases BitVec.eq_zero_or_eq_one (unpackSign b) with h | h <;> rw [h] <;> rfl

theorem toNat_signOf : (signOf b).toBitVec.toNat = b.toNat / 2 ^ 63 := by
  have hlt : b.toNat < 2 ^ 64 := b.isLt
  have hbit : (unpackSign b).toNat = b.toNat / 2 ^ 63 % 2 := by
    simp [unpackSign, Nat.shiftRight_eq_div_pow]
  rw [toBitVec_signOf, hbit]
  omega

theorem signedBits_signOf : signedBits b (signOf b) = b := by
  unfold signedBits packComponents
  rw [toBitVec_signOf]
  simp only [unpackSign, unpackExponent, unpackMantissa, BitVec.extractLsb]
  ext i hi
  grind

theorem toNat_signedBits :
    (signedBits b sign).toNat = sign.toBitVec.toNat * 2 ^ 63 + b.toNat % 2 ^ 63 := by
  unfold signedBits packComponents
  simp only [BitVec.toNat_append, toNat_unpackMantissa, toNat_unpackExponent]
  rw [← Nat.shiftLeft_add_eq_or_of_lt (Nat.mod_lt _ (by decide)),
    ← Nat.shiftLeft_add_eq_or_of_lt (Nat.mod_lt _ (by decide))]
  simp only [Nat.shiftLeft_eq]
  omega

/-! ## Packing -/

/-- The same number with another sign. -/
def resign : UnpackedFloat → UnpackedFloat
  | .notANumber => .notANumber
  | .infinity _ => .infinity sign
  | .zero _ => .zero sign
  | .finite _ m e hm => .finite sign m e hm

theorem resign_signOf :
    resign (signOf b) (unpack Format.binary64 b) = unpack Format.binary64 b := by
  unfold UnpackedFloat.unpack
  simp only
  split
  · split <;> rfl
  · split
    · split <;> rfl
    · rfl

theorem resign_neg :
    resign (-signOf b) (unpack Format.binary64 b) =
      (unpack Format.binary64 b).neg := by
  unfold UnpackedFloat.unpack
  simp only
  split
  · split <;> rfl
  · split
    · split <;> rfl
    · rfl

end

section

variable (sign : Sign) {m : ℕ}

/-- A number below the first binade is packed as it is. -/
theorem pack_subnormal (hm : 0 < m) (hsmall : m < 2 ^ 52) :
    UnpackedFloat.pack Format.binary64 (.finite sign m (-1074) hm) =
      packComponents Format.binary64 sign 0#11 (BitVec.ofNat 52 m) := by
  have hlog : m.log2 + 1 ≠ 53 := by
    have := (Nat.log2_lt hm.ne').mpr hsmall
    omega
  exact if_neg hlog

/-- A number with a leading bit is packed without it. -/
theorem pack_normal {e : ℕ} (hsmall : m < 2 ^ 52) (he : e < 2047) :
    UnpackedFloat.pack Format.binary64 (.finite sign (2 ^ 52 + m) (e - 1075) (by omega)) =
      packComponents Format.binary64 sign (BitVec.ofNat 11 e) (BitVec.ofNat 52 m) := by
  have hlog : (2 ^ 52 + m).log2 + 1 = 53 := by
    rw [Nat.add_right_cancel_iff, Nat.log2_eq_iff (by omega)]
    omega
  have hbias : ((e : ℤ) - 1075 + 1023 + 52).toNat = e := by omega
  have hfits : ¬ 2 ^ 11 ≤ e + 1 := by omega
  have hmod : BitVec.ofNat 52 (2 ^ 52 + m) = BitVec.ofNat 52 m := by
    apply BitVec.eq_of_toNat_eq
    simp
  unfold UnpackedFloat.pack
  change (if 2 ^ 11 ≤ ((e : ℤ) - 1075 + 1023 + 52).toNat + 1 then _
    else if (2 ^ 52 + m).log2 + 1 = 53 then packComponents Format.binary64 sign
      (BitVec.ofNat 11 ((e : ℤ) - 1075 + 1023 + 52).toNat) (BitVec.ofNat 52 (2 ^ 52 + m))
    else _) = _
  rw [hbias, if_neg hfits, if_pos hlog, hmod]

/-- The numbers that are unpacked from finite bits with a given sign. -/
inductive Unpacks (b : Bits) : UnpackedFloat → Prop
  | zero (hexponent : unpackExponent b = 0#11) (hmantissa : unpackMantissa b = 0#52) :
      Unpacks b (.zero sign)
  | subnormal (hexponent : unpackExponent b = 0#11) (hm : 0 < (unpackMantissa b).toNat) :
      Unpacks b (.finite sign (unpackMantissa b).toNat (-1074) hm)
  | normal (hexponent : (unpackExponent b).toNat < 2047)
      (hm : 0 < 2 ^ 52 + (unpackMantissa b).toNat) :
      Unpacks b (.finite sign (2 ^ 52 + (unpackMantissa b).toNat)
        ((unpackExponent b).toNat - 1075) hm)

/-- Finite numbers are told apart by their exponents. -/
theorem isFinite_unpack_iff (b : Bits) :
    (UnpackedFloat.unpack Format.binary64 b).isFinite = true ↔
      (unpackExponent b).toNat < 2047 := by
  have hlt : (unpackExponent b).toNat < 2 ^ 11 := (unpackExponent b).isLt
  have hinfinite : unpackExponent b = -1#11 ↔ (unpackExponent b).toNat = 2047 :=
    ⟨congrArg BitVec.toNat, fun heq => BitVec.eq_of_toNat_eq heq⟩
  unfold UnpackedFloat.unpack
  simp only
  split
  · rename_i heq
    have hmax := hinfinite.mp heq
    split <;> simp [UnpackedFloat.isFinite, hmax]
  · rename_i hne
    have hmax := mt hinfinite.mpr hne
    have hfinite : (unpackExponent b).toNat < 2047 := by omega
    split
    · split <;> simp [UnpackedFloat.isFinite, hfinite]
    · simp [UnpackedFloat.isFinite, hfinite]

theorem unpacks_resign (b : Bits) (h : (UnpackedFloat.unpack Format.binary64 b).isFinite = true) :
    Unpacks sign b (resign sign (UnpackedFloat.unpack Format.binary64 b)) := by
  have hexponent := (isFinite_unpack_iff b).mp h
  have hfinite : ¬ unpackExponent b = -1#11 := by
    intro heq
    rw [heq] at hexponent
    exact absurd hexponent (by decide)
  unfold UnpackedFloat.unpack
  simp only
  rw [if_neg hfinite]
  split
  · rename_i hzero
    split
    · rename_i hmantissa
      exact .zero hzero hmantissa
    · rename_i hmantissa
      have hm : 0 < (unpackMantissa b).toNat := by
        rw [Nat.pos_iff_ne_zero]
        intro heq
        exact hmantissa (BitVec.eq_of_toNat_eq heq)
      have hleast : ((unpackExponent b).toNat : ℤ) - (1023 + 52) + 1 = -1074 := by
        rw [hzero]
        rfl
      change Unpacks sign b (.finite sign (unpackMantissa b).toNat
        (((unpackExponent b).toNat : ℤ) - (1023 + 52) + 1) hm)
      simp only [hleast]
      exact .subnormal hzero hm
  · have hsignificand : (1#1 ++ unpackMantissa b).toNat = 2 ^ 52 + (unpackMantissa b).toNat := by
      rw [BitVec.toNat_append, ← Nat.shiftLeft_add_eq_or_of_lt (unpackMantissa b).isLt]
      rfl
    simp only [hsignificand]
    exact .normal hexponent (by omega)

/-- A finite number is packed into the bits that it was unpacked from, with its sign. -/
theorem pack_resign (b : Bits) (h : (UnpackedFloat.unpack Format.binary64 b).isFinite = true) :
    UnpackedFloat.pack Format.binary64 (resign sign (UnpackedFloat.unpack Format.binary64 b)) =
      signedBits b sign := by
  have hu := unpacks_resign sign b h
  generalize resign sign (UnpackedFloat.unpack Format.binary64 b) = u at hu
  unfold signedBits
  cases hu with
  | zero hexponent hmantissa =>
    rw [hexponent, hmantissa]
    rfl
  | subnormal hexponent hm =>
    rw [pack_subnormal sign hm (unpackMantissa b).isLt, hexponent, BitVec.ofNat_toNat,
      BitVec.setWidth_eq]
  | normal hexponent hm =>
    rw [pack_normal sign (unpackMantissa b).isLt hexponent, BitVec.ofNat_toNat, BitVec.ofNat_toNat,
      BitVec.setWidth_eq, BitVec.setWidth_eq]

end

/-! ## Numbers -/

theorem ext_toBits {x y : Float} (h : x.toBits = y.toBits) : x = y := by
  obtain ⟨⟨b, _⟩⟩ := x
  obtain ⟨⟨b', _⟩⟩ := y
  cases h
  rfl

/-- The word of a number: its bits without the sign. -/
def wordOf (x : Float) : ℕ :=
  x.toBits.toNat % 2 ^ 63

/-- Whether the sign bit of a number is set. -/
def IsNegative (x : Float) : Prop :=
  2 ^ 63 ≤ x.toBits.toNat

instance (x : Float) : Decidable (IsNegative x) :=
  inferInstanceAs (Decidable (_ ≤ _))

theorem isFinite_iff (x : Float) : x.isFinite = true ↔ wordOf x < infinityWord := by
  have hiff : x.isFinite = true ↔ x.toBits.toNat / 2 ^ 52 % 2 ^ 11 < 2047 := by
    rw [← UInt64.toNat_toBitVec, ← toNat_unpackExponent]
    exact isFinite_unpack_iff x.toBits.toBitVec
  rw [hiff]
  unfold wordOf infinityWord
  omega

theorem ofFloat_eq {x : Float} (h : x.isFinite = true) : Reading.ofFloat x =
    .finite (decide (IsNegative x)) (Magnitude.ofWord (wordOf x)) := by
  unfold Reading.ofFloat Reading.ofBits
  exact if_pos ((isFinite_iff x).mp h)

/-- Finite bits are those of their number. -/
theorem toBits_ofBits {bits : UInt64}
    (h : (UnpackedFloat.unpack Format.binary64 bits.toBitVec).isFinite = true) :
    (Float.ofBits bits).toBits = bits := by
  have hpack := pack_resign (signOf bits.toBitVec) bits.toBitVec h
  rw [resign_signOf, signedBits_signOf] at hpack
  change UInt64.ofBitVec (UnpackedFloat.pack Format.binary64
    (UnpackedFloat.unpack Format.binary64 bits.toBitVec)) = bits
  rw [hpack]

/-- The bits of a word are those of a number without a sign. -/
theorem toBits_ofWord {word : ℕ} (h : word < infinityWord) :
    (Float.ofBits (.ofNat word)).toBits.toNat = word := by
  unfold infinityWord at h
  have hword : (UInt64.ofNat word).toBitVec.toNat = word := by
    rw [UInt64.toNat_toBitVec, UInt64.toNat_ofNat']
    exact Nat.mod_eq_of_lt (by omega)
  rw [toBits_ofBits, ← UInt64.toNat_toBitVec, hword]
  rw [isFinite_unpack_iff, toNat_unpackExponent, hword]
  omega

/-- A minus sets the sign bit of a finite number that has none. -/
theorem toBits_neg {x : Float} (h : x.isFinite = true) (hpos : ¬ IsNegative x) :
    (-x).toBits.toNat = 2 ^ 63 + wordOf x := by
  have hpack := pack_resign (-signOf x.toBits.toBitVec) x.toBits.toBitVec h
  rw [resign_neg] at hpack
  have hbits : (-x).toBits.toNat =
      (signedBits x.toBits.toBitVec (-signOf x.toBits.toBitVec)).toNat :=
    congrArg BitVec.toNat hpack
  have hsign : (signOf x.toBits.toBitVec).toBitVec.toNat = 0 := by
    rw [toNat_signOf, UInt64.toNat_toBitVec]
    exact Nat.div_eq_of_lt (Nat.lt_of_not_le hpos)
  rw [hbits, toNat_signedBits, UInt64.toNat_toBitVec, wordOf]
  cases hs : signOf x.toBits.toBitVec with
  | negative =>
    rw [hs] at hsign
    cases hsign
  | positive => rfl

/-- A finite number without a sign is its word. -/
theorem ofBits_wordOf {x : Float} (h : x.isFinite = true) (hpos : ¬ IsNegative x) :
    Float.ofBits (.ofNat (wordOf x)) = x := by
  apply ext_toBits
  apply UInt64.toNat_inj.mp
  rw [toBits_ofWord ((isFinite_iff x).mp h), wordOf]
  exact Nat.mod_eq_of_lt (Nat.lt_of_not_le hpos)

/-- A finite number with a sign is its word with a minus. -/
theorem neg_ofBits_wordOf {x : Float} (h : x.isFinite = true) (hneg : IsNegative x) :
    -Float.ofBits (.ofNat (wordOf x)) = x := by
  have hlt := x.toBits.toNat_lt
  have hword : (Float.ofBits (.ofNat (wordOf x))).toBits.toNat = wordOf x :=
    toBits_ofWord ((isFinite_iff x).mp h)
  have hsmall : wordOf x < 2 ^ 63 := Nat.mod_lt _ (by decide)
  have hsame : wordOf (Float.ofBits (.ofNat (wordOf x))) = wordOf x := by
    rw [wordOf, hword]
    exact Nat.mod_eq_of_lt hsmall
  have hfinite : (Float.ofBits (.ofNat (wordOf x))).isFinite = true := by
    rw [isFinite_iff, hsame, ← isFinite_iff]
    exact h
  have hpos : ¬ IsNegative (Float.ofBits (.ofNat (wordOf x))) := by
    rw [IsNegative, hword]
    exact Nat.not_le_of_lt hsmall
  apply ext_toBits
  apply UInt64.toNat_inj.mp
  rw [toBits_neg hfinite hpos, hsame]
  unfold IsNegative at hneg
  unfold wordOf
  omega

end Lox.Number
