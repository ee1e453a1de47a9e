import Lox.Number.Text
import Mathlib.Algebra.Order.Field.Power
import Mathlib.Data.Rat.Cast.Order
import Mathlib.Data.Nat.Digits.Defs
import Mathlib.Tactic

/-!
# Literals are read to the nearest number

The finite binary64 magnitudes and, past the largest one, the start of the next
binade make a ladder of rationals, one for each word up to infinity. A word is
nearest to a rational if no other rung is nearer and, of two that are equally
near, it is the even one. `Fraction.nearestWord` finds it, and so a number
literal denotes the nearest number to the decimal that it spells.

## Implementation notes

The words of two neighbouring binades agree where these meet, so that a
significand that rounds up to `2 ^ 53` needs no case of its own: `rung_add` gives
the value of a binade count and a significand that are added up.
-/

namespace Lox.Number

/-- The number that a word up to infinity stands for, infinity standing for the
start of the binade that it takes the place of. -/
def rung (word : ℕ) : ℚ :=
  (Magnitude.ofWord word).significand * 2 ^ (Magnitude.ofWord word).exponent

/-- No rung of the ladder is nearer to a rational than the one of this word, and
it is the even one of two that are equally near. -/
structure Nearest (q : ℚ) (word : ℕ) : Prop where
  le_infinity : word ≤ infinityWord
  near (other : ℕ) (h : other ≤ infinityWord) : |q - rung word| ≤ |q - rung other|
  even (other : ℕ) (h : other ≤ infinityWord) (hne : other ≠ word)
    (tie : |q - rung word| = |q - rung other|) : word % 2 = 0

/-! ## The ladder -/

theorem rung_of_lt {word : ℕ} (h : word < 2 ^ 52) : rung word = word * 2 ^ leastExponent := by
  have hb : word / Nat.pow 2 52 = 0 := Nat.div_eq_of_lt h
  have hm : word % Nat.pow 2 52 = word := Nat.mod_eq_of_lt h
  simp only [rung, Magnitude.ofWord, hb, hm, if_true]

theorem rung_of_le {word : ℕ} (h : 2 ^ 52 ≤ word) :
    rung word = (word % 2 ^ 52 + 2 ^ 52 : ℕ) * 2 ^ (leastExponent + (word / 2 ^ 52 : ℕ) - 1) := by
  have hb : ¬ word / Nat.pow 2 52 = 0 := by
    have : 1 ≤ word / 2 ^ 52 := (Nat.one_le_div_iff (by positivity)).mpr h
    exact Nat.ne_of_gt this
  simp only [rung, Magnitude.ofWord, hb, if_false]
  rfl

/-- A binade count and a significand may be added up to a word, also when the
significand overflows into the next binade. -/
theorem rung_add {binade significand : ℕ} (hlow : 2 ^ 52 ≤ significand ∨ binade = 0)
    (hhigh : significand ≤ 2 ^ 53) :
    rung (binade * 2 ^ 52 + significand) = significand * 2 ^ (leastExponent + binade) := by
  by_cases hsub : significand < 2 ^ 52
  · obtain rfl : binade = 0 := by omega
    simpa using rung_of_lt hsub
  · have hword : 2 ^ 52 ≤ binade * 2 ^ 52 + significand := by omega
    rw [rung_of_le hword]
    by_cases hfull : significand = 2 ^ 53
    · have hm : (binade * 2 ^ 52 + significand) % 2 ^ 52 = 0 := by omega
      have hd : (binade * 2 ^ 52 + significand) / 2 ^ 52 = binade + 2 := by omega
      have he : leastExponent + ((binade + 2 : ℕ) : ℤ) - 1 = leastExponent + binade + 1 := by
        push_cast
        ring
      rw [hm, hd, he, zpow_add_one₀ two_ne_zero, hfull]
      push_cast
      ring
    · have hm : (binade * 2 ^ 52 + significand) % 2 ^ 52 + 2 ^ 52 = significand := by omega
      have hd : (binade * 2 ^ 52 + significand) / 2 ^ 52 = binade + 1 := by omega
      have he : leastExponent + ((binade + 1 : ℕ) : ℤ) - 1 = leastExponent + binade := by
        push_cast
        ring
      rw [hm, hd, he]

/-- Every word is a binade count and a significand. -/
theorem exists_binade (word : ℕ) : ∃ binade significand,
    word = binade * 2 ^ 52 + significand ∧ (2 ^ 52 ≤ significand ∨ binade = 0) ∧
      significand < 2 ^ 53 := by
  by_cases h : word < 2 ^ 52
  · exact ⟨0, word, by simp, .inr rfl, by omega⟩
  · exact ⟨word / 2 ^ 52 - 1, word % 2 ^ 52 + 2 ^ 52, by omega, .inl (by omega), by omega⟩

/-- The next rung is one last place higher. -/
theorem rung_succ {binade significand : ℕ} (hlow : 2 ^ 52 ≤ significand ∨ binade = 0)
    (hhigh : significand < 2 ^ 53) :
    rung (binade * 2 ^ 52 + significand + 1) =
      rung (binade * 2 ^ 52 + significand) + 2 ^ (leastExponent + binade) := by
  have hsucc := @rung_add binade (significand + 1) (hlow.imp_left (by omega)) (by omega)
  rw [Nat.add_assoc, hsucc, rung_add hlow hhigh.le]
  push_cast
  ring

theorem rung_lt_succ (word : ℕ) : rung word < rung (word + 1) := by
  obtain ⟨binade, significand, rfl, hlow, hhigh⟩ := exists_binade word
  rw [rung_succ hlow hhigh]
  exact lt_add_of_pos_right _ (by positivity)

theorem rung_strictMono : StrictMono rung :=
  strictMono_nat_of_lt_succ rung_lt_succ

/-- Two nearest words are the same: they would be neighbours at equal distance,
one of them odd. -/
theorem Nearest.unique {q : ℚ} {word other : ℕ} (h : Nearest q word) (h' : Nearest q other) :
    word = other := by
  by_contra hne
  have tie : |q - rung word| = |q - rung other| :=
    le_antisymm (h.near other h'.le_infinity) (h'.near word h.le_infinity)
  have heven : word % 2 = 0 := h.even other h'.le_infinity (Ne.symm hne) tie
  have heven' : other % 2 = 0 := h'.even word h.le_infinity hne tie.symm
  wlog hlt : word < other generalizing word other
  · exact this h' h (Ne.symm hne) tie.symm heven' heven (by omega)
  -- the word in between is nearer than both
  have hlow : rung word < rung (word + 1) := rung_strictMono (Nat.lt_succ_self word)
  have hhigh : rung (word + 1) < rung other := rung_strictMono (by omega)
  have hmid := h.near (word + 1) (by have := h'.le_infinity; omega)
  have hsides : q - rung word = -(q - rung other) := by
    rcases abs_eq_abs.mp tie with heq | heq
    · linarith
    · exact heq
  have hpos : 0 < q - rung word := by linarith
  rw [abs_of_pos hpos] at hmid
  rcases le_abs.mp hmid with hle | hle <;> linarith

/-! ## Rounding -/

namespace Fraction

/-- The fraction as a rational. -/
def toRat (f : Fraction) : ℚ :=
  f.num / f.den

theorem toRat_scale (f : Fraction) (base : ℕ) (hb : base ≠ 0) (power : ℤ) :
    (f.scale base power).toRat = f.toRat * base ^ power := by
  have hbase : (base : ℚ) ≠ 0 := by exact_mod_cast hb
  have hsplit : (base : ℚ) ^ power = base ^ power.toNat / base ^ (-power).toNat := by
    rw [← zpow_natCast, ← zpow_natCast, ← zpow_sub₀ hbase]
    congr 1
    omega
  simp only [toRat, scale, Nat.pow_eq, hsplit]
  push_cast
  rw [mul_div_mul_comm]

theorem scale_den_pos {f : Fraction} (h : 0 < f.den) {base : ℕ} (hb : 0 < base) (power : ℤ) :
    0 < (f.scale base power).den :=
  Nat.mul_pos h (Nat.pow_pos hb)

/-- The nearest whole number is at most a half away, and even if it is exactly a
half away. -/
theorem nearestEven_spec (f : Fraction) (h : 0 < f.den) :
    |f.toRat - f.nearestEven| ≤ 1 / 2 ∧
      (|f.toRat - f.nearestEven| = 1 / 2 → f.nearestEven % 2 = 0) := by
  have hden : (0 : ℚ) < f.den := by exact_mod_cast h
  have hdiv : f.toRat = (f.num / f.den : ℕ) + (f.num % f.den : ℕ) / (f.den : ℚ) := by
    have hnum : (f.den : ℚ) * (f.num / f.den : ℕ) + (f.num % f.den : ℕ) = f.num := by
      exact_mod_cast Nat.div_add_mod f.num f.den
    rw [toRat, ← hnum]
    field_simp
  have hrem : ((f.num % f.den : ℕ) : ℚ) / f.den < 1 := by
    rw [div_lt_one hden]
    exact_mod_cast Nat.mod_lt _ h
  have hrem0 : (0 : ℚ) ≤ (f.num % f.den : ℕ) / (f.den : ℚ) := by positivity
  unfold nearestEven
  simp only
  split
  · -- nearer to the whole number below
    rename_i hlt
    have hhalf : ((f.num % f.den : ℕ) : ℚ) / f.den < 1 / 2 := by
      rw [div_lt_div_iff₀ hden two_pos]
      exact_mod_cast (by omega : f.num % f.den * 2 < 1 * f.den)
    rw [hdiv, add_sub_cancel_left, abs_of_nonneg hrem0]
    exact ⟨hhalf.le, fun heq => absurd heq hhalf.ne⟩
  · split
    · -- nearer to the whole number above
      rename_i hgt
      have hhalf : 1 / 2 < ((f.num % f.den : ℕ) : ℚ) / f.den := by
        rw [div_lt_div_iff₀ two_pos hden]
        exact_mod_cast (by omega : 1 * f.den < f.num % f.den * 2)
      have hdist : f.toRat - ((f.num / f.den + 1 : ℕ) : ℚ) < 0 := by
        rw [hdiv]
        push_cast
        linarith
      rw [abs_of_neg hdist, hdiv]
      push_cast
      constructor
      · linarith
      · intro heq
        linarith
    · -- halfway between the two
      have hhalf : ((f.num % f.den : ℕ) : ℚ) / f.den = 1 / 2 := by
        rw [div_eq_div_iff hden.ne' two_ne_zero]
        exact_mod_cast (by omega : f.num % f.den * 2 = 1 * f.den)
      rw [hdiv, hhalf]
      constructor
      · rcases Nat.mod_two_eq_zero_or_one (f.num / f.den) with hpar | hpar <;> rw [hpar] <;>
          push_cast <;> norm_num
      · intro _
        omega

/-- A positive fraction is at least the power of two of its logarithm and less
than the next one. -/
theorem log2_spec (f : Fraction) (hn : f.num ≠ 0) (hd : 0 < f.den) :
    (2 : ℚ) ^ f.log2 ≤ f.toRat ∧ f.toRat < 2 ^ (f.log2 + 1) := by
  have hden : (0 : ℚ) < f.den := by exact_mod_cast hd
  have hnum_low : (2 : ℚ) ^ f.num.log2 ≤ f.num := by exact_mod_cast Nat.log2_self_le hn
  have hnum_high : (f.num : ℚ) < 2 ^ (f.num.log2 + 1) := by exact_mod_cast Nat.lt_log2_self
  have hden_low : (2 : ℚ) ^ f.den.log2 ≤ f.den := by exact_mod_cast Nat.log2_self_le hd.ne'
  have hden_high : (f.den : ℚ) < 2 ^ (f.den.log2 + 1) := by exact_mod_cast Nat.lt_log2_self
  -- the difference of the lengths is right, or one too much
  have hlow : (2 : ℚ) ^ ((f.num.log2 : ℤ) - f.den.log2 - 1) ≤ f.toRat := by
    rw [toRat, le_div_iff₀ hden]
    calc (2 : ℚ) ^ ((f.num.log2 : ℤ) - f.den.log2 - 1) * f.den
        ≤ 2 ^ ((f.num.log2 : ℤ) - f.den.log2 - 1) * 2 ^ (f.den.log2 + 1) := by gcongr
      _ = 2 ^ f.num.log2 := by
          rw [← zpow_natCast, ← zpow_natCast, ← zpow_add₀ two_ne_zero]
          congr 1
          push_cast
          ring
      _ ≤ f.num := hnum_low
  have hhigh : f.toRat < 2 ^ ((f.num.log2 : ℤ) - f.den.log2 + 1) := by
    rw [toRat, div_lt_iff₀ hden]
    calc (f.num : ℚ) < 2 ^ (f.num.log2 + 1) := hnum_high
      _ = 2 ^ ((f.num.log2 : ℤ) - f.den.log2 + 1) * 2 ^ f.den.log2 := by
          rw [← zpow_natCast, ← zpow_natCast, ← zpow_add₀ two_ne_zero]
          congr 1
          push_cast
          ring
      _ ≤ 2 ^ ((f.num.log2 : ℤ) - f.den.log2 + 1) * f.den := by gcongr
  have hscaled : (f.scale 2 (-((f.num.log2 : ℤ) - f.den.log2))).num <
      (f.scale 2 (-((f.num.log2 : ℤ) - f.den.log2))).den ↔
      f.toRat < 2 ^ ((f.num.log2 : ℤ) - f.den.log2) := by
    have hpos := scale_den_pos hd two_pos (-((f.num.log2 : ℤ) - f.den.log2))
    have hrat := toRat_scale f 2 two_ne_zero (-((f.num.log2 : ℤ) - f.den.log2))
    rw [zpow_neg, ← div_eq_mul_inv] at hrat
    rw [← Nat.cast_lt (α := ℚ), ← div_lt_one (by exact_mod_cast hpos)]
    change Fraction.toRat _ < 1 ↔ _
    rw [hrat, div_lt_one (by positivity)]
    norm_num
  unfold log2
  simp only [hscaled]
  split
  · rename_i hlt
    rw [sub_add_cancel]
    exact ⟨hlow, hlt⟩
  · rename_i hge
    exact ⟨not_lt.mp hge, hhigh⟩

/-- Where a positive fraction lies on the scale of its last place. -/
theorem lastPlace_spec (f : Fraction) (hn : f.num ≠ 0) (hd : 0 < f.den) :
    f.toRat * 2 ^ (-f.lastPlace) < 2 ^ 53 ∧
      (leastExponent < f.lastPlace → 2 ^ 52 ≤ f.toRat * 2 ^ (-f.lastPlace)) := by
  obtain ⟨hlow, hhigh⟩ := f.log2_spec hn hd
  constructor
  · calc f.toRat * 2 ^ (-f.lastPlace) < 2 ^ (f.log2 + 1) * 2 ^ (-f.lastPlace) := by gcongr
      _ = 2 ^ (f.log2 + 1 - f.lastPlace) := by
          rw [← zpow_add₀ two_ne_zero, ← sub_eq_add_neg]
      _ ≤ 2 ^ (53 : ℤ) := zpow_le_zpow_right₀ one_le_two (by unfold lastPlace; omega)
      _ = 2 ^ 53 := by norm_num
  · intro habove
    have hplace : f.log2 - f.lastPlace = 52 := by unfold lastPlace at habove ⊢; omega
    calc (2 : ℚ) ^ 52 = 2 ^ (f.log2 - f.lastPlace) := by rw [hplace]; norm_num
      _ = 2 ^ f.log2 * 2 ^ (-f.lastPlace) := by
          rw [← zpow_add₀ two_ne_zero, ← sub_eq_add_neg]
      _ ≤ f.toRat * 2 ^ (-f.lastPlace) := by gcongr

/-- Rounding to the last place beats every other rung, or ties with it and is
even. -/
theorem rounded_beats {q : ℚ} {binade significand : ℕ}
    (hlow : 2 ^ 52 ≤ q * 2 ^ (-(leastExponent + binade)) ∨ binade = 0)
    (hlow' : 2 ^ 52 ≤ significand ∨ binade = 0) (hhigh : significand ≤ 2 ^ 53)
    (hnear : |q * 2 ^ (-(leastExponent + binade)) - significand| ≤ 1 / 2)
    (heven : |q * 2 ^ (-(leastExponent + binade)) - significand| = 1 / 2 → significand % 2 = 0)
    {other : ℕ} (hne : other ≠ binade * 2 ^ 52 + significand) :
    |q - rung (binade * 2 ^ 52 + significand)| < |q - rung other| ∨
      |q - rung (binade * 2 ^ 52 + significand)| = |q - rung other| ∧ significand % 2 = 0 := by
  have hrung := rung_add hlow' hhigh
  generalize hword : binade * 2 ^ 52 + significand = word at *
  generalize hunit : (2 : ℚ) ^ (leastExponent + (binade : ℤ)) = unit at *
  have hpos : 0 < unit := by rw [← hunit]; positivity
  rw [zpow_neg, hunit] at hlow hnear heven
  have hdist : |q - rung word| = |q * unit⁻¹ - significand| * unit := by
    rw [hrung, ← abs_of_pos hpos, ← abs_mul, abs_of_pos hpos, sub_mul,
      inv_mul_cancel_right₀ hpos.ne']
  -- a rung that is a whole place away is no nearer, and only a half away ties
  have hfar (hplace : |q - rung word| + |q - rung other| ≥ unit) :
      |q - rung word| < |q - rung other| ∨
        |q - rung word| = |q - rung other| ∧ significand % 2 = 0 := by
    rcases hnear.lt_or_eq with hlt | heq
    · left
      nlinarith
    · rw [heq] at hdist
      rcases lt_or_eq_of_le (show |q - rung word| ≤ |q - rung other| by linarith) with hlt' | heq'
      · exact .inl hlt'
      · exact .inr ⟨heq', heven heq⟩
  rcases lt_or_gt_of_ne hne with hbelow | habove
  · by_cases hbottom : significand = 2 ^ 52 ∧ binade ≠ 0
    · -- the places below the first rung of a binade are narrower, but `q` is above it
      obtain ⟨hfirst, hbin⟩ := hbottom
      have hq : rung word ≤ q := by
        have hscaled := hlow.resolve_right hbin
        rw [hrung, hfirst]
        have hcast : ((2 ^ 52 : ℕ) : ℚ) ≤ q * unit⁻¹ := by
          norm_num at hscaled ⊢
          exact hscaled
        calc ((2 ^ 52 : ℕ) : ℚ) * unit ≤ q * unit⁻¹ * unit := by gcongr
          _ = q := inv_mul_cancel_right₀ hpos.ne' q
      have hother : rung other < rung word := rung_strictMono hbelow
      left
      rw [abs_of_nonneg (by linarith), abs_of_pos (by linarith)]
      linarith
    · have hprev : rung (word - 1) = rung word - unit := by
        have hsucc := @rung_succ binade (significand - 1) (by omega) (by omega)
        have hpred : binade * 2 ^ 52 + (significand - 1) = word - 1 := by omega
        rw [hpred, hunit, Nat.sub_add_cancel (by omega)] at hsucc
        linarith
      have hother : rung other ≤ rung (word - 1) := rung_strictMono.monotone (by omega)
      apply hfar
      calc unit ≤ rung word - rung other := by linarith
        _ = (q - rung other) - (q - rung word) := by ring
        _ ≤ |q - rung other| + |q - rung word| := by
            linarith [le_abs_self (q - rung other), neg_abs_le (q - rung word)]
        _ = |q - rung word| + |q - rung other| := add_comm _ _
  · have hnext : rung word + unit ≤ rung (word + 1) := by
      rcases hhigh.lt_or_eq with hlt | heq
      · rw [← hword, rung_succ hlow' hlt, hunit]
      · have hsucc := @rung_succ (binade + 1) (2 ^ 52) (.inl le_rfl) (by norm_num)
        have hcarry : (binade + 1) * 2 ^ 52 + 2 ^ 52 = word := by
          rw [← hword, heq]
          ring
        have hdouble : (2 : ℚ) ^ (leastExponent + ((binade + 1 : ℕ) : ℤ)) = unit * 2 := by
          rw [← hunit, ← zpow_add_one₀ two_ne_zero]
          congr 1
          push_cast
          ring
        rw [hcarry, hdouble] at hsucc
        linarith
    have hother : rung (word + 1) ≤ rung other := rung_strictMono.monotone habove
    apply hfar
    calc unit ≤ rung other - rung word := by linarith
      _ = (q - rung word) - (q - rung other) := by ring
      _ ≤ |q - rung word| + |q - rung other| := by
          linarith [le_abs_self (q - rung word), neg_abs_le (q - rung other)]

/-- The word that a fraction is rounded to is the nearest one. -/
theorem nearest_nearestWord (f : Fraction) (hd : 0 < f.den) : Nearest f.toRat f.nearestWord := by
  by_cases hn : f.num = 0
  · have hzero : f.toRat - rung 0 = 0 := by
      simp [toRat, hn, @rung_of_lt 0 (by norm_num)]
    rw [nearestWord, if_pos hn]
    constructor
    · exact Nat.zero_le _
    · intro other _
      rw [hzero, abs_zero]
      exact abs_nonneg _
    · intro _ _ _ _
      rfl
  · obtain ⟨hhigh, hlow⟩ := f.lastPlace_spec hn hd
    obtain ⟨hnear, heven⟩ := (f.scale 2 (-f.lastPlace)).nearestEven_spec
      (scale_den_pos hd two_pos _)
    rw [toRat_scale f 2 two_ne_zero] at hnear heven
    push_cast at hnear heven
    set binade : ℕ := (f.lastPlace - leastExponent).toNat with hbin
    set significand : ℕ := (f.scale 2 (-f.lastPlace)).nearestEven
    have hplace : f.lastPlace = leastExponent + binade := by
      rw [hbin]
      unfold lastPlace
      omega
    have hscaled : 2 ^ 52 ≤ f.toRat * 2 ^ (-f.lastPlace) ∨ binade = 0 := by
      by_cases hzero : binade = 0
      · exact .inr hzero
      · exact .inl (hlow (by omega))
    have hsig_low : 2 ^ 52 ≤ significand ∨ binade = 0 := by
      refine hscaled.imp_left fun hle => ?_
      have hgt : (2 : ℚ) ^ 52 - 1 < significand := by linarith [(abs_le.mp hnear).2]
      have hgt' : (2 ^ 52 : ℚ) < ((significand + 1 : ℕ) : ℚ) := by push_cast; linarith
      have hnat : 2 ^ 52 < significand + 1 := by exact_mod_cast hgt'
      omega
    have hsig_high : significand ≤ 2 ^ 53 := by
      have hlt : (significand : ℚ) < ((2 ^ 53 + 1 : ℕ) : ℚ) := by
        push_cast
        linarith [(abs_le.mp hnear).1]
      have hnat : significand < 2 ^ 53 + 1 := by exact_mod_cast hlt
      omega
    rw [hplace] at hscaled hnear heven
    have hbeats {other : ℕ} (hne : other ≠ binade * 2 ^ 52 + significand) :=
      rounded_beats hscaled hsig_low hsig_high hnear heven hne
    have hword : f.nearestWord = min (binade * 2 ^ 52 + significand) infinityWord := by
      rw [nearestWord, if_neg hn]
      rfl
    rw [hword]
    rcases le_or_gt (binade * 2 ^ 52 + significand) infinityWord with hfin | hinf
    · rw [Nat.min_eq_left hfin]
      constructor
      · exact hfin
      · intro other _
        by_cases hne : other = binade * 2 ^ 52 + significand
        · rw [hne]
        · rcases hbeats hne with hlt | heq
          · exact hlt.le
          · exact heq.1.le
      · intro other _ hne tie
        rcases hbeats hne with hlt | heq
        · exact absurd tie hlt.ne
        · omega
    · -- past infinity everything is nearer to infinity than to any finite word
      rw [Nat.min_eq_right hinf.le]
      have hover : rung infinityWord < rung (binade * 2 ^ 52 + significand) :=
        rung_strictMono hinf
      have hq : rung infinityWord < f.toRat := by
        have hle : |f.toRat - rung (binade * 2 ^ 52 + significand)| ≤
            |f.toRat - rung infinityWord| := by
          rcases hbeats hinf.ne with hlt | heq
          · exact hlt.le
          · exact heq.1.le
        by_contra hcon
        rw [abs_of_nonpos (by linarith), abs_of_nonpos (by linarith)] at hle
        linarith
      constructor
      · exact le_rfl
      · intro other hother
        have hmono : rung other ≤ rung infinityWord := rung_strictMono.monotone hother
        rw [abs_of_pos (by linarith), abs_of_pos (by linarith)]
        linarith
      · intro _ _ _ _
        rfl

end Fraction

/-! ## Literals -/

/-- The value of a run of decimal digits. -/
def digitsValue (ds : List Char) : ℕ :=
  Nat.ofDigits 10 (ds.reverse.map digitValue)

/-- The rational that digits before and after a decimal point spell. -/
def decimalValue (whole fraction : List Char) : ℚ :=
  digitsValue (whole ++ fraction) / 10 ^ fraction.length

/-- A floating-point number is the nonnegative one nearest to a rational. -/
def Rounds (q : ℚ) (x : Float) : Prop :=
  ∃ word, Nearest q word ∧ x = Float.ofBits (UInt64.ofNat word)

theorem Rounds.unique {q : ℚ} {x y : Float} (hx : Rounds q x) (hy : Rounds q y) : x = y := by
  obtain ⟨word, hword, rfl⟩ := hx
  obtain ⟨other, hother, rfl⟩ := hy
  rw [hword.unique hother]

theorem ofDigits_eq (ds : List Char) : ofDigits ds = digitsValue ds := by
  induction ds using List.reverseRecOn with
  | nil => rfl
  | append_singleton ds d ih =>
    have hfold : ofDigits (ds ++ [d]) = 10 * ofDigits ds + digitValue d := by
      simp [ofDigits]
    rw [hfold, ih, digitsValue, digitsValue]
    simp [Nat.ofDigits_cons]
    omega

/-- A literal denotes the number nearest to the decimal that it spells. -/
theorem rounds_ofLiteral (whole fraction : List Char) :
    Rounds (decimalValue whole fraction) (ofLiteral whole fraction) := by
  have hden : 0 < Nat.pow 10 fraction.length := Nat.pow_pos (by norm_num)
  have hnear := Fraction.nearest_nearestWord
    ⟨ofDigits (whole ++ fraction), Nat.pow 10 fraction.length⟩ hden
  refine ⟨_, ?_, rfl⟩
  convert hnear using 1
  rw [decimalValue, Fraction.toRat, ofDigits_eq]
  push_cast [Nat.pow_eq]
  rfl

end Lox.Number
