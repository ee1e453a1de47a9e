import Lox.Proofs.Number.Nearest

/-!
# The shortest decimal is read back

Whatever lies between the points halfway to the neighbours of a word is rounded to it.
`Magnitude.interval` is this range, and on the last of the grids that are searched its
points are nearer to each other than its ends, so that one of them lies in it.

## Implementation notes

Seventeen digits suffice since `2 ^ 53 < 10 ^ 16`. Below a power of two the neighbour
is half as far away, but there the significand is `2 ^ 52`, the least one, and the grid
is finer by as much.
-/

namespace Lox.Number

/-! ## Between the neighbours of a word -/

section

variable {q : ℚ} {word : ℕ}

/-- What lies between the points halfway to the neighbours of a word is rounded to it. -/
theorem nearest_of_between (hfinite : word < infinityWord)
    (hlow : (rung (word - 1) + rung word) / 2 ≤ q) (hhigh : q ≤ (rung word + rung (word + 1)) / 2)
    (heven : (rung (word - 1) + rung word) / 2 = q ∨ q = (rung word + rung (word + 1)) / 2 →
      word % 2 = 0) : Nearest q word := by
  have hbelow {other : ℕ} (hlt : other < word) :
      |q - rung word| ≤ |q - rung other| ∧ (|q - rung word| = |q - rung other| → word % 2 = 0) := by
    have hother : rung other ≤ rung (word - 1) := rung_strictMono.monotone (by omega)
    have hstrict : rung other < rung word := rung_strictMono hlt
    rw [abs_of_pos (show 0 < q - rung other by linarith)]
    constructor
    · exact abs_le.mpr ⟨by linarith, by linarith⟩
    · intro tie
      rcases (abs_eq (by linarith)).mp tie with heq | heq
      · linarith
      · exact heven (.inl (by linarith))
  have habove {other : ℕ} (hlt : word < other) :
      |q - rung word| ≤ |q - rung other| ∧ (|q - rung word| = |q - rung other| → word % 2 = 0) := by
    have hother : rung (word + 1) ≤ rung other := rung_strictMono.monotone hlt
    have hstrict : rung word < rung other := rung_strictMono hlt
    rw [abs_of_neg (show q - rung other < 0 by linarith)]
    constructor
    · exact abs_le.mpr ⟨by linarith, by linarith⟩
    · intro tie
      rcases (abs_eq (by linarith)).mp tie with heq | heq
      · exact heven (.inr (by linarith))
      · linarith
  constructor
  · exact hfinite.le
  · intro other _
    rcases lt_trichotomy other word with hlt | rfl | hlt
    · exact (hbelow hlt).1
    · exact le_rfl
    · exact (habove hlt).1
  · intro other _ hne tie
    rcases lt_or_gt_of_ne hne with hlt | hlt
    · exact (hbelow hlt).2 tie
    · exact (habove hlt).2 tie

/-- A number is rounded to itself. -/
theorem nearest_rung (h : word ≤ infinityWord) : Nearest (rung word) word := by
  constructor
  · exact h
  · intro other _
    rw [sub_self, abs_zero]
    exact abs_nonneg _
  · intro other _ hne tie
    rw [sub_self, abs_zero, eq_comm, abs_eq_zero, sub_eq_zero] at tie
    exact absurd (rung_strictMono.injective tie) hne.symm

end

/-! ## Intervals -/

namespace Interval

variable {i : Interval} {q : ℚ} {n : ℕ} {tie : TieRule}

/-- Whether a rational lies in an interval. -/
def Contains (i : Interval) (q : ℚ) : Prop :=
  if i.closed = true then (i.low : ℚ) / i.den ≤ q ∧ q ≤ i.high / i.den
  else (i.low : ℚ) / i.den < q ∧ q < i.high / i.den

theorem contains_of_holds (hden : 0 < i.den) (h : i.holds n = true) : i.Contains n := by
  have hden' : (0 : ℚ) < i.den := by exact_mod_cast hden
  unfold holds at h
  unfold Contains
  split at h
  · rename_i hclosed
    obtain ⟨hlow, hhigh⟩ := decide_eq_true_iff.mp h
    rw [if_pos hclosed, div_le_iff₀ hden', le_div_iff₀ hden']
    exact ⟨by exact_mod_cast hlow, by exact_mod_cast hhigh⟩
  · rename_i hopen
    obtain ⟨hlow, hhigh⟩ := decide_eq_true_iff.mp h
    rw [if_neg hopen, div_lt_iff₀ hden', lt_div_iff₀ hden']
    exact ⟨by exact_mod_cast hlow, by exact_mod_cast hhigh⟩

/-- A whole number that is not in an interval lies on one side of what is inside. -/
theorem outside_of_not_holds (h : i.holds n = false) :
    n * i.den ≤ i.low ∨ i.high ≤ n * i.den := by
  unfold holds at h
  split at h
  · have := decide_eq_false_iff_not.mp h
    omega
  · have := decide_eq_false_iff_not.mp h
    omega

/-- An end of an interval that is measured in units of a power of ten. -/
theorem div_inUnits (i : Interval) (bound : ℕ) (place : ℤ) :
    ((bound * Nat.pow 10 (-place).toNat : ℕ) : ℚ) / (i.inUnits place).den =
      bound / i.den * (10 ^ place)⁻¹ := by
  have hrat := Fraction.toRat_scale ⟨bound, i.den⟩ 10 (by norm_num) (-place)
  rwa [Fraction.toRat, Fraction.scale, neg_neg, zpow_neg] at hrat

/-- Measuring in units of a power of ten moves an interval. -/
theorem contains_inUnits (place : ℤ) :
    (i.inUnits place).Contains q ↔ i.Contains (q * 10 ^ place) := by
  have hpos : (0 : ℚ) < 10 ^ place := by positivity
  have hends (bound : ℕ) := i.div_inUnits bound place
  unfold inUnits at hends
  unfold Contains inUnits
  simp only [hends, mul_inv_le_iff₀ hpos, le_mul_inv_iff₀ hpos, mul_inv_lt_iff₀ hpos,
    lt_mul_inv_iff₀ hpos]

/-- A point that is chosen lies in the interval. -/
theorem holds_of_nearest? (h : i.nearest? tie = some n) : i.holds n = true := by
  unfold nearest? at h
  simp only at h
  split at h
  · cases h
  · cases h
    assumption
  · cases h
    assumption
  · split at h
    · cases h
      assumption
    · split at h
      · cases h
        assumption
      · split at h
        · cases h
          assumption
        · split at h <;> cases h <;> assumption

/-- If no point is chosen, then the interval is no wider than a unit. -/
theorem high_le_of_nearest?_none (hden : 0 < i.den) (hlow : i.low < i.middle)
    (hhigh : i.middle < i.high) (h : i.nearest? tie = none) : i.high ≤ i.low + i.den := by
  have hbelow : i.middle / i.den * i.den ≤ i.middle := Nat.div_mul_le_self _ _
  have habove : i.middle < (i.middle / i.den + 1) * i.den := by
    rw [Nat.mul_comm]
    exact Nat.lt_mul_div_succ i.middle hden
  unfold nearest? at h
  simp only at h
  split at h
  · rename_i hnot hnot'
    have hdist : (i.middle / i.den + 1) * i.den = i.middle / i.den * i.den + i.den := by ring
    rcases outside_of_not_holds hnot with hout | hout
    · rcases outside_of_not_holds hnot' with hout' | hout'
      · omega
      · omega
    · omega
  · cases h
  · cases h
  · split at h
    · cases h
    · split at h
      · cases h
      · split at h <;> cases h

/-- A point is chosen on every grid that is finer than the interval is wide. -/
theorem exists_nearest? (hden : 0 < i.den) (hlow : i.low < i.middle) (hhigh : i.middle < i.high)
    {place : ℤ} (hfine : (10 : ℚ) ^ place < (i.high - i.low) / i.den) :
    ∃ n, (i.inUnits place).nearest? tie = some n := by
  have hden' : 0 < (i.inUnits place).den := Nat.mul_pos hden (Nat.pow_pos (by norm_num))
  have hup : 0 < Nat.pow 10 (-place).toNat := Nat.pow_pos (by norm_num)
  rw [← Option.ne_none_iff_exists']
  intro hnone
  have hwidth := high_le_of_nearest?_none hden' (Nat.mul_lt_mul_of_pos_right hlow hup)
    (Nat.mul_lt_mul_of_pos_right hhigh hup) hnone
  have hwidth' : ((i.high * Nat.pow 10 (-place).toNat : ℕ) : ℚ) / (i.inUnits place).den ≤
      (i.low * Nat.pow 10 (-place).toNat : ℕ) / (i.inUnits place).den + 1 := by
    rw [div_add_one (by exact_mod_cast hden'.ne')]
    gcongr
    exact_mod_cast hwidth
  rw [div_inUnits, div_inUnits, ← sub_le_iff_le_add', ← sub_mul, ← sub_div,
    mul_inv_le_iff₀ (by positivity), one_mul] at hwidth'
  exact absurd hfine (not_lt.mpr hwidth')

/-- Searching from a place on finds a decimal in the interval if the last grid that is
searched is fine enough. -/
theorem contains_search (hden : 0 < i.den) (hlow : i.low < i.middle) (hhigh : i.middle < i.high)
    (grids : ℕ) (place : ℤ) (hfine : (10 : ℚ) ^ (place - grids) < (i.high - i.low) / i.den) :
    i.Contains ((i.search tie (grids + 1) place).coefficient *
      10 ^ (i.search tie (grids + 1) place).exponent) := by
  have hfound {place : ℤ} {n : ℕ} (h : (i.inUnits place).nearest? tie = some n) :
      i.Contains (n * 10 ^ place) := by
    have hden' : 0 < (i.inUnits place).den := Nat.mul_pos hden (Nat.pow_pos (by norm_num))
    exact (contains_inUnits place).mp (contains_of_holds hden' (holds_of_nearest? h))
  induction grids generalizing place with
  | zero =>
    obtain ⟨n, hn⟩ : ∃ n, (i.inUnits place).nearest? tie = some n :=
      exists_nearest? hden hlow hhigh (by simpa using hfine)
    rw [search, hn]
    exact hfound hn
  | succ grids ih =>
    cases hn : (i.inUnits place).nearest? tie with
    | some n =>
      rw [search, hn]
      exact hfound hn
    | none =>
      have hplace : place - 1 - (grids : ℤ) = place - ((grids + 1 : ℕ) : ℤ) := by
        push_cast
        ring
      rw [search, hn]
      exact ih (place - 1) (hplace ▸ hfine)

end Interval

/-! ## Powers of ten -/

namespace Fraction

/-- Enough multiplications by ten lead to one at least. -/
theorem placesBelowOne_spec (f : Fraction) {bound : ℕ} (h : f.den ≤ f.num * 10 ^ bound) :
    f.den ≤ f.num * 10 ^ f.placesBelowOne bound := by
  induction bound generalizing f with
  | zero => exact h
  | succ bound ih =>
    rw [placesBelowOne]
    split
    · have hnext := ih ⟨f.num * 10, f.den⟩ (by rwa [Nat.mul_assoc, ← Nat.pow_succ'])
      rwa [Nat.mul_assoc, ← Nat.pow_succ'] at hnext
    · rw [Nat.pow_zero, Nat.mul_one]
      omega

/-- The power of ten of the logarithm of a positive fraction is not above it. -/
theorem log10_spec (f : Fraction) (hn : 0 < f.num) (hd : 0 < f.den) :
    (10 : ℚ) ^ f.log10 ≤ f.toRat := by
  have hden : (0 : ℚ) < f.den := by exact_mod_cast hd
  rw [toRat, le_div_iff₀ hden]
  unfold log10
  split
  · have henough : f.den ≤ f.num * 10 ^ (f.den.log2 + 1) := by
      calc f.den ≤ 2 ^ (f.den.log2 + 1) := Nat.lt_log2_self.le
        _ ≤ 10 ^ (f.den.log2 + 1) := Nat.pow_le_pow_left (by norm_num) _
        _ ≤ f.num * 10 ^ (f.den.log2 + 1) := Nat.le_mul_of_pos_left _ hn
    rw [zpow_neg, zpow_natCast, inv_mul_le_iff₀ (by positivity), mul_comm]
    exact_mod_cast f.placesBelowOne_spec henough
  · rename_i hone
    have hpos : 0 < f.floor := Nat.div_pos (Nat.le_of_not_lt hone) hd
    have hpower : 10 ^ ((Nat.toDigits 10 f.floor).length - 1) ≤ f.floor := by
      by_cases hlength : (Nat.toDigits 10 f.floor).length - 1 = 0
      · rw [hlength]
        exact hpos
      · rw [← not_lt, ← Nat.length_toDigits_le_iff (by norm_num) (by omega)]
        omega
    have hlength : ((Nat.toDigits 10 f.floor).length : ℤ) - 1 =
        ((Nat.toDigits 10 f.floor).length - 1 : ℕ) := by
      have := @Nat.length_toDigits_pos 10 f.floor
      omega
    rw [hlength, zpow_natCast]
    calc (10 : ℚ) ^ ((Nat.toDigits 10 f.floor).length - 1) * f.den ≤ f.floor * f.den := by
          gcongr
          exact_mod_cast hpower
      _ ≤ f.num := by exact_mod_cast Nat.div_mul_le_self f.num f.den

end Fraction

/-! ## Magnitudes -/

namespace Magnitude

/-- The magnitude of a binade count and a significand that are added up. -/
theorem ofWord_add {binade significand : ℕ} (hlow : 2 ^ 52 ≤ significand ∨ binade = 0)
    (hhigh : significand < 2 ^ 53) :
    ofWord (binade * 2 ^ 52 + significand) = ⟨significand, leastExponent + binade⟩ := by
  unfold ofWord
  simp only [Nat.pow_eq]
  by_cases hsub : significand < 2 ^ 52
  · obtain rfl : binade = 0 := by omega
    rw [if_pos (by omega), mk.injEq]
    exact ⟨by omega, by simp⟩
  · rw [if_neg (by omega), mk.injEq]
    constructor
    · omega
    · have hbinade : (binade * 2 ^ 52 + significand) / 2 ^ 52 = binade + 1 := by omega
      rw [hbinade]
      push_cast
      ring

theorem toRat_fraction_ofWord (word : ℕ) : (ofWord word).fraction.toRat = rung word := by
  rw [fraction, Fraction.toRat_scale _ _ two_ne_zero, rung, Fraction.toRat, Nat.cast_one, div_one]
  rfl

/-- How many quarters of the last place the interval of a magnitude goes down. -/
def quartersDown (m : Magnitude) : ℕ :=
  if m.significand = 2 ^ 52 ∧ leastExponent < m.exponent then 1 else 2

variable (m : Magnitude)

theorem quarters_div (n : ℕ) :
    ((Fraction.scale ⟨n, 1⟩ 2 (m.exponent - 2)).num : ℚ) / m.interval.den =
      n * 2 ^ (m.exponent - 2) := by
  have hrat := Fraction.toRat_scale ⟨n, 1⟩ 2 two_ne_zero (m.exponent - 2)
  rwa [Fraction.toRat, Fraction.toRat, Nat.cast_one, div_one] at hrat

theorem interval_den_pos : 0 < m.interval.den :=
  Fraction.scale_den_pos Nat.one_pos two_pos _

theorem interval_low : (m.interval.low : ℚ) / m.interval.den =
    (4 * m.significand - m.quartersDown : ℕ) * 2 ^ (m.exponent - 2) :=
  m.quarters_div _

theorem interval_high : (m.interval.high : ℚ) / m.interval.den =
    (4 * m.significand + 2 : ℕ) * 2 ^ (m.exponent - 2) :=
  m.quarters_div _

theorem interval_low_lt (h : 0 < m.significand) : m.interval.low < m.interval.middle := by
  have hdown : 0 < m.quartersDown := by
    unfold quartersDown
    split <;> norm_num
  change (4 * m.significand - m.quartersDown) * _ < 4 * m.significand * _
  apply Nat.mul_lt_mul_of_pos_right
  · omega
  · exact Nat.pow_pos (by norm_num)

theorem interval_lt_high : m.interval.middle < m.interval.high := by
  change 4 * m.significand * _ < (4 * m.significand + 2) * _
  apply Nat.mul_lt_mul_of_pos_right
  · omega
  · exact Nat.pow_pos (by norm_num)

theorem quartersDown_le : m.quartersDown ≤ 2 := by
  unfold quartersDown
  split <;> norm_num

section

variable {binade significand : ℕ} (hlow : 2 ^ 52 ≤ significand ∨ binade = 0)
  (hhigh : significand < 2 ^ 53)
include hlow hhigh

/-- The number of a word in quarters of its last place. -/
theorem rung_quarters : rung (binade * 2 ^ 52 + significand) =
    4 * significand * 2 ^ (leastExponent + binade - 2) := by
  have hplace : (2 : ℚ) ^ (leastExponent + (binade : ℤ)) =
      2 ^ (leastExponent + (binade : ℤ) - 2) * 4 := by
    rw [zpow_sub₀ two_ne_zero]
    norm_num
  rw [rung_add hlow hhigh.le, hplace]
  ring

/-- The number of the next word in quarters of the last place. -/
theorem rung_succ_quarters : rung (binade * 2 ^ 52 + significand + 1) =
    (4 * significand + 4) * 2 ^ (leastExponent + binade - 2) := by
  have hplace : (2 : ℚ) ^ (leastExponent + (binade : ℤ)) =
      2 ^ (leastExponent + (binade : ℤ) - 2) * 4 := by
    rw [zpow_sub₀ two_ne_zero]
    norm_num
  rw [rung_succ hlow hhigh, rung_quarters hlow hhigh, hplace]
  ring

/-- The number of the word before in quarters of the last place. -/
theorem rung_pred_quarters (hpos : 0 < significand) :
    rung (binade * 2 ^ 52 + significand - 1) =
      (4 * significand - 2 * (quartersDown ⟨significand, leastExponent + binade⟩ : ℕ)) *
        2 ^ (leastExponent + binade - 2) := by
  unfold quartersDown
  split
  · -- the word before is the last one of the binade below
    rename_i hbottom
    obtain ⟨rfl, hbinade⟩ := hbottom
    obtain ⟨below, rfl⟩ : ∃ below, binade = below + 1 :=
      Nat.exists_eq_add_one.mpr (by simpa using hbinade)
    have hword : (below + 1) * 2 ^ 52 + 2 ^ 52 - 1 = below * 2 ^ 52 + (2 ^ 53 - 1) := by omega
    have hplace : (2 : ℚ) ^ (leastExponent + ((below + 1 : ℕ) : ℤ) - 2) =
        2 ^ (leastExponent + (below : ℤ) - 2) * 2 := by
      rw [← zpow_add_one₀ two_ne_zero]
      congr 1
      push_cast
      ring
    rw [hword, rung_quarters (.inl (by norm_num)) (by norm_num), hplace]
    push_cast
    ring
  · rename_i hinside
    have hinside' : 2 ^ 52 ≤ significand - 1 ∨ binade = 0 := by
      simp only [lt_add_iff_pos_right, Nat.cast_pos] at hinside
      omega
    have hword : binade * 2 ^ 52 + significand - 1 = binade * 2 ^ 52 + (significand - 1) := by omega
    rw [hword, rung_quarters hinside' (by omega), Nat.cast_sub hpos]
    push_cast
    ring

end

section

variable {word : ℕ} (hpos : 0 < word)
include hpos

/-- The ends of the interval are halfway to the neighbours. -/
theorem interval_ends :
    ((ofWord word).interval.low : ℚ) / (ofWord word).interval.den =
        (rung (word - 1) + rung word) / 2 ∧
      ((ofWord word).interval.high : ℚ) / (ofWord word).interval.den =
        (rung word + rung (word + 1)) / 2 := by
  obtain ⟨binade, significand, rfl, hlow, hhigh⟩ := exists_binade word
  have hsignificand : 0 < significand := by omega
  rw [ofWord_add hlow hhigh, interval_low, interval_high, rung_succ_quarters hlow hhigh,
    rung_pred_quarters hlow hhigh hsignificand, rung_quarters hlow hhigh]
  have hdown : quartersDown ⟨significand, leastExponent + binade⟩ ≤ 4 * significand :=
    (quartersDown_le _).trans (by omega)
  constructor
  · rw [Nat.cast_sub hdown]
    push_cast
    ring
  · push_cast
    ring

/-- What lies in the interval of a word is rounded to it. -/
theorem nearest_of_contains {q : ℚ} (hfinite : word < infinityWord)
    (h : (ofWord word).interval.Contains q) : Nearest q word := by
  obtain ⟨hends, hends'⟩ := interval_ends hpos
  have hparity : word % 2 = (ofWord word).significand % 2 := by
    obtain ⟨binade, significand, rfl, hlow, hhigh⟩ := exists_binade word
    rw [ofWord_add hlow hhigh]
    change _ = significand % 2
    omega
  unfold Interval.Contains at h
  rw [hends, hends'] at h
  split at h
  · rename_i hclosed
    have heven : (ofWord word).significand % 2 = 0 := decide_eq_true_iff.mp hclosed
    exact nearest_of_between hfinite h.1 h.2 fun _ => hparity.trans heven
  · apply nearest_of_between hfinite h.1.le h.2.le
    rintro (heq | heq)
    · exact absurd heq h.1.ne
    · exact absurd heq h.2.ne

/-- The last grid that is searched is finer than the interval is wide. -/
theorem interval_wide : (10 : ℚ) ^ ((ofWord word).fraction.log10 + 1 - (17 : ℕ)) <
    ((ofWord word).interval.high - (ofWord word).interval.low) / (ofWord word).interval.den := by
  have hpositive : 0 < rung word := by
    have hzero : rung 0 = 0 := by simp [rung_of_lt]
    rw [← hzero]
    exact rung_strictMono hpos
  have hlog : (10 : ℚ) ^ (ofWord word).fraction.log10 ≤ rung word := by
    have hden : 0 < (ofWord word).fraction.den := Fraction.scale_den_pos Nat.one_pos two_pos _
    have hnum : 0 < (ofWord word).fraction.num := by
      rw [Nat.pos_iff_ne_zero]
      intro hzero
      rw [← toRat_fraction_ofWord, Fraction.toRat, hzero] at hpositive
      simp at hpositive
    rw [← toRat_fraction_ofWord]
    exact Fraction.log10_spec _ hnum hden
  have hplace : (10 : ℚ) ^ ((ofWord word).fraction.log10 + 1 - (17 : ℕ)) =
      10 ^ (ofWord word).fraction.log10 / 10 ^ 16 := by
    rw [add_sub_assoc, zpow_add₀ (by norm_num), div_eq_mul_inv]
    norm_num
  obtain ⟨hends, hends'⟩ := interval_ends hpos
  rw [hplace, sub_div, hends, hends', div_lt_iff₀ (by norm_num)]
  apply hlog.trans_lt
  obtain ⟨binade, significand, rfl, hlow, hhigh⟩ := exists_binade word
  have hdigits : 4 * significand <
      (2 + quartersDown ⟨significand, leastExponent + binade⟩) * 10 ^ 16 := by
    unfold quartersDown
    split
    · rename_i hbottom
      have hfirst : significand = 2 ^ 52 := hbottom.1
      omega
    · omega
  have hdigits' : (4 * significand : ℚ) <
      (2 + (quartersDown ⟨significand, leastExponent + binade⟩ : ℕ)) * 10 ^ 16 := by
    exact_mod_cast hdigits
  have hunit : (0 : ℚ) < 2 ^ (leastExponent + (binade : ℤ) - 2) := by positivity
  rw [rung_succ_quarters hlow hhigh, rung_pred_quarters hlow hhigh (by omega),
    rung_quarters hlow hhigh]
  nlinarith

/-- The shortest decimal of a positive number is rounded to it. -/
theorem nearest_shortest (hfinite : word < infinityWord) (tie : TieRule) :
    Nearest (((ofWord word).shortest tie).coefficient *
      10 ^ ((ofWord word).shortest tie).exponent) word := by
  have hsignificand : 0 < (ofWord word).significand := by
    obtain ⟨binade, significand, rfl, hlow, hhigh⟩ := exists_binade word
    rw [ofWord_add hlow hhigh]
    change 0 < significand
    omega
  apply nearest_of_contains hpos hfinite
  exact Interval.contains_search (ofWord word).interval_den_pos
    ((ofWord word).interval_low_lt hsignificand) (ofWord word).interval_lt_high 17 _
    (interval_wide hpos)

end

end Magnitude

end Lox.Number
