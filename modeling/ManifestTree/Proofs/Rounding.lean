import ManifestTree.Number.Binary64
import Mathlib.Algebra.Order.Field.Power
import Mathlib.Data.Int.Log
import Mathlib.Data.Rat.Floor
import Mathlib.Tactic.FieldSimp
import Mathlib.Tactic.Linarith
import Mathlib.Tactic.NormNum
import Mathlib.Tactic.Positivity
import Mathlib.Tactic.Ring

/-!
# Rounding by value

Rounding works on numerators and denominators, but the result depends only on the rational number
that they stand for.  A decimal therefore rounds by its value, however its digits and its exponent
share it, and a number so close to a magnitude that it moves it by less than half a part in
`10 ^ 16` rounds to that magnitude.
-/

namespace ManifestTree.Binary64

/-! ## Powers -/

/-- A power with a whole exponent as a fraction of natural numbers. -/
theorem zpow_eq_div (b : ℕ) (hb : 0 < b) (e : ℤ) :
    (b : ℚ) ^ e = (Nat.pow b e.toNat : ℕ) / (Nat.pow b (-e).toNat : ℕ) := by
  have hne : (b : ℚ) ≠ 0 := by positivity
  conv_lhs => rw [← Int.toNat_sub_toNat_neg e, zpow_sub₀ hne, zpow_natCast, zpow_natCast]
  simp only [Nat.pow_eq, Nat.cast_pow]

/-- A fraction with a power put on the side where it is a natural number. -/
theorem scaled_value (b : ℕ) (hb : 0 < b) (num den : ℕ) (e : ℤ) :
    ((num * Nat.pow b (-e).toNat : ℕ) : ℚ) / (den * Nat.pow b e.toNat : ℕ)
      = (num : ℚ) / den / (b : ℚ) ^ e := by
  have hpos : (0 : ℚ) < (Nat.pow b e.toNat : ℕ) := by
    rw [Nat.pow_eq]
    exact_mod_cast Nat.pow_pos hb
  have hneg : (0 : ℚ) < (Nat.pow b (-e).toNat : ℕ) := by
    rw [Nat.pow_eq]
    exact_mod_cast Nat.pow_pos hb
  rw [zpow_eq_div b hb, Nat.cast_mul, Nat.cast_mul]
  field_simp

/-- The power of `b` below a number is the one that brackets it. -/
theorem log_eq {b : ℕ} (hb : 1 < b) {q : ℚ} (hq : 0 < q) {k : ℤ} (hlow : (b : ℚ) ^ k ≤ q)
    (hhigh : q < (b : ℚ) ^ (k + 1)) : Int.log b q = k := by
  have h := (Int.zpow_le_iff_le_log hb hq).mp hlow
  have h' := (Int.lt_zpow_iff_log_lt hb hq).mp hhigh
  omega

/-! ## Rounding to whole numbers -/

theorem le_roundDiv {num den m : ℕ} (hden : 0 < den) (h : m * den ≤ num) :
    m ≤ roundDiv num den := by
  have hm : m ≤ num / den := (Nat.le_div_iff_mul_le hden).mpr h
  unfold roundDiv
  dsimp only
  split_ifs <;> omega

/-- A fraction less than half away from a whole number rounds to it. -/
theorem roundDiv_eq {num den m : ℕ} (hden : 0 < den)
    (hnear : |(num : ℚ) / den - m| < 1 / 2) : roundDiv num den = m := by
  have hd : (0 : ℚ) < den := by exact_mod_cast hden
  obtain ⟨hlow, hhigh⟩ := abs_lt.mp hnear
  have hvalue : (num : ℚ) / den * den = num := div_mul_cancel₀ _ hd.ne'
  have hlow' : (2 * m * den : ℚ) < 2 * num + den := by nlinarith
  have hhigh' : (2 * num : ℚ) < 2 * m * den + den := by nlinarith
  have hlow'' : 2 * m * den < 2 * num + den := by exact_mod_cast hlow'
  have hhigh'' : 2 * num < 2 * m * den + den := by exact_mod_cast hhigh'
  have hdiv := Nat.div_add_mod num den
  have hmod := Nat.mod_lt num hden
  unfold roundDiv
  dsimp only
  generalize num / den = q at *
  generalize num % den = r at *
  have hq : q ≤ m := by
    by_contra hlt
    nlinarith [Nat.mul_le_mul_left den (show m + 1 ≤ q by omega)]
  have hm : m ≤ q + 1 := by
    by_contra hlt
    nlinarith [Nat.mul_le_mul_left den (show q + 2 ≤ m by omega)]
  obtain rfl | rfl : q = m ∨ m = q + 1 := by omega
  · have hr : 2 * r < den := by nlinarith
    rw [if_pos hr]
  · have hr : den < 2 * r := by nlinarith
    rw [if_neg (by omega), if_pos hr]

theorem roundDiv_mul (k num den : ℕ) (hk : 0 < k) :
    roundDiv (k * num) (k * den) = roundDiv num den := by
  unfold roundDiv
  dsimp only
  rw [Nat.mul_div_mul_left _ _ hk, Nat.mul_mod_mul_left]
  have hless : 2 * (k * (num % den)) < k * den ↔ 2 * (num % den) < den := by
    rw [Nat.mul_left_comm]
    exact Nat.mul_lt_mul_left hk
  have hmore : k * den < 2 * (k * (num % den)) ↔ den < 2 * (num % den) := by
    rw [Nat.mul_left_comm 2]
    exact Nat.mul_lt_mul_left hk
  simp only [hless, hmore]

/-- Rounding to a whole number depends only on the value of the fraction. -/
theorem roundDiv_congr {num den num' den' : ℕ} (hd : 0 < den) (hd' : 0 < den')
    (h : (num : ℚ) / den = (num' : ℚ) / den') : roundDiv num den = roundDiv num' den' := by
  have hq : (den : ℚ) ≠ 0 := by positivity
  have hq' : (den' : ℚ) ≠ 0 := by positivity
  have hcross : den' * num = den * num' := by
    rw [div_eq_div_iff hq hq'] at h
    have hcast : num * den' = num' * den := by exact_mod_cast h
    rw [Nat.mul_comm, hcast, Nat.mul_comm]
  rw [← roundDiv_mul den' num den hd', hcross, Nat.mul_comm den', roundDiv_mul den _ _ hd]

/-! ## Rounding to magnitudes -/

section Values

variable {num den : ℕ} (hn : 0 < num) (hd : 0 < den)

include hn hd in
/-- The estimate of the power of two below a fraction is that power or the next. -/
theorem estimate_bounds :
    (2 : ℚ) ^ ((Nat.log2 num : ℤ) - Nat.log2 den - 1) ≤ (num : ℚ) / den ∧
      (num : ℚ) / den < (2 : ℚ) ^ ((Nat.log2 num : ℤ) - Nat.log2 den + 1) := by
  have hq : (0 : ℚ) < den := by exact_mod_cast hd
  have hnum : ((2 : ℚ) ^ Nat.log2 num) ≤ num := by exact_mod_cast Nat.log2_self_le hn.ne'
  have hnum' : (num : ℚ) < (2 : ℚ) ^ (Nat.log2 num + 1) := by exact_mod_cast Nat.lt_log2_self
  have hden : ((2 : ℚ) ^ Nat.log2 den) ≤ den := by exact_mod_cast Nat.log2_self_le hd.ne'
  have hden' : (den : ℚ) < (2 : ℚ) ^ (Nat.log2 den + 1) := by exact_mod_cast Nat.lt_log2_self
  constructor
  · rw [le_div_iff₀ hq]
    calc (2 : ℚ) ^ ((Nat.log2 num : ℤ) - Nat.log2 den - 1) * den
        ≤ (2 : ℚ) ^ ((Nat.log2 num : ℤ) - Nat.log2 den - 1) * (2 : ℚ) ^ (Nat.log2 den + 1) :=
          mul_le_mul_of_nonneg_left hden'.le (by positivity)
      _ = (2 : ℚ) ^ Nat.log2 num := by
          rw [← zpow_natCast, ← zpow_natCast, ← zpow_add₀ two_ne_zero]
          congr 1
          push_cast
          ring
      _ ≤ num := hnum
  · rw [div_lt_iff₀ hq]
    calc (num : ℚ) < (2 : ℚ) ^ (Nat.log2 num + 1) := hnum'
      _ = (2 : ℚ) ^ ((Nat.log2 num : ℤ) - Nat.log2 den + 1) * (2 : ℚ) ^ Nat.log2 den := by
          rw [← zpow_natCast, ← zpow_natCast, ← zpow_add₀ two_ne_zero]
          congr 1
          push_cast
          ring
      _ ≤ (2 : ℚ) ^ ((Nat.log2 num : ℤ) - Nat.log2 den + 1) * den :=
          mul_le_mul_of_nonneg_left hden (by positivity)

include hn hd in
/-- The spacing is fixed by the power of two below the fraction. -/
theorem spacingExponent_eq :
    spacingExponent num den = max (-1074) (Int.log 2 ((num : ℚ) / den) - 52) := by
  have hq : (0 : ℚ) < (num : ℚ) / den := by positivity
  obtain ⟨hlow, hhigh⟩ := estimate_bounds hn hd
  unfold spacingExponent
  dsimp only
  generalize (Nat.log2 num : ℤ) - Nat.log2 den = k at *
  have hreached : Nat.pow 2 k.toNat * den ≤ num * Nat.pow 2 (-k).toNat
      ↔ (2 : ℚ) ^ k ≤ (num : ℚ) / den := by
    have hscale := scaled_value 2 two_pos num den k
    have hpos : (0 : ℚ) < (den * Nat.pow 2 k.toNat : ℕ) := by
      rw [Nat.pow_eq]
      exact_mod_cast Nat.mul_pos hd (Nat.two_pow_pos _)
    have htwo : (0 : ℚ) < (2 : ℚ) ^ k := by positivity
    rw [← one_le_div₀ htwo, show ((2 : ℚ) ^ k) = ((2 : ℕ) : ℚ) ^ k by norm_num, ← hscale,
      one_le_div₀ hpos, Nat.mul_comm, Nat.cast_le]
  have hlog : Int.log 2 ((num : ℚ) / den)
      = if Nat.pow 2 k.toNat * den ≤ num * Nat.pow 2 (-k).toNat then k else k - 1 := by
    split_ifs with h
    · exact log_eq one_lt_two hq (by exact_mod_cast hreached.mp h) (by exact_mod_cast hhigh)
    · have hless : (num : ℚ) / den < (2 : ℚ) ^ k := not_le.mp (mt hreached.mpr h)
      refine log_eq one_lt_two hq (by exact_mod_cast hlow) ?_
      rw [sub_add_cancel]
      exact_mod_cast hless
  rw [hlog]
  simp only [decide_eq_true_eq]

include hn in
/-- A fraction rounds to a magnitude by the whole number nearest to it in units of the spacing. -/
theorem nearestIndex_eq :
    nearestIndex num den = (spacingExponent num den + 1074).toNat * runLength
      + roundDiv (num * Nat.pow 2 (-spacingExponent num den).toNat)
          (den * Nat.pow 2 (spacingExponent num den).toNat) := by
  unfold nearestIndex
  rw [if_neg hn.ne']

include hn hd in
/-- A fraction less than half a spacing away from a multiple of it rounds to that multiple. -/
theorem nearestIndex_of_spacing {e : ℤ} {m : ℕ}
    (he : max (-1074) (Int.log 2 ((num : ℚ) / den) - 52) = e)
    (hnear : |(num : ℚ) / den / 2 ^ e - m| < 1 / 2) :
    nearestIndex num den = (e + 1074).toNat * runLength + m := by
  rw [nearestIndex_eq hn, spacingExponent_eq hn hd, he]
  congr 1
  apply roundDiv_eq
  · exact Nat.mul_pos hd (Nat.pow_pos two_pos)
  · rw [scaled_value 2 two_pos]
    exact_mod_cast hnear

end Values

/-- Rounding to a magnitude depends only on the value of the fraction. -/
theorem nearestIndex_congr {num den num' den' : ℕ} (hd : 0 < den) (hd' : 0 < den')
    (h : (num : ℚ) / den = (num' : ℚ) / den') : nearestIndex num den = nearestIndex num' den' := by
  have hq : (0 : ℚ) < den := by exact_mod_cast hd
  have hq' : (0 : ℚ) < den' := by exact_mod_cast hd'
  by_cases hn : num = 0
  · have hn' : num' = 0 := by
      rw [hn, Nat.cast_zero, zero_div, eq_comm, div_eq_zero_iff] at h
      rcases h with h | h
      · exact_mod_cast h
      · exact absurd h hq'.ne'
    unfold nearestIndex
    rw [if_pos hn, if_pos hn']
  · have hn' : num' ≠ 0 := by
      rintro rfl
      rw [Nat.cast_zero, zero_div, div_eq_zero_iff] at h
      rcases h with h | h
      · exact hn (by exact_mod_cast h)
      · exact hq.ne' h
    have hspacing : spacingExponent num den = spacingExponent num' den' := by
      rw [spacingExponent_eq (by omega) hd, spacingExponent_eq (by omega) hd', h]
    rw [nearestIndex_eq (by omega), nearestIndex_eq (by omega), hspacing]
    congr 1
    apply roundDiv_congr
    · exact Nat.mul_pos hd (Nat.pow_pos two_pos)
    · exact Nat.mul_pos hd' (Nat.pow_pos two_pos)
    · rw [scaled_value 2 two_pos, scaled_value 2 two_pos, h]

/-! ## The values of magnitudes -/

def magnitude (index : ℕ) : ℚ :=
  ((mantissaExponent index).1 : ℚ) * 2 ^ (mantissaExponent index).2

theorem fraction_den_pos (index : ℕ) : 0 < (fraction index).2 := Nat.pow_pos two_pos

theorem fraction_value (index : ℕ) :
    ((fraction index).1 : ℚ) / (fraction index).2 = magnitude index := by
  unfold fraction magnitude
  dsimp only
  rw [show (2 : ℚ) ^ (mantissaExponent index).2 = ((2 : ℕ) : ℚ) ^ (mantissaExponent index).2 by
    norm_num, zpow_eq_div 2 two_pos, Nat.cast_mul, mul_div_assoc]

theorem fraction_num_pos {index : ℕ} (h : 0 < index) : 0 < (fraction index).1 := by
  have hrun : 0 < runLength := Nat.pow_pos two_pos
  unfold fraction mantissaExponent
  dsimp only
  apply Nat.mul_pos
  · split_ifs
    · exact h
    · exact Nat.add_pos_left hrun _
  · exact Nat.pow_pos two_pos

/-- How far a number may be from a magnitude, as a part of it, and still round to it. -/
def tolerance : ℚ := 1 / (2 * 10 ^ 16)

/-- The whole number that is nearest to a number in units of the spacing is the mantissa. -/
theorem near_mantissa {t : ℚ} {m : ℕ} (hm : m ≤ 2 ^ 53) (hnear : |t - m| ≤ m * tolerance) :
    |t - m| < 1 / 2 := by
  have hcast : (m : ℚ) ≤ 2 ^ 53 := by exact_mod_cast hm
  calc |t - m| ≤ m * tolerance := hnear
    _ ≤ 2 ^ 53 * tolerance := mul_le_mul_of_nonneg_right hcast (by norm_num [tolerance])
    _ < 1 / 2 := by norm_num [tolerance]

section Units

variable {num den : ℕ} {t : ℚ} {e : ℤ} (hn : 0 < num) (hd : 0 < den)
  (ht : (num : ℚ) / den = t * 2 ^ e)

include hn hd ht

theorem log_of_units {k : ℤ} (hlow : (2 : ℚ) ^ k ≤ t) (hhigh : t < (2 : ℚ) ^ (k + 1)) :
    Int.log 2 ((num : ℚ) / den) = k + e := by
  have htwo : (0 : ℚ) < 2 ^ e := by positivity
  apply log_eq one_lt_two (by positivity)
  · rw [ht, Nat.cast_ofNat, zpow_add₀ two_ne_zero]
    exact mul_le_mul_of_nonneg_right hlow htwo.le
  · rw [ht, Nat.cast_ofNat, add_right_comm, zpow_add₀ two_ne_zero]
    exact mul_lt_mul_of_pos_right hhigh htwo

/-- A number that is a mantissa of full length away from zero by its own spacing rounds to the
whole number of units next to it. -/
theorem nearestIndex_of_units {m : ℕ} (he : -1074 ≤ e) (hlow : 2 ^ 52 ≤ t) (hhigh : t < 2 ^ 53)
    (hnear : |t - m| < 1 / 2) :
    nearestIndex num den = (e + 1074).toNat * runLength + m := by
  have htwo : (0 : ℚ) < 2 ^ e := by positivity
  apply nearestIndex_of_spacing hn hd
  · rw [log_of_units hn hd ht (k := 52) (by exact_mod_cast hlow) (by exact_mod_cast hhigh)]
    omega
  · rwa [ht, mul_div_cancel_right₀ _ htwo.ne']

/-- The smallest numbers all have one spacing. -/
theorem nearestIndex_of_least_units {m : ℕ} (he : e = -1074) (hhigh : t < 2 ^ 53)
    (hnear : |t - m| < 1 / 2) : nearestIndex num den = m := by
  have htwo : (0 : ℚ) < 2 ^ e := by positivity
  have hq : (0 : ℚ) < (num : ℚ) / den := by positivity
  have hlog : Int.log 2 ((num : ℚ) / den) < 53 + e := by
    apply (Int.lt_zpow_iff_log_lt one_lt_two hq).mp
    rw [ht, Nat.cast_ofNat, zpow_add₀ two_ne_zero]
    exact mul_lt_mul_of_pos_right (by exact_mod_cast hhigh) htwo
  rw [nearestIndex_of_spacing hn hd (m := m) (e := e) (by omega)
    (by rwa [ht, mul_div_cancel_right₀ _ htwo.ne']), he]
  simp

end Units

theorem mantissaExponent_of_lt {index : ℕ} (h : index < runLength) :
    mantissaExponent index = (index, -1074) := if_pos h

theorem mantissaExponent_run (a r : ℕ) (hr : r < runLength) :
    mantissaExponent ((a + 1) * runLength + r) = (runLength + r, (a : ℤ) - 1074) := by
  have hrun : 0 < runLength := by omega
  have hle : ¬ (a + 1) * runLength + r < runLength := by
    rw [Nat.add_mul, Nat.one_mul]
    omega
  have hmod : ((a + 1) * runLength + r) % runLength = r := by
    rw [Nat.mul_add_mod_self_right, Nat.mod_eq_of_lt hr]
  have hdiv : ((a + 1) * runLength + r) / runLength = a + 1 := by
    rw [Nat.add_comm, Nat.add_mul_div_right _ _ hrun, Nat.div_eq_of_lt hr, Nat.zero_add]
  unfold mantissaExponent
  rw [if_neg hle, hmod, hdiv]
  congr 1
  push_cast
  ring

section Near

variable {num den : ℕ} {t : ℚ} (hn : 0 < num) (hd : 0 < den)

include hn hd

/-- Just below a power of two the spacing is half as large as above it. -/
theorem nearestIndex_below_run {a : ℕ} (ht : (num : ℚ) / den = t * 2 ^ ((a : ℤ) - 1074))
    (hclose : |t - (2 ^ 52 : ℕ)| ≤ (2 ^ 52 : ℕ) * tolerance) (hless : t < 2 ^ 52) :
    nearestIndex num den = (a + 1) * runLength := by
  have hrun : runLength = 2 ^ 52 := rfl
  have hhalf : |t - (2 ^ 52 : ℕ)| < 1 / 2 := near_mantissa (by norm_num) hclose
  have hlow := (abs_lt.mp hhalf).1
  push_cast at hlow
  cases a with
  | zero =>
    rw [nearestIndex_of_least_units hn hd ht (by simp) (by linarith) hhalf, hrun]
    rfl
  | succ b =>
    have hhalved : (num : ℚ) / den = 2 * t * 2 ^ ((b : ℤ) - 1074) := by
      have hexponent : ((b + 1 : ℕ) : ℤ) - 1074 = (b : ℤ) - 1074 + 1 := by
        push_cast
        ring
      rw [ht, hexponent, zpow_add_one₀ two_ne_zero]
      ring
    have hclose' : |2 * t - (2 ^ 53 : ℕ)| < 1 / 2 := by
      apply near_mantissa le_rfl
      have hsplit : 2 * t - (2 ^ 53 : ℕ) = 2 * (t - (2 ^ 52 : ℕ)) := by
        push_cast
        ring
      rw [hsplit, abs_mul, abs_of_pos (two_pos : (0 : ℚ) < 2)]
      push_cast at hclose ⊢
      linarith
    rw [nearestIndex_of_units hn hd hhalved (by omega) (by linarith) (by linarith) hclose', hrun]
    have hb : ((b : ℤ) - 1074 + 1074).toNat = b := by omega
    rw [hb]
    ring

/-- A number close to a magnitude of full length rounds to it. -/
theorem nearestIndex_near_run {a r : ℕ} (hr : r < runLength)
    (ht : (num : ℚ) / den = t * 2 ^ ((a : ℤ) - 1074))
    (hclose : |t - (runLength + r : ℕ)| ≤ (runLength + r : ℕ) * tolerance) :
    nearestIndex num den = (a + 1) * runLength + r := by
  have hrun : runLength = 2 ^ 52 := rfl
  have hhalf := near_mantissa (by omega) hclose
  obtain ⟨hlow, hhigh⟩ := abs_lt.mp hhalf
  have hbound : ((runLength + r : ℕ) : ℚ) + 1 ≤ 2 ^ 53 := by
    have hle : runLength + r + 1 ≤ 2 ^ 53 := by omega
    exact_mod_cast hle
  by_cases hfull : 2 ^ 52 ≤ t
  · rw [nearestIndex_of_units hn hd ht (by omega) hfull (by linarith) hhalf]
    have ha : ((a : ℤ) - 1074 + 1074).toNat = a := by omega
    rw [ha]
    ring
  · have hzero : r = 0 := by
      by_contra hr
      have hle : 2 ^ 52 + 1 ≤ runLength + r := by omega
      have hcast : (2 : ℚ) ^ 52 + 1 ≤ (runLength + r : ℕ) := by exact_mod_cast hle
      linarith
    subst hzero
    rw [Nat.add_zero] at hclose ⊢
    rw [hrun] at hclose
    exact nearestIndex_below_run hn hd ht hclose (not_le.mp hfull)

/-- A number close to a magnitude rounds to it. -/
theorem nearestIndex_of_near {index : ℕ}
    (hnear : |(num : ℚ) / den - magnitude index| ≤ magnitude index * tolerance) :
    nearestIndex num den = index := by
  have hrun : 0 < runLength := Nat.pow_pos two_pos
  obtain ⟨m, e, hmag⟩ : ∃ m e, mantissaExponent index = (m, e) := ⟨_, _, rfl⟩
  have htwo : (0 : ℚ) < (2 : ℚ) ^ e := by positivity
  have hvalue : magnitude index = m * 2 ^ e := by
    unfold magnitude
    rw [hmag]
  -- The number in units of the spacing of the magnitude.
  obtain ⟨t, ht⟩ : ∃ t : ℚ, (num : ℚ) / den = t * 2 ^ e := ⟨_, (div_mul_cancel₀ _ htwo.ne').symm⟩
  have hclose : |t - m| ≤ m * tolerance := by
    rw [ht, hvalue, ← sub_mul, abs_mul, abs_of_pos htwo, mul_right_comm] at hnear
    exact le_of_mul_le_mul_right hnear htwo
  by_cases hsmall : index < runLength
  · rw [mantissaExponent_of_lt hsmall] at hmag
    cases hmag
    have hle : index ≤ 2 ^ 52 := hsmall.le
    have hhalf := near_mantissa (by omega) hclose
    have hcast : (index : ℚ) ≤ 2 ^ 52 := by exact_mod_cast hle
    have hhigh := (abs_lt.mp hhalf).2
    exact nearestIndex_of_least_units hn hd ht rfl (by linarith) hhalf
  · obtain ⟨a, r, hr, rfl⟩ : ∃ a r, r < runLength ∧ index = (a + 1) * runLength + r := by
      have hone : 1 ≤ index / runLength := (Nat.one_le_div_iff hrun).mpr (by omega)
      refine ⟨index / runLength - 1, index % runLength, Nat.mod_lt _ hrun, ?_⟩
      rw [Nat.sub_add_cancel hone, Nat.mul_comm, Nat.div_add_mod]
    rw [mantissaExponent_run a r hr] at hmag
    cases hmag
    exact nearestIndex_near_run hn hd hr ht hclose

end Near

/-! ## Decimals -/

/-- A number beyond the largest magnitude and its spacing rounds to none. -/
theorem indexLimit_le_nearestIndex {num den : ℕ} (hn : 0 < num) (hd : 0 < den)
    (hlog : 1024 ≤ Int.log 2 ((num : ℚ) / den)) : indexLimit ≤ nearestIndex num den := by
  have hq : (0 : ℚ) < (num : ℚ) / den := by positivity
  have hspacing := spacingExponent_eq hn hd
  rw [max_eq_right (by omega)] at hspacing
  have hround : runLength ≤ roundDiv (num * Nat.pow 2 (-spacingExponent num den).toNat)
      (den * Nat.pow 2 (spacingExponent num den).toNat) := by
    have hpos : 0 < den * Nat.pow 2 (spacingExponent num den).toNat :=
      Nat.mul_pos hd (Nat.pow_pos two_pos)
    apply le_roundDiv hpos
    have hscale := scaled_value 2 two_pos num den (spacingExponent num den)
    have hcast : ((runLength : ℕ) : ℚ)
        ≤ (num * Nat.pow 2 (-spacingExponent num den).toNat : ℕ)
          / (den * Nat.pow 2 (spacingExponent num den).toNat : ℕ) := by
      have hbelow := Int.zpow_log_le_self (b := 2) (R := ℚ) one_lt_two hq
      rw [hscale, le_div_iff₀ (by positivity), hspacing]
      have hrun : ((runLength : ℕ) : ℚ) = ((2 : ℕ) : ℚ) ^ (52 : ℤ) := by norm_num [runLength]
      rw [hrun, ← zpow_add₀ (by norm_num)]
      rwa [show (52 : ℤ) + (Int.log 2 ((num : ℚ) / den) - 52) = Int.log 2 ((num : ℚ) / den) by ring]
    rw [le_div_iff₀ (by exact_mod_cast hpos)] at hcast
    exact_mod_cast hcast
  rw [nearestIndex_eq hn]
  have hruns : 2046 ≤ (spacingExponent num den + 1074).toNat := by omega
  have hlimit : indexLimit = 2046 * runLength + runLength := by
    unfold indexLimit
    ring
  rw [hlimit]
  exact Nat.add_le_add (Nat.mul_le_mul_right _ hruns) hround

/-- A number below half the least spacing rounds to zero. -/
theorem nearestIndex_eq_zero {num den : ℕ} (hn : 0 < num) (hd : 0 < den)
    (hlog : Int.log 2 ((num : ℚ) / den) < -1075) : nearestIndex num den = 0 := by
  have hq : (0 : ℚ) < (num : ℚ) / den := by positivity
  have hless : (num : ℚ) / den < ((2 : ℕ) : ℚ) ^ (-1074 - 1 : ℤ) :=
    (Int.lt_zpow_iff_log_lt one_lt_two hq).mpr (by omega)
  have hnear : |(num : ℚ) / den / 2 ^ (-1074 : ℤ) - (0 : ℕ)| < 1 / 2 := by
    rw [Nat.cast_zero, sub_zero, abs_of_pos (by positivity), div_lt_iff₀ (by positivity)]
    rw [Nat.cast_ofNat, zpow_sub_one₀ two_ne_zero] at hless
    linarith
  rw [nearestIndex_of_spacing hn hd (by omega) hnear]
  rfl

theorem decimal_value (digits : ℕ) (exponent : ℤ) :
    ((digits * Nat.pow 10 exponent.toNat : ℕ) : ℚ) / (Nat.pow 10 (-exponent).toNat : ℕ)
      = digits * (10 : ℚ) ^ exponent := by
  have h := zpow_eq_div 10 (by norm_num) exponent
  rw [Nat.cast_ofNat] at h
  rw [h, Nat.cast_mul, mul_div_assoc]

theorem two_zpow_le_ten_zpow {k : ℤ} (hk : 0 ≤ k) : (2 : ℚ) ^ (3 * k) ≤ 10 ^ k := by
  rw [zpow_mul, show (2 : ℚ) ^ (3 : ℤ) = 8 by norm_num]
  exact zpow_le_zpow_left₀ hk (by norm_num) (by norm_num)

/-- A number has at most three bits for each digit that is counted for it. -/
theorem lt_ten_pow_of_log2 (n : ℕ) : (n : ℚ) < 10 ^ (Nat.log2 n / 3 + 1) := by
  have hbits : n < 2 ^ (3 * (Nat.log2 n / 3 + 1)) := by
    refine Nat.lt_of_lt_of_le Nat.lt_log2_self (Nat.pow_le_pow_right two_pos ?_)
    omega
  have hle : 2 ^ (3 * (Nat.log2 n / 3 + 1)) ≤ 10 ^ (Nat.log2 n / 3 + 1) := by
    rw [Nat.pow_mul]
    exact Nat.pow_le_pow_left (by norm_num) _
  exact_mod_cast hbits.trans_le hle

section Decimal

variable {digits : ℕ} {exponent : ℤ} (hdigits : 0 < digits)

include hdigits

theorem log_decimal_lt (h : exponent + Nat.log2 digits / 3 + 1 < -400) :
    Int.log 2 ((digits : ℚ) * 10 ^ exponent) < -1075 := by
  have hpos : (0 : ℚ) < digits * 10 ^ exponent := by positivity
  apply (Int.lt_zpow_iff_log_lt one_lt_two hpos).mp
  obtain ⟨k, hk⟩ : ∃ k : ℕ, k = Nat.log2 digits / 3 + 1 := ⟨_, rfl⟩
  have hinverse := two_zpow_le_ten_zpow (show 0 ≤ -(exponent + k) by omega)
  calc (digits : ℚ) * 10 ^ exponent < 10 ^ k * 10 ^ exponent := by
        rw [hk]
        exact mul_lt_mul_of_pos_right (lt_ten_pow_of_log2 digits) (by positivity)
    _ = ((10 : ℚ) ^ (-(exponent + k)))⁻¹ := by
        rw [← zpow_natCast, ← zpow_add₀ (by norm_num), zpow_neg, inv_inv, add_comm]
    _ ≤ ((2 : ℚ) ^ (3 * -(exponent + k)))⁻¹ := inv_anti₀ (by positivity) hinverse
    _ ≤ ((2 : ℕ) : ℚ) ^ (-1075 : ℤ) := by
        rw [← zpow_neg]
        exact zpow_le_zpow_right₀ (by norm_num) (by omega)

theorem le_log_decimal (h : 400 < exponent) :
    1024 ≤ Int.log 2 ((digits : ℚ) * 10 ^ exponent) := by
  have hpos : (0 : ℚ) < digits * 10 ^ exponent := by positivity
  have hone : (1 : ℚ) ≤ digits := by exact_mod_cast hdigits
  apply (Int.zpow_le_iff_le_log one_lt_two hpos).mp
  calc ((2 : ℕ) : ℚ) ^ (1024 : ℤ) ≤ (2 : ℚ) ^ (3 * exponent) :=
        zpow_le_zpow_right₀ (by norm_num) (by omega)
    _ ≤ 10 ^ exponent := two_zpow_le_ten_zpow (by omega)
    _ ≤ digits * 10 ^ exponent := le_mul_of_one_le_left (by positivity) hone

/-- The exponents that need no arithmetic are those of numbers that are too small or too large. -/
theorem ofDecimal_eq (negative : Bool) :
    ofDecimal negative digits exponent = ofFraction negative
      (digits * Nat.pow 10 exponent.toNat) (Nat.pow 10 (-exponent).toNat) := by
  have hn : 0 < digits * Nat.pow 10 exponent.toNat :=
    Nat.mul_pos hdigits (Nat.pow_pos (by norm_num))
  have hd : 0 < Nat.pow 10 (-exponent).toNat := Nat.pow_pos (by norm_num)
  have hvalue := decimal_value digits exponent
  unfold ofDecimal
  rw [if_neg hdigits.ne']
  dsimp only
  split_ifs with hsmall hlarge
  · have hzero := nearestIndex_eq_zero hn hd (by rw [hvalue]; exact log_decimal_lt hdigits hsmall)
    have hlimit : ¬ indexLimit ≤ 0 := by
      rw [Nat.not_le]
      exact Nat.mul_pos (by norm_num) (Nat.pow_pos two_pos)
    unfold ofFraction
    rw [hzero]
    exact (if_neg hlimit).symm
  · have hinf := indexLimit_le_nearestIndex hn hd
      (by rw [hvalue]; exact le_log_decimal hdigits hlarge)
    unfold ofFraction
    exact (if_pos hinf).symm
  · rfl

end Decimal

/-- Decimals of one value are one number. -/
theorem ofDecimal_congr (negative : Bool) {digits digits' : ℕ} {exponent exponent' : ℤ}
    (h : (digits : ℚ) * 10 ^ exponent = digits' * 10 ^ exponent') :
    ofDecimal negative digits exponent = ofDecimal negative digits' exponent' := by
  have hten : (10 : ℚ) ^ exponent ≠ 0 := by positivity
  have hten' : (10 : ℚ) ^ exponent' ≠ 0 := by positivity
  have hzero : digits = 0 ↔ digits' = 0 := by
    constructor
    · rintro rfl
      rw [Nat.cast_zero, zero_mul, eq_comm, mul_eq_zero] at h
      exact_mod_cast h.resolve_right hten'
    · rintro rfl
      rw [Nat.cast_zero, zero_mul, mul_eq_zero] at h
      exact_mod_cast h.resolve_right hten
  by_cases hdigits : digits = 0
  · unfold ofDecimal
    rw [if_pos hdigits, if_pos (hzero.mp hdigits)]
  · have hdigits' : digits' ≠ 0 := mt hzero.mpr hdigits
    rw [ofDecimal_eq (by omega), ofDecimal_eq (by omega)]
    have hd : 0 < Nat.pow 10 (-exponent).toNat := Nat.pow_pos (by norm_num)
    have hd' : 0 < Nat.pow 10 (-exponent').toNat := Nat.pow_pos (by norm_num)
    have hindex : nearestIndex (digits * Nat.pow 10 exponent.toNat) (Nat.pow 10 (-exponent).toNat)
        = nearestIndex (digits' * Nat.pow 10 exponent'.toNat) (Nat.pow 10 (-exponent').toNat) := by
      apply nearestIndex_congr hd hd'
      rw [decimal_value, decimal_value, h]
    unfold ofFraction
    rw [hindex]

/-! ## Numbers -/

/-- The double is a number: a magnitude of the format with a sign, or an infinite one. -/
def IsNumber : Binary64 → Prop
  | .finite _ index => index < indexLimit
  | .infinite _ => True
  | .nan => False

/-- The double is one that the format has. -/
def IsDouble : Binary64 → Prop
  | .finite _ index => index < indexLimit
  | _ => True

theorem isNumber_iff {r : Binary64} : r.IsNumber ↔ r.IsDouble ∧ r ≠ .nan := by
  cases r <;> simp [IsNumber, IsDouble]

theorem ofFraction_isNumber (negative : Bool) (num den : ℕ) :
    (ofFraction negative num den).IsNumber := by
  unfold ofFraction
  dsimp only
  split_ifs with h
  · trivial
  · exact not_le.mp h

theorem ofDecimal_isNumber (negative : Bool) (digits : ℕ) (exponent : ℤ) :
    (ofDecimal negative digits exponent).IsNumber := by
  by_cases hdigits : digits = 0
  · unfold ofDecimal
    rw [if_pos hdigits]
    exact Nat.mul_pos (by norm_num) (Nat.pow_pos two_pos)
  · rw [ofDecimal_eq (by omega)]
    exact ofFraction_isNumber _ _ _

end ManifestTree.Binary64
