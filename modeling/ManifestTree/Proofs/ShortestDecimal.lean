import ManifestTree.Number.Shortest
import ManifestTree.Proofs.Rounding

/-!
# Shortest decimals read back

Of the grids that are tried for a magnitude the last has seventeen digits.  It is so fine that the
multiple nearest to the magnitude rounds to it, so the search always ends with a decimal that reads
back as the magnitude.  Leaving out the zeros at the end of a decimal keeps its value.
-/

namespace ManifestTree.Decimal

open Binary64 (magnitude tolerance indexLimit)

def value (d : Decimal) : ℚ := d.digits * 10 ^ d.exponent

/-! ## Powers of ten -/

theorem lt_pow_digitCount (n : ℕ) : n < 10 ^ digitCount n :=
  (Nat.length_toDigits_le_iff (by norm_num) Nat.length_toDigits_pos).mp le_rfl

theorem pow_digitCount_le {n : ℕ} (hn : 0 < n) : 10 ^ (digitCount n - 1) ≤ n := by
  by_cases hone : digitCount n = 1
  · rw [hone]
    exact hn
  · by_contra hlt
    have hpos : 0 < digitCount n := Nat.length_toDigits_pos
    have hle : digitCount n ≤ digitCount n - 1 :=
      (Nat.length_toDigits_le_iff (by norm_num) (by omega)).mpr (not_le.mp hlt)
    omega

/-- The inverse of a fraction below one, rounded up, less one. -/
theorem inverse_bounds {num den : ℕ} (hn : 0 < num) (hless : num < den) :
    let inverse := (den + num - 1) / num - 1
    0 < inverse ∧ num * inverse < den ∧ den ≤ num * (inverse + 1) := by
  have hinverse : (den + num - 1) / num - 1 = (den - 1) / num := by
    rw [show den + num - 1 = den - 1 + num by omega, Nat.add_div_right _ hn]
    rfl
  dsimp only
  rw [hinverse]
  have hdiv := Nat.div_add_mod (den - 1) num
  have hmod := Nat.mod_lt (den - 1) hn
  refine ⟨Nat.div_pos (by omega) hn, by omega, ?_⟩
  rw [Nat.mul_add, Nat.mul_one]
  omega

/-- The first digit of a fraction stands at the power of ten below it. -/
theorem leadingPower_bounds {num den : ℕ} (hn : 0 < num) (hd : 0 < den) :
    (10 : ℚ) ^ leadingPower num den ≤ (num : ℚ) / den ∧
      (num : ℚ) / den < 10 ^ (leadingPower num den + 1) := by
  have hq : (0 : ℚ) < den := by exact_mod_cast hd
  have hnum : (0 : ℚ) < num := by exact_mod_cast hn
  unfold leadingPower
  dsimp only
  split_ifs with hwhole
  · obtain ⟨k, hk⟩ : ∃ k, digitCount (num / den) = k + 1 :=
      ⟨digitCount (num / den) - 1, (Nat.sub_add_cancel Nat.length_toDigits_pos).symm⟩
    have hlow := pow_digitCount_le (Nat.pos_of_ne_zero hwhole)
    have hhigh := lt_pow_digitCount (num / den)
    rw [hk] at hlow hhigh ⊢
    have hexponent : ((k + 1 : ℕ) : ℤ) - 1 = k := by omega
    rw [hexponent]
    constructor
    · rw [le_div_iff₀ hq, zpow_natCast]
      have hmul : 10 ^ k * den ≤ num := (Nat.le_div_iff_mul_le hd).mp hlow
      exact_mod_cast hmul
    · rw [div_lt_iff₀ hq, ← Nat.cast_succ, zpow_natCast]
      have hmul : num < 10 ^ (k + 1) * den := (Nat.div_lt_iff_lt_mul hd).mp hhigh
      exact_mod_cast hmul
  · have hless : num < den := (Nat.div_eq_zero_iff_lt hd).mp (not_not.mp hwhole)
    obtain ⟨hpos, hunder, hover⟩ := inverse_bounds hn hless
    generalize (den + num - 1) / num - 1 = inverse at *
    obtain ⟨k, hk⟩ : ∃ k, digitCount inverse = k + 1 :=
      ⟨digitCount inverse - 1, (Nat.sub_add_cancel Nat.length_toDigits_pos).symm⟩
    have hlow := pow_digitCount_le hpos
    have hhigh := lt_pow_digitCount inverse
    rw [hk] at hlow hhigh ⊢
    constructor
    · rw [zpow_neg, zpow_natCast, inv_le_iff_one_le_mul₀ (by positivity), div_mul_eq_mul_div,
        le_div_iff₀ hq, one_mul]
      have hmul : den ≤ num * 10 ^ (k + 1) := hover.trans (Nat.mul_le_mul_left num hhigh)
      exact_mod_cast hmul
    · have hexponent : -((k + 1 : ℕ) : ℤ) + 1 = -(k : ℤ) := by omega
      rw [hexponent, zpow_neg, zpow_natCast, lt_inv_comm₀ (by positivity) (by positivity),
        inv_div, lt_div_iff₀ hnum]
      have hmul : 10 ^ k * num < den := by
        rw [Nat.mul_comm]
        exact (Nat.mul_le_mul_left num hlow).trans_lt hunder
      exact_mod_cast hmul

/-! ## The nearest multiple on a grid -/

/-- Whether the multiple above a fraction is tried first: it is nearer, or as near as the one below
and even. -/
def tryUpper (grid : Nat × Ordering) : Bool :=
  grid.2 = .gt || (grid.2 = .eq && grid.1 % 2 = 1)

/-- The multiple that is tried first. -/
def tried (grid : Nat × Ordering) : Nat := if tryUpper grid then grid.1 + 1 else grid.1

theorem tried_near {n d : ℕ} (hd : 0 < d) :
    |(tried (n / d, compare (2 * (n % d)) d) : ℚ) - (n : ℚ) / d| ≤ 1 / 2 := by
  have hq : (0 : ℚ) < d := by exact_mod_cast hd
  have hdiv : (d : ℚ) * (n / d : ℕ) + (n % d : ℕ) = n := by exact_mod_cast Nat.div_add_mod n d
  have hmod : ((n % d : ℕ) : ℚ) < d := by exact_mod_cast Nat.mod_lt n hd
  have hnonneg : (0 : ℚ) ≤ (n % d : ℕ) := Nat.cast_nonneg _
  -- Both sides in units of the grid.
  have hunits : ∀ m : ℕ, |(m : ℚ) - (n : ℚ) / d| ≤ 1 / 2
      ↔ |2 * ((m : ℚ) * d - n)| ≤ d := by
    intro m
    have hsplit : 2 * ((m : ℚ) * d - n) = 2 * ((m : ℚ) - n / d) * d := by
      field_simp
    rw [hsplit, abs_mul, abs_of_pos hq, abs_mul, abs_of_pos (two_pos : (0 : ℚ) < 2),
      mul_le_iff_le_one_left hq, le_div_iff₀' two_pos]
  rw [hunits]
  unfold tried tryUpper
  dsimp only
  rcases lt_trichotomy (2 * (n % d)) d with h | h | h
  · have hcast : 2 * ((n % d : ℕ) : ℚ) < d := by exact_mod_cast h
    rw [Nat.compare_eq_lt.mpr h, if_neg (by simp), abs_le]
    constructor <;> linarith
  · have hcast : 2 * ((n % d : ℕ) : ℚ) = d := by exact_mod_cast h
    rw [Nat.compare_eq_eq.mpr h]
    split
    · rw [abs_le]
      push_cast
      constructor <;> linarith
    · rw [abs_le]
      constructor <;> linarith
  · have hcast : (d : ℚ) < 2 * ((n % d : ℕ) : ℚ) := by exact_mod_cast h
    rw [Nat.compare_eq_gt.mpr h, if_pos (by simp), abs_le]
    push_cast
    constructor <;> linarith

/-- The multiple that is tried first is at most half a unit of the grid away. -/
theorem tried_onGrid_near (num : ℕ) {den : ℕ} (hd : 0 < den) (power : ℤ) :
    |(tried (onGrid num den power) : ℚ) - (num : ℚ) / den / 10 ^ power| ≤ 1 / 2 := by
  have hscale := Binary64.scaled_value 10 (by norm_num) num den power
  rw [Nat.cast_ofNat] at hscale
  rw [← hscale]
  exact tried_near (Nat.mul_pos hd (Nat.pow_pos (by norm_num)))

/-! ## The search -/

/-- A decimal close to a magnitude reads back as it. -/
theorem toBinary64_of_near {d : Decimal} {index : ℕ} (hdigits : 0 < d.digits)
    (hindex : index < indexLimit)
    (hnear : |d.value - magnitude index| ≤ magnitude index * tolerance) :
    d.toBinary64 = .finite false index := by
  have hn : 0 < d.digits * Nat.pow 10 d.exponent.toNat :=
    Nat.mul_pos hdigits (Nat.pow_pos (by norm_num))
  have hd : 0 < Nat.pow 10 (-d.exponent).toNat := Nat.pow_pos (by norm_num)
  have hround := Binary64.nearestIndex_of_near hn hd
    (by rw [Binary64.decimal_value]; exact hnear)
  unfold toBinary64
  rw [Binary64.ofDecimal_eq hdigits]
  unfold Binary64.ofFraction
  rw [hround]
  exact if_neg (not_le.mpr hindex)

/-- What the search answers reads back. -/
theorem candidate?_reads {index num den count : ℕ} {top : ℤ} {d : Decimal}
    (h : candidate? index num den count top = some d) :
    0 < d.digits ∧ d.toBinary64 = .finite false index := by
  unfold candidate? at h
  have hfound := List.find?_some h
  rw [Bool.and_eq_true, decide_eq_true_eq, decide_eq_true_eq] at hfound
  exact ⟨Nat.pos_of_ne_zero hfound.1, hfound.2⟩

/-- The search answers if the multiple that is tried first reads back. -/
theorem candidate?_isSome {index num den count : ℕ} {top power : ℤ}
    (hpower : power = top - (count - 1 : ℕ)) (hdigits : 0 < tried (onGrid num den power))
    (hreads : toBinary64 ⟨tried (onGrid num den power), power⟩ = .finite false index) :
    (candidate? index num den count top).isSome := by
  have hfits : (fun d : Decimal => d.digits ≠ 0 && d.toBinary64 = .finite false index)
      ⟨tried (onGrid num den power), power⟩ = true := by
    rw [Bool.and_eq_true, decide_eq_true_eq, decide_eq_true_eq]
    exact ⟨hdigits.ne', hreads⟩
  unfold candidate?
  rw [← hpower, List.find?_isSome]
  refine ⟨_, ?_, hfits⟩
  unfold tried tryUpper
  split
  · exact List.mem_cons_self
  · exact List.mem_cons_self

/-- On the grid of seventeen digits the search always answers. -/
theorem candidate?_seventeen {index : ℕ} (hpos : 0 < index) (hindex : index < indexLimit) :
    (candidate? index (Binary64.fraction index).1 (Binary64.fraction index).2 17
      (leadingPower (Binary64.fraction index).1 (Binary64.fraction index).2)).isSome := by
  have hn := Binary64.fraction_num_pos hpos
  have hd := Binary64.fraction_den_pos index
  have hvalue := Binary64.fraction_value index
  obtain ⟨hlow, -⟩ := leadingPower_bounds hn hd
  generalize (Binary64.fraction index).1 = num at *
  generalize (Binary64.fraction index).2 = den at *
  generalize leadingPower num den = top at *
  have hten : (0 : ℚ) < 10 ^ (top - 16) := by positivity
  have hnear := tried_onGrid_near num hd (top - 16)
  rw [hvalue] at hnear hlow
  have hunits : (10 : ℚ) ^ 16 ≤ magnitude index / 10 ^ (top - 16) := by
    rw [le_div_iff₀ hten, ← zpow_natCast, ← zpow_add₀ (by norm_num)]
    rwa [show ((16 : ℕ) : ℤ) + (top - 16) = top by omega]
  have hdigits : 0 < tried (onGrid num den (top - 16)) := by
    have hcast : (0 : ℚ) < tried (onGrid num den (top - 16)) := by
      have hlow' := (abs_le.mp hnear).1
      linarith
    exact_mod_cast hcast
  refine candidate?_isSome rfl hdigits
    (toBinary64_of_near hdigits hindex ?_)
  generalize hm : magnitude index / 10 ^ (top - 16) = m at *
  rw [div_eq_iff hten.ne'] at hm
  show |(tried (onGrid num den (top - 16)) : ℚ) * 10 ^ (top - 16) - magnitude index| ≤ _
  rw [hm, ← sub_mul, abs_mul, abs_of_pos hten, mul_right_comm]
  apply mul_le_mul_of_nonneg_right _ hten.le
  unfold tolerance
  linarith

/-- The shortest decimal of a magnitude reads back as it. -/
theorem shortest_reads {index : ℕ} (hpos : 0 < index) (hindex : index < indexLimit) :
    0 < (shortest index).digits ∧ (shortest index).toBinary64 = .finite false index := by
  have hlast := candidate?_seventeen hpos hindex
  unfold shortest
  dsimp only
  generalize hfound : List.findSome? _ _ = found
  cases found with
  | some d =>
    obtain ⟨count, -, h⟩ := List.exists_of_findSome?_eq_some hfound
    exact candidate?_reads h
  | none =>
    have hnone := List.findSome?_eq_none_iff.mp hfound 17 (by decide)
    rw [hnone] at hlast
    cases hlast

/-! ## Zeros at the end -/

/-- The same value without zeros at the end. -/
theorem strip_value (fuel : ℕ) (d : Decimal) : (strip fuel d).value = d.value := by
  induction fuel generalizing d with
  | zero => rfl
  | succ fuel ih =>
    unfold strip
    split_ifs with h
    · rw [Bool.and_eq_true, decide_eq_true_eq, decide_eq_true_eq] at h
      have hdigits : (d.digits : ℚ) = 10 * (d.digits / 10 : ℕ) := by
        have hdiv := Nat.div_add_mod d.digits 10
        rw [h.2, Nat.add_zero] at hdiv
        exact_mod_cast hdiv.symm
      rw [ih]
      unfold value
      dsimp only
      rw [hdigits, zpow_add_one₀ (by norm_num)]
      ring
    · rfl

theorem strip_digits_pos (fuel : ℕ) {d : Decimal} (h : 0 < d.digits) :
    0 < (strip fuel d).digits := by
  have hvalue := strip_value fuel d
  rw [Nat.pos_iff_ne_zero]
  intro hzero
  unfold value at hvalue
  rw [hzero, Nat.cast_zero, zero_mul, eq_comm, mul_eq_zero] at hvalue
  rcases hvalue with hvalue | hvalue
  · exact h.ne' (by exact_mod_cast hvalue)
  · exact zpow_ne_zero _ (by norm_num) hvalue

end ManifestTree.Decimal
