import Mathlib.Data.Int.Log
import Mathlib.Data.Rat.Floor
import Mathlib.Tactic.Linarith
import Mathlib.Tactic.Ring
import Quadlet.Decimal.Shortest

/-!
# Rounding depends on the value alone

`Binary64.ofRatio` takes equal fractions to the same magnitude, and the fraction of a finite
magnitude to that magnitude. `Decimal.nearest` cuts off what is too large or too small; the cuts
agree with rounding, so a decimal may be written with more or fewer zeros. Main statement: the
decimal that is chosen for a magnitude is read as that magnitude.
-/

namespace Quadlet.Binary64

/-! ## Logarithms -/

/-- Shifted numbers compare like a power of two with a fraction. -/
theorem shiftLeft_le_iff {num den : Nat} (hden : 0 < den) (k : Int) :
    den <<< k.toNat ≤ num <<< (-k).toNat ↔ (2 : ℚ) ^ k ≤ (num : ℚ) / den := by
  have hden' : (0 : ℚ) < den := by exact_mod_cast hden
  rw [le_div_iff₀ hden', Nat.shiftLeft_eq, Nat.shiftLeft_eq]
  obtain ⟨n, rfl | rfl⟩ := k.eq_nat_or_neg
  · rw [Int.toNat_natCast, Int.toNat_neg_natCast, pow_zero, mul_one, zpow_natCast, mul_comm den]
    norm_cast
  · have hpow : (0 : ℚ) < 2 ^ n := by positivity
    rw [neg_neg, Int.toNat_natCast, Int.toNat_neg_natCast, pow_zero, mul_one, zpow_neg,
      zpow_natCast, inv_mul_le_iff₀ hpow, mul_comm num]
    norm_cast

private theorem log2_bounds {n : Nat} (hn : 0 < n) :
    (2 : ℚ) ^ (n.log2 : Int) ≤ n ∧ (n : ℚ) < 2 ^ ((n.log2 : Int) + 1) := by
  constructor
  · rw [zpow_natCast]
    exact_mod_cast Nat.log2_self_le hn.ne'
  · have hlt : n < 2 ^ (n.log2 + 1) := Nat.lt_log2_self
    rw [← Nat.cast_succ, zpow_natCast]
    exact_mod_cast hlt

/-- The logarithm of a fraction is that of its value. -/
theorem logRatio_eq_log {num den : Nat} (hnum : 0 < num) (hden : 0 < den) :
    logRatio num den = Int.log 2 ((num : ℚ) / den) := by
  have hden' : (0 : ℚ) < den := by exact_mod_cast hden
  have hr : (0 : ℚ) < (num : ℚ) / den := div_pos (by exact_mod_cast hnum) hden'
  obtain ⟨hnum₁, hnum₂⟩ := log2_bounds hnum
  obtain ⟨hden₁, hden₂⟩ := log2_bounds hden
  have hle (k : Int) : (2 : ℚ) ^ k ≤ (num : ℚ) / den ↔ k ≤ Int.log 2 ((num : ℚ) / den) := by
    exact_mod_cast Int.zpow_le_iff_le_log (R := ℚ) (b := 2) (by decide) hr
  have hlt (k : Int) : (num : ℚ) / den < 2 ^ k ↔ Int.log 2 ((num : ℚ) / den) < k := by
    exact_mod_cast Int.lt_zpow_iff_log_lt (R := ℚ) (b := 2) (by decide) hr
  -- The difference of the logarithms is the logarithm of the fraction or one more.
  have hlow : (num.log2 : Int) - den.log2 - 1 ≤ Int.log 2 ((num : ℚ) / den) := by
    rw [← hle, le_div_iff₀ hden']
    calc (2 : ℚ) ^ ((num.log2 : Int) - den.log2 - 1) * den
        ≤ 2 ^ ((num.log2 : Int) - den.log2 - 1) * 2 ^ ((den.log2 : Int) + 1) :=
          mul_le_mul_of_nonneg_left hden₂.le (zpow_nonneg (by norm_num) _)
      _ = 2 ^ (num.log2 : Int) := by
        rw [← zpow_add₀ (by norm_num)]
        congr 1
        ring
      _ ≤ num := hnum₁
  have hhigh : Int.log 2 ((num : ℚ) / den) < (num.log2 : Int) - den.log2 + 1 := by
    rw [← hlt, div_lt_iff₀ hden']
    calc (num : ℚ) < 2 ^ ((num.log2 : Int) + 1) := hnum₂
      _ = 2 ^ ((num.log2 : Int) - den.log2 + 1) * 2 ^ (den.log2 : Int) := by
        rw [← zpow_add₀ (by norm_num)]
        congr 1
        ring
      _ ≤ 2 ^ ((num.log2 : Int) - den.log2 + 1) * den :=
        mul_le_mul_of_nonneg_left hden₁ (zpow_nonneg (by norm_num) _)
  rw [logRatio]
  split
  · next h =>
    have hnot : ¬(num.log2 : Int) - den.log2 ≤ Int.log 2 ((num : ℚ) / den) := by
      rw [← hle, ← shiftLeft_le_iff hden]
      exact Nat.not_le.mpr h
    omega
  · next h =>
    have hreach := (hle _).mp ((shiftLeft_le_iff hden _).mp (Nat.not_lt.mp h))
    omega

/-- A power of two is at most a fraction if its exponent is at most the logarithm. -/
theorem le_logRatio_iff {num den : Nat} (hnum : 0 < num) (hden : 0 < den) (k : Int) :
    k ≤ logRatio num den ↔ (2 : ℚ) ^ k ≤ (num : ℚ) / den := by
  have hr : (0 : ℚ) < (num : ℚ) / den := div_pos (by exact_mod_cast hnum) (by exact_mod_cast hden)
  rw [logRatio_eq_log hnum hden]
  exact_mod_cast (Int.zpow_le_iff_le_log (R := ℚ) (b := 2) (by decide) hr).symm

private theorem natCast_le_logRatio_iff {num den : Nat} (hnum : 0 < num)
    (hden : 0 < den) (k : Nat) : (k : Int) ≤ logRatio num den ↔ den * 2 ^ k ≤ num := by
  rw [le_logRatio_iff hnum hden, ← shiftLeft_le_iff hden, Int.toNat_natCast, Int.toNat_neg_natCast,
    Nat.shiftLeft_eq, Nat.shiftLeft_zero]

private theorem neg_natCast_le_logRatio_iff {num den : Nat} (hnum : 0 < num)
    (hden : 0 < den) (k : Nat) : -(k : Int) ≤ logRatio num den ↔ den ≤ num * 2 ^ k := by
  rw [le_logRatio_iff hnum hden, ← shiftLeft_le_iff hden, neg_neg, Int.toNat_natCast,
    Int.toNat_neg_natCast, Nat.shiftLeft_zero, Nat.shiftLeft_eq]

/-! ## Quotients -/

private theorem divNearest_mul {c : Nat} (hc : 0 < c) (num den : Nat) :
    divNearest (c * num) (c * den) = divNearest num den := by
  have hmul (m n : Nat) : 2 * (c * m) < c * n ↔ 2 * m < n := by
    rw [Nat.mul_left_comm]
    exact Nat.mul_lt_mul_left hc
  have hmul' (m n : Nat) : c * n < 2 * (c * m) ↔ n < 2 * m := by
    rw [Nat.mul_left_comm 2]
    exact Nat.mul_lt_mul_left hc
  simp only [divNearest, Nat.mul_div_mul_left _ _ hc, Nat.mul_mod_mul_left, hmul, hmul']

private theorem divNearest_mul_self {den : Nat} (hden : 0 < den) (n : Nat) :
    divNearest (n * den) den = n := by
  simp [divNearest, Nat.mul_div_cancel _ hden, hden]

private theorem le_divNearest {num den n : Nat} (hden : 0 < den) (h : n * den ≤ num) :
    n ≤ divNearest num den := by
  have hle : n ≤ num / den := (Nat.le_div_iff_mul_le hden).mpr h
  simp only [divNearest]
  split
  · exact hle
  · split <;> omega

private theorem divNearest_eq_zero {num den : Nat} (h : 2 * num < den) :
    divNearest num den = 0 := by
  have hlt : num < den := by omega
  simp [divNearest, Nat.div_eq_of_lt hlt, Nat.mod_eq_of_lt hlt, h]

private theorem divNearest_shift_eq_zero {num den j k : Nat} (hjk : j < k) (h : num * 2 ^ k < den) :
    divNearest (num <<< j) den = 0 := by
  refine divNearest_eq_zero (Nat.lt_of_le_of_lt ?_ h)
  rw [Nat.shiftLeft_eq, Nat.mul_left_comm, Nat.mul_comm 2, ← Nat.pow_succ]
  exact Nat.mul_le_mul_left _ (Nat.pow_le_pow_right (by decide) hjk)

/-! ## Fractions -/

private theorem ofRatio_mul {c : Nat} (hc : 0 < c) (num : Nat) {den : Nat} (hden : 0 < den) :
    ofRatio (c * num) (c * den) = ofRatio num den := by
  by_cases hnum : num = 0
  · simp [ofRatio, hnum]
  have hnum' : 0 < num := Nat.pos_of_ne_zero hnum
  have hlog : logRatio (c * num) (c * den) = logRatio num den := by
    rw [logRatio_eq_log (Nat.mul_pos hc hnum') (Nat.mul_pos hc hden), logRatio_eq_log hnum' hden]
    have hc' : (c : ℚ) ≠ 0 := by exact_mod_cast hc.ne'
    rw [Nat.cast_mul, Nat.cast_mul, mul_div_mul_left _ _ hc']
  have hshift (n s : Nat) : (c * n) <<< s = c * n <<< s := by
    rw [Nat.shiftLeft_eq, Nat.shiftLeft_eq, Nat.mul_assoc]
  simp only [ofRatio, Nat.mul_eq_zero, hnum, hc.ne', or_self, if_false, hlog, hshift,
    divNearest_mul hc]

/-- Equal fractions are rounded alike. -/
theorem ofRatio_congr {a b c d : Nat} (hb : 0 < b) (hd : 0 < d) (h : a * d = c * b) :
    ofRatio a b = ofRatio c d := by
  rw [← ofRatio_mul hd a hb, ← ofRatio_mul hb c hd, Nat.mul_comm d a, Nat.mul_comm d b, h,
    Nat.mul_comm c b]

/-- A fraction past all numbers is infinite. -/
theorem ofRatio_of_large {num den : Nat} (hden : 0 < den) (h : den * 2 ^ 1024 ≤ num) :
    ofRatio num den = infinity := by
  have hnum : 0 < num := Nat.lt_of_lt_of_le (Nat.mul_pos hden (Nat.two_pow_pos _)) h
  have hlog := (natCast_le_logRatio_iff hnum hden 1024).mpr h
  obtain ⟨q, hq⟩ : ∃ q : Nat, logRatio num den - 52 = q := ⟨(logRatio num den - 52).toNat, by omega⟩
  have hmax : max (logRatio num den - 52) (-1074) = q := by omega
  have hle : unit * (den <<< q) ≤ num := by
    have hreach := (natCast_le_logRatio_iff hnum hden (q + 52)).mp (by omega)
    rw [Nat.pow_add] at hreach
    rw [Nat.shiftLeft_eq, unit]
    calc 0x10000000000000 * (den * 2 ^ q) = den * (2 ^ q * 2 ^ 52) := by ring
      _ ≤ num := hreach
  have hshift : 0 < den <<< q := by
    rw [Nat.shiftLeft_eq]
    exact Nat.mul_pos hden (Nat.two_pow_pos _)
  have hm := le_divNearest hshift hle
  have hneg : (-(q : Int)).toNat = 0 := by omega
  have hq' : 2046 ≤ ((q : Int) + 1074).toNat := by omega
  rw [ofRatio, if_neg hnum.ne']
  simp only [hmax, Int.toNat_natCast, hneg, Nat.shiftLeft_zero]
  refine Nat.min_eq_right ?_
  calc infinity = 2046 * unit + unit := by rw [infinity, unit]
    _ ≤ ((q : Int) + 1074).toNat * unit + divNearest num (den <<< q) :=
      Nat.add_le_add (Nat.mul_le_mul_right _ hq') hm

/-- A fraction below half of the least number is zero. -/
theorem ofRatio_of_small {num den k : Nat} (hk : 1075 ≤ k) (h : num * 2 ^ k < den) :
    ofRatio num den = 0 := by
  by_cases hnum : num = 0
  · simp [ofRatio, hnum]
  have hnum' : 0 < num := Nat.pos_of_ne_zero hnum
  have hden : 0 < den := Nat.lt_of_le_of_lt (Nat.zero_le _) h
  have hlog := mt (neg_natCast_le_logRatio_iff hnum' hden k).mp (Nat.not_le.mpr h)
  have hmax : max (logRatio num den - 52) (-1074) = -1074 := by omega
  rw [ofRatio, if_neg hnum]
  simp only [hmax]
  change min (0 * unit + divNearest (num <<< 1074) (den <<< 0)) infinity = 0
  rw [Nat.shiftLeft_zero, divNearest_shift_eq_zero (Nat.lt_of_lt_of_le (by decide) hk) h]
  rfl

end Quadlet.Binary64

namespace Quadlet.Decimal

open Binary64

/-! ## Values of magnitudes -/

private theorem denominator_pos (bits : Nat) : 0 < denominator bits := by
  rw [denominator, Nat.shiftLeft_eq, Nat.one_mul]
  exact Nat.two_pow_pos _

private theorem significand_pos {bits : Nat} (h : 0 < bits) : 0 < significand bits := by
  rw [significand]
  split
  · exact h
  · exact Nat.add_pos_right _ (by decide)

private theorem numerator_pos {bits : Nat} (h : 0 < bits) : 0 < numerator bits := by
  rw [numerator, Nat.shiftLeft_eq]
  exact Nat.mul_pos (significand_pos h) (Nat.two_pow_pos _)

/-- The value of a finite magnitude. -/
theorem value_eq (bits : Nat) :
    (numerator bits : ℚ) / denominator bits = significand bits * 2 ^ scale bits := by
  rw [numerator, denominator, Nat.shiftLeft_eq, Nat.shiftLeft_eq]
  obtain ⟨n, hn | hn⟩ := (scale bits).eq_nat_or_neg
  · rw [hn, Int.toNat_natCast, Int.toNat_neg_natCast, zpow_natCast]
    norm_num
  · rw [hn, neg_neg, Int.toNat_natCast, Int.toNat_neg_natCast, zpow_neg, zpow_natCast,
      div_eq_mul_inv]
    norm_num

/-- A magnitude is rounded in the place of its own last bit. -/
theorem place_of_value {bits : Nat} (h : 0 < bits) :
    max (logRatio (numerator bits) (denominator bits) - 52) (-1074) = scale bits := by
  have hle (k : Int) : k + scale bits ≤ logRatio (numerator bits) (denominator bits) ↔
      (2 : ℚ) ^ k ≤ significand bits := by
    rw [le_logRatio_iff (numerator_pos h) (denominator_pos bits), value_eq, zpow_add₀ (by norm_num)]
    exact mul_le_mul_iff_left₀ (zpow_pos (by norm_num) _)
  have hhigh : ¬53 + scale bits ≤ logRatio (numerator bits) (denominator bits) := by
    rw [hle]
    have hlt : significand bits < 2 ^ 53 := by
      rw [significand, unit]
      split
      · omega
      · have := Nat.mod_lt bits (show 0 < 0x10000000000000 by decide)
        omega
    exact not_le.mpr (by exact_mod_cast hlt)
  by_cases hbits : bits < unit
  · have hscale : scale bits = -1074 := if_pos hbits
    have hlow : ¬52 + scale bits ≤ logRatio (numerator bits) (denominator bits) := by
      rw [hle]
      have hlt : significand bits < 2 ^ 52 := by
        rw [significand, if_pos hbits]
        exact hbits
      exact not_le.mpr (by exact_mod_cast hlt)
    omega
  · have hscale : -1074 ≤ scale bits := by
      have hunit : 1 ≤ bits / unit := (Nat.one_le_div_iff (by decide)).mpr (Nat.not_lt.mp hbits)
      rw [scale, if_neg hbits]
      omega
    have hlow : 52 + scale bits ≤ logRatio (numerator bits) (denominator bits) := by
      rw [hle]
      have hge : 2 ^ 52 ≤ significand bits := by
        rw [significand, if_neg hbits]
        exact Nat.le_add_left _ _
      exact_mod_cast hge
    omega

/-- The fraction of a finite magnitude is rounded to that magnitude. -/
theorem ofRatio_value {bits : Nat} (h : bits < infinity) :
    ofRatio (numerator bits) (denominator bits) = bits := by
  by_cases hzero : bits = 0
  · subst hzero
    rfl
  have hpos : 0 < bits := Nat.pos_of_ne_zero hzero
  have hquotient : divNearest (numerator bits <<< (-scale bits).toNat)
      (denominator bits <<< (scale bits).toNat) = significand bits := by
    have hpow : 0 < 2 ^ (-scale bits).toNat * 2 ^ (scale bits).toNat :=
      Nat.mul_pos (Nat.two_pow_pos _) (Nat.two_pow_pos _)
    simp only [numerator, denominator, Nat.shiftLeft_eq, Nat.one_mul, Nat.mul_assoc]
    rw [Nat.mul_comm (2 ^ (scale bits).toNat)]
    exact divNearest_mul_self hpow _
  rw [ofRatio, if_neg (numerator_pos hpos).ne']
  simp only [place_of_value hpos, hquotient]
  have hsum : (scale bits + 1074).toNat * unit + significand bits = bits := by
    rw [scale, significand]
    split
    · simp
    · next hbits =>
      have hunit : 1 ≤ bits / unit := (Nat.one_le_div_iff (by decide)).mpr (Nat.not_lt.mp hbits)
      obtain ⟨e, he⟩ := Nat.exists_eq_add_of_le' hunit
      have hplace : ((bits / unit : Nat) - 1075 + 1074 : Int).toNat = e := by omega
      have hdiv := Nat.div_add_mod bits unit
      rw [he] at hdiv
      rw [hplace]
      linarith
  rw [hsum]
  exact Nat.min_eq_left h.le

/-! ## Decimals -/

private theorem tenPow_pos (k : Nat) : 0 < tenPow k := Nat.pow_pos (by decide)

private theorem tenPow_add (j k : Nat) : tenPow (j + k) = tenPow j * tenPow k := Nat.pow_add 10 j k

private theorem two_pow_le_tenPow {j k : Nat} (h : j ≤ 3 * k) : 2 ^ j ≤ tenPow k :=
  calc 2 ^ j ≤ 2 ^ (3 * k) := Nat.pow_le_pow_right (by decide) h
    _ = 8 ^ k := Nat.pow_mul 2 3 k
    _ ≤ tenPow k := Nat.pow_le_pow_left (by decide) k

/-- What is cut off would be rounded to the same magnitude. -/
theorem nearest_eq_ofRatio (d : Decimal) :
    d.nearest = ofRatio (d.digits * tenPow d.exponent.toNat) (tenPow (-d.exponent).toNat) := by
  rw [nearest]
  split
  · next hdigits => simp [hdigits, ofRatio]
  · next hdigits =>
    have hpos : 0 < d.digits := Nat.pos_of_ne_zero hdigits
    split
    · next hlarge =>
      refine (ofRatio_of_large (tenPow_pos _) ?_).symm
      have hneg : (-d.exponent).toNat = 0 := by rw [reach] at hlarge; omega
      rw [hneg]
      calc tenPow 0 * 2 ^ 1024 = 2 ^ 1024 := Nat.one_mul _
        _ ≤ tenPow d.exponent.toNat := two_pow_le_tenPow (by rw [reach] at hlarge; omega)
        _ ≤ d.digits * tenPow d.exponent.toNat := Nat.le_mul_of_pos_left _ hpos
    · split
      · next hsmall =>
        rw [reach] at hsmall
        obtain ⟨k, hk⟩ : ∃ k, 3 * (-d.exponent).toNat = d.digits.log2 + 1 + k :=
          Nat.exists_eq_add_of_le (by omega)
        refine (ofRatio_of_small (k := k) (by omega) ?_).symm
        have hzero : d.exponent.toNat = 0 := by omega
        rw [hzero]
        calc d.digits * tenPow 0 * 2 ^ k < 2 ^ (d.digits.log2 + 1) * 2 ^ k :=
              Nat.mul_lt_mul_of_pos_right ((Nat.mul_one _).symm ▸ Nat.lt_log2_self)
                (Nat.two_pow_pos _)
          _ = 2 ^ (d.digits.log2 + 1 + k) := (Nat.pow_add ..).symm
          _ ≤ tenPow (-d.exponent).toNat := two_pow_le_tenPow hk.ge
      · rfl

/-- Zeros behind the digits may be counted in the exponent. -/
theorem nearest_shift (digits k : Nat) (exponent : Int) :
    nearest ⟨digits * tenPow k, exponent⟩ = nearest ⟨digits, exponent + k⟩ := by
  rw [nearest_eq_ofRatio, nearest_eq_ofRatio]
  refine ofRatio_congr (tenPow_pos _) (tenPow_pos _) ?_
  dsimp only
  have hpow : tenPow k * tenPow exponent.toNat * tenPow (-(exponent + k)).toNat =
      tenPow (exponent + k).toNat * tenPow (-exponent).toNat := by
    rw [← tenPow_add, ← tenPow_add, ← tenPow_add]
    congr 1
    omega
  calc digits * tenPow k * tenPow exponent.toNat * tenPow (-(exponent + k)).toNat
      = digits * (tenPow k * tenPow exponent.toNat * tenPow (-(exponent + k)).toNat) := by ring
    _ = digits * tenPow (exponent + k).toNat * tenPow (-exponent).toNat := by rw [hpow]; ring

/-- The exact value of a magnitude is read as the magnitude. -/
theorem nearest_exact {bits : Nat} (h : bits < infinity) : (exact bits).nearest = bits := by
  rw [nearest_eq_ofRatio]
  refine (ofRatio_congr (tenPow_pos _) (denominator_pos bits) ?_).trans (ofRatio_value h)
  have hzero : (min (scale bits) 0).toNat = 0 := by omega
  have hneg : (-min (scale bits) 0).toNat = (-scale bits).toNat := by omega
  have hten : tenPow (-scale bits).toNat = 5 ^ (-scale bits).toNat * 2 ^ (-scale bits).toNat :=
    Nat.mul_pow 5 2 _
  simp only [exact, hzero, hneg, hten, denominator, Nat.shiftLeft_eq, Nat.one_mul]
  change numerator bits * 5 ^ _ * 1 * _ = _
  ring

/-- The decimal that is chosen for a magnitude is read as the magnitude. -/
theorem nearest_shortest (tie : Tie) {bits : Nat} (h : bits < infinity) :
    (shortest tie bits).nearest = bits := by
  rw [shortest]
  cases hgrid : (List.range 17).findSome? fun n : Nat =>
      onGrid tie bits (logTen (numerator bits) (denominator bits) - n) with
  | none => exact nearest_exact h
  | some d =>
    obtain ⟨n, -, hn⟩ := List.exists_of_findSome?_eq_some hgrid
    exact nearest_of_onGrid hn

end Quadlet.Decimal
