import CssOutline.Proofs.Rounding

/-! The numbers that a format holds. Rounding gives one of them, and each of them is what it gives
for the ratios around it, up to the middle between it and the next one. -/

namespace CssOutline.Number

theorem nearest_eq {num den m : Nat} (pos : 0 < den) (low : 2 * m * den ≤ 2 * num + den)
    (high : 2 * num ≤ 2 * m * den + den)
    (odd : m % 2 = 1 → 2 * m * den < 2 * num + den ∧ 2 * num < 2 * m * den + den) :
    nearest num den = m := by
  have parts := Nat.div_add_mod num den
  have small : num % den < den := Nat.mod_lt num pos
  rw [nearest]
  generalize num / den = q at *
  generalize num % den = r at *
  subst parts
  obtain below | rfl | rfl | above : m < q ∨ m = q ∨ m = q + 1 ∨ q + 2 ≤ m := by omega
  · have : 2 * (m + 1) * den ≤ 2 * q * den := by gcongr; omega
    nlinarith
  · have same : 2 * m * den = 2 * (den * m) := by ring
    rw [if_neg (by omega)]
  · have same : 2 * (q + 1) * den = 2 * (den * q) + 2 * den := by ring
    rw [if_pos (by omega)]
  · have : 2 * (q + 2) * den ≤ 2 * m * den := by gcongr
    nlinarith

theorem nearest_eq_of_near {num den m : Nat} (pos : 0 < den)
    (low : (m - 1 / 2 : ℚ) ≤ num / den) (high : (num / den : ℚ) ≤ m + 1 / 2)
    (odd : m % 2 = 1 → (m - 1 / 2 : ℚ) < num / den ∧ (num / den : ℚ) < m + 1 / 2) :
    nearest num den = m := by
  have denominator : (0 : ℚ) < den := by exact_mod_cast pos
  rw [le_div_iff₀ denominator] at low
  rw [div_le_iff₀ denominator] at high
  rw [lt_div_iff₀ denominator, div_lt_iff₀ denominator] at odd
  refine nearest_eq pos ?_ ?_ fun uneven => ⟨?_, ?_⟩
  · exact_mod_cast (by linarith : (2 * m * den : ℚ) ≤ 2 * num + den)
  · exact_mod_cast (by linarith : (2 * num : ℚ) ≤ 2 * m * den + den)
  · exact_mod_cast (by linarith [(odd uneven).1] : (2 * m * den : ℚ) < 2 * num + den)
  · exact_mod_cast (by linarith [(odd uneven).2] : (2 * num : ℚ) < 2 * m * den + den)

namespace Format

/-- Significand and exponent of a number of the format that is not zero. -/
structure Fits (f : Format) (m : Nat) (e : Int) : Prop where
  pos : 0 < m
  small : m < 2 ^ f.precision
  least : f.least ≤ e
  full : 2 ^ (f.precision - 1) ≤ m ∨ e = f.least
  bounded : (m * 2 ^ e : ℚ) < 2 ^ f.bound

inductive Holds (f : Format) : Number → Prop
  | nan : f.Holds .nan
  | infinite (s : Bool) : f.Holds (.infinite s)
  | zero (s : Bool) : f.Holds (.finite s 0 f.least)
  | finite (s : Bool) {m : Nat} {e : Int} (fits : f.Fits m e) : f.Holds (.finite s m e)

/-- How far below the number of significand `m` the numbers reach that are rounded to it. -/
def reach (f : Format) (m : Nat) (e : Int) : ℚ :=
  if m = 2 ^ (f.precision - 1) ∧ f.least < e then 1 / 4 else 1 / 2

/-- Whether `x` is rounded to `m * 2 ^ e`, a half going to the even significand. -/
structure ReadsBack (f : Format) (m : Nat) (e : Int) (x : ℚ) : Prop where
  low : (m - f.reach m e) * 2 ^ e ≤ x
  high : x ≤ (m + 1 / 2) * 2 ^ e
  odd : m % 2 = 1 → (m - f.reach m e) * 2 ^ e < x ∧ x < (m + 1 / 2) * 2 ^ e

variable {f : Format} {m : Nat} {e : Int}

theorem reach_le (f : Format) (m : Nat) (e : Int) : 0 < f.reach m e ∧ f.reach m e ≤ 1 / 2 := by
  unfold reach
  split_ifs <;> norm_num

theorem ofRatio_of_exponent (f : Format) (s : Bool) {num den : Nat} (nonzero : num ≠ 0)
    {e : Int} (exponent : max (magnitude num den - (f.precision - 1)) f.least = e) :
    f.ofRatio s num den =
      let m := nearest (scaled num den (-e)).1 (scaled num den (-e)).2
      let p := if m = 2 ^ f.precision then (m / 2, e + 1) else (m, e)
      if f.bound ≤ p.1.log2 + p.2 then .infinite s else .finite s p.1 p.2 := by
  rw [ofRatio_eq f s nonzero, exponent]
  rfl

theorem nearest_scaled {num den : Nat} (pos : 0 < den) {m : Nat} {e : Int}
    (low : (m - 1 / 2 : ℚ) * 2 ^ e ≤ num / den) (high : (num / den : ℚ) ≤ (m + 1 / 2) * 2 ^ e)
    (odd : m % 2 = 1 →
      (m - 1 / 2 : ℚ) * 2 ^ e < num / den ∧ (num / den : ℚ) < (m + 1 / 2) * 2 ^ e) :
    nearest (scaled num den (-e)).1 (scaled num den (-e)).2 = m := by
  have unit : (0 : ℚ) < 2 ^ e := by positivity
  refine nearest_eq_of_near (scaled_pos num pos (-e)) ?_ ?_ ?_ <;>
    rw [scaled_ratio num pos, zpow_neg, ← div_eq_mul_inv]
  · rwa [le_div_iff₀ unit]
  · rwa [div_le_iff₀ unit]
  · rwa [lt_div_iff₀ unit, div_lt_iff₀ unit]

theorem magnitude_lt_iff {num den : Nat} (positive : 0 < num) (pos : 0 < den) (k : Int) :
    magnitude num den < k ↔ (num / den : ℚ) < 2 ^ k := by
  obtain ⟨low, high⟩ := magnitude_spec positive pos
  constructor
  · intro less
    exact high.trans_le (zpow_le_zpow_right₀ one_le_two less)
  · intro less
    exact (zpow_lt_zpow_iff_right₀ one_lt_two).1 (low.trans_lt less)

theorem Fits.lt_pow (fits : f.Fits m e) : (m + 1 / 2 : ℚ) * 2 ^ e < 2 ^ (f.precision + e) := by
  have most : (m + 1 : ℚ) ≤ 2 ^ f.precision := by exact_mod_cast fits.small
  rw [zpow_add₀ two_ne_zero, zpow_natCast]
  gcongr
  linarith

theorem pow_precision (precise : 0 < f.precision) (e : Int) :
    (2 : ℚ) ^ (f.precision - 1) * 2 ^ e = 2 ^ (f.precision + e - 1) := by
  rw [← zpow_natCast, ← zpow_add₀ two_ne_zero]
  congr 1
  omega

theorem Fits.half_le (fits : f.Fits m e) : (2 : ℚ) ^ (e - 1) ≤ (m - f.reach m e) * 2 ^ e := by
  have one : (1 : ℚ) ≤ m := by exact_mod_cast fits.pos
  have reach := (reach_le f m e).2
  rw [zpow_sub_one₀ two_ne_zero, mul_comm]
  gcongr
  linarith

theorem ReadsBack.pos (fits : f.Fits m e) {x : ℚ} (back : f.ReadsBack m e x) : 0 < x :=
  (by positivity : (0 : ℚ) < 2 ^ (e - 1)).trans_le (fits.half_le.trans back.low)

/-- Below the least significand of the precision the numbers are rounded up to twice that. -/
theorem ofRatio_of_carried (precise : 0 < f.precision) (s : Bool) {num den : Nat}
    (positive : 0 < num) (pos : 0 < den) (room : f.least < e)
    (low : (2 ^ (f.precision - 1) - 1 / 4 : ℚ) * 2 ^ e ≤ num / den)
    (high : (num / den : ℚ) < 2 ^ (f.precision - 1) * 2 ^ e)
    (bounded : ¬ f.bound ≤ (2 ^ (f.precision - 1) : Nat).log2 + e) :
    f.ofRatio s num den = .finite s (2 ^ (f.precision - 1)) e := by
  have double : 2 ^ f.precision = 2 * 2 ^ (f.precision - 1) := by
    rw [← pow_succ', Nat.sub_add_cancel precise]
  have unit : (0 : ℚ) < 2 ^ e := by positivity
  have half : (2 : ℚ) ^ e = 2 * 2 ^ (e - 1) := by
    rw [← zpow_one_add₀ two_ne_zero, add_sub_cancel]
  have one : (1 : ℚ) ≤ 2 ^ (f.precision - 1) := one_le_pow₀ one_le_two
  have exponent : max (magnitude num den - (f.precision - 1)) f.least = e - 1 := by
    have most : magnitude num den < f.precision + e - 1 := by
      rwa [magnitude_lt_iff positive pos, ← pow_precision precise]
    have least : ¬ magnitude num den < f.precision + (e - 1) - 1 := by
      rw [magnitude_lt_iff positive pos, ← pow_precision precise, not_lt]
      refine le_trans ?_ low
      rw [half, ← mul_assoc]
      gcongr
      linarith
    omega
  have carried : nearest (scaled num den (-(e - 1))).1 (scaled num den (-(e - 1))).2 =
      2 ^ f.precision := by
    refine nearest_scaled pos ?_ ?_ fun uneven => ?_
    · rw [half] at low
      push_cast [double]
      linarith
    · rw [half] at high
      push_cast [double]
      linarith
    · omega
  rw [ofRatio_of_exponent f s positive.ne' exponent, carried]
  simp only [if_true, sub_add_cancel, double, Nat.mul_div_cancel_left _ two_pos, if_neg bounded]

/-- What reads back as a number of the format is rounded to it. -/
theorem ofRatio_of_readsBack (precise : 0 < f.precision) (s : Bool) (fits : f.Fits m e)
    {num den : Nat} (pos : 0 < den) (back : f.ReadsBack m e (num / den)) :
    f.ofRatio s num den = .finite s m e := by
  have denominator : (0 : ℚ) < den := by exact_mod_cast pos
  have positive : 0 < num := by
    have := back.pos fits
    rw [lt_div_iff₀ denominator, zero_mul] at this
    exact_mod_cast this
  have unit : (0 : ℚ) < 2 ^ e := by positivity
  have reach := (reach_le f m e).2
  have bounded : ¬ f.bound ≤ m.log2 + e := by
    rw [bound_le_iff fits.pos, not_le]
    exact fits.bounded
  have below : magnitude num den < f.precision + e :=
    (magnitude_lt_iff positive pos _).2 (back.high.trans_lt fits.lt_pow)
  by_cases short : magnitude num den < f.precision + e - 1 ∧ f.least < e
  · have least : m = 2 ^ (f.precision - 1) := by
      have less := back.low.trans_lt ((magnitude_lt_iff positive pos _).1 short.1)
      rw [← pow_precision precise, mul_lt_mul_iff_left₀ unit] at less
      have less : (m : ℚ) < 2 ^ (f.precision - 1) + 1 := by linarith
      have less : m < 2 ^ (f.precision - 1) + 1 := by exact_mod_cast less
      have := fits.full.resolve_right (by omega)
      omega
    have near : (2 ^ (f.precision - 1) - 1 / 4 : ℚ) * 2 ^ e ≤ num / den := by
      have := back.low
      rwa [Format.reach, if_pos ⟨least, short.2⟩, least, Nat.cast_pow, Nat.cast_ofNat] at this
    have less : (num / den : ℚ) < 2 ^ (f.precision - 1) * 2 ^ e := by
      rw [pow_precision precise]
      exact (magnitude_lt_iff positive pos _).1 short.1
    rw [least] at bounded
    rw [ofRatio_of_carried precise s positive pos short.2 near less bounded, ← least]
  · have exponent : max (magnitude num den - (f.precision - 1)) f.least = e := by
      have := fits.least
      omega
    have full : ¬ m = 2 ^ f.precision := fits.small.ne
    rw [ofRatio_of_exponent f s positive.ne' exponent, nearest_scaled pos ?_ back.high ?_]
    · simp only [if_neg full, if_neg bounded]
    · exact le_trans (by gcongr) back.low
    · intro uneven
      obtain ⟨low, high⟩ := back.odd uneven
      exact ⟨lt_of_le_of_lt (by gcongr) low, high⟩

theorem nearest_scaled_bounds (precise : 0 < f.precision) {num den : Nat} (positive : 0 < num)
    (pos : 0 < den) (exponent : max (magnitude num den - (f.precision - 1)) f.least = e) :
    nearest (scaled num den (-e)).1 (scaled num den (-e)).2 ≤ 2 ^ f.precision ∧
      (2 ^ (f.precision - 1) ≤ nearest (scaled num den (-e)).1 (scaled num den (-e)).2 ∨
        e = f.least) := by
  have near := nearest_near (scaled num den (-e)).1 (scaled_pos num pos (-e))
  rw [scaled_ratio num pos, zpow_neg, ← div_eq_mul_inv] at near
  generalize nearest (scaled num den (-e)).1 (scaled num den (-e)).2 = m at near ⊢
  obtain ⟨low, high⟩ := abs_le.1 near
  have unit : (0 : ℚ) < 2 ^ e := by positivity
  constructor
  · have below : (num / den / 2 ^ e : ℚ) < 2 ^ f.precision := by
      rw [div_lt_iff₀ unit, ← zpow_natCast, ← zpow_add₀ two_ne_zero,
        ← magnitude_lt_iff positive pos]
      omega
    have : (m : ℚ) < 2 ^ f.precision + 1 := by linarith
    exact Nat.lt_succ_iff.1 (by exact_mod_cast this)
  · by_cases least : e = f.least
    · exact .inr least
    · have above : (2 ^ (f.precision - 1) : ℚ) ≤ num / den / 2 ^ e := by
        rw [le_div_iff₀ unit, ← not_lt, ← zpow_natCast, ← zpow_add₀ two_ne_zero,
          ← magnitude_lt_iff positive pos]
        omega
      have : (2 ^ (f.precision - 1) : ℚ) < m + 1 := by linarith
      exact .inl (Nat.lt_succ_iff.1 (by exact_mod_cast this))

/-- What is too small gives zero, what is too large infinity. -/
theorem holds_ofRatio (precise : 0 < f.precision) (s : Bool) (num : Nat) {den : Nat}
    (pos : 0 < den) : f.Holds (f.ofRatio s num den) := by
  obtain rfl | positive := Nat.eq_zero_or_pos num
  · exact .zero s
  · obtain ⟨e, exponent⟩ : ∃ e, max (magnitude num den - (f.precision - 1)) f.least = e :=
      ⟨_, rfl⟩
    obtain ⟨most, full⟩ := nearest_scaled_bounds precise positive pos exponent
    rw [ofRatio_of_exponent f s positive.ne' exponent]
    generalize nearest (scaled num den (-e)).1 (scaled num den (-e)).2 = m at most full
    dsimp only
    split_ifs with carried large large
    · exact .infinite s
    · have double : 2 ^ f.precision = 2 * 2 ^ (f.precision - 1) := by
        rw [← pow_succ', Nat.sub_add_cancel precise]
      have half : m / 2 = 2 ^ (f.precision - 1) := by
        rw [carried, double, Nat.mul_div_cancel_left _ two_pos]
      have some : 0 < m / 2 := by
        rw [half]
        positivity
      rw [bound_le_iff some, not_le] at large
      exact .finite s ⟨some, by omega, by omega, .inl half.ge, large⟩
    · exact .infinite s
    · obtain rfl | some := Nat.eq_zero_or_pos m
      · have none : ¬ 2 ^ (f.precision - 1) ≤ 0 := by simp
        rw [full.resolve_left none]
        exact .zero s
      · rw [bound_le_iff some, not_le] at large
        exact .finite s ⟨some, by omega, by omega, full, large⟩

end Format

end CssOutline.Number
