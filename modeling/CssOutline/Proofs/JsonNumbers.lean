import CssOutline.Proofs.JsonGrammar
import CssOutline.Proofs.Rounding

/-! Numbers in JSON texts. Whole numbers within 64 bits become the digits they are written with. Of
every other number leading digits are collected, and the collected integer and a power of ten are
rounded, and so is their product; so whether the number is in range is decided by its size but for a
relative difference of `2 ^ -51`. -/

namespace CssOutline.Json

open Numeral (Written scale collect limit)
open Number (Format)

/-- The size of the number as it is written. -/
def Numeral.Written.size (w : Written) : ℚ :=
  Number.ofDigits (w.whole ++ w.fraction.getD []) *
    10 ^ (w.exponent.getD 0 - ((w.fraction.getD []).length : Int))

/-- The number is read: it does not round to infinity. -/
def Numeral.Written.InRange (w : Written) : Prop :=
  (Numeral.ofWritten w).isSome

instance (w : Written) : Decidable w.InRange :=
  inferInstanceAs (Decidable ((Numeral.ofWritten w).isSome = true))

/-- The decimal text a number is read as. -/
def Numeral.Written.decimal (w : Written) : String :=
  ((Numeral.ofWritten w).map Numeral.text).getD ""

/-! ### Collecting digits -/

def extend (n : Nat) (digits : List Char) : Nat :=
  digits.foldl (fun n c => 10 * n + (c.toNat - 48)) n

theorem extend_append (n : Nat) (ds es : List Char) :
    extend n (ds ++ es) = extend (extend n ds) es :=
  List.foldl_append

theorem toNat_digit {c : Char} (digit : c.isDigit) : 48 ≤ c.toNat ∧ c.toNat ≤ 57 := by
  simp only [Char.isDigit, Bool.and_eq_true, decide_eq_true_eq] at digit
  exact digit

theorem extend_bounds {digits : List Char} (all : ∀ c ∈ digits, c.isDigit) (n : Nat) :
    n * 10 ^ digits.length ≤ extend n digits ∧
      extend n digits < (n + 1) * 10 ^ digits.length := by
  induction digits generalizing n with
  | nil => simp [extend]
  | cons c cs ih =>
    have digit := toNat_digit (all c (by simp))
    obtain ⟨low, high⟩ := ih (fun d member => all d (by simp [member])) (10 * n + (c.toNat - 48))
    have step : extend n (c :: cs) = extend (10 * n + (c.toNat - 48)) cs := rfl
    rw [step, List.length_cons, pow_succ']
    constructor
    · calc n * (10 * 10 ^ cs.length) = 10 * n * 10 ^ cs.length := by ring
        _ ≤ (10 * n + (c.toNat - 48)) * 10 ^ cs.length := by gcongr; omega
        _ ≤ _ := low
    · calc _ < (10 * n + (c.toNat - 48) + 1) * 10 ^ cs.length := high
        _ ≤ 10 * (n + 1) * 10 ^ cs.length := by gcongr; omega
        _ = (n + 1) * (10 * 10 ^ cs.length) := by ring

theorem collect_spec {n : Nat} (small : n ≤ limit) (count : Nat) (digits : List Char) :
    ∃ taken left, digits = taken ++ left ∧
      collect n count digits = (extend n taken, count + taken.length, left) ∧
      extend n taken ≤ limit ∧ ∀ c ∈ left.head?, limit < 10 * extend n taken + (c.toNat - 48) := by
  induction digits generalizing n count with
  | nil => exact ⟨[], [], rfl, rfl, small, by simp⟩
  | cons c cs ih =>
    rw [collect]
    split_ifs with fits
    · obtain ⟨taken, left, rfl, same, below, stop⟩ := ih fits (count + 1)
      refine ⟨c :: taken, left, rfl, ?_, below, stop⟩
      rw [same, List.length_cons, extend, extend, List.foldl_cons, Nat.add_right_comm,
        Nat.add_assoc]
    · exact ⟨[], c :: cs, rfl, rfl, small, by simpa [extend] using fits⟩

theorem le_extend (n : Nat) (digits : List Char) : n ≤ extend n digits := by
  induction digits generalizing n with
  | nil => exact Nat.le_refl n
  | cons c cs ih => exact Nat.le_trans (by omega) (ih (10 * n + (c.toNat - 48)))

theorem collect_eq_of_le {digits : List Char} (small : Number.ofDigits digits ≤ limit) :
    collect 0 0 digits = (Number.ofDigits digits, digits.length, []) := by
  obtain ⟨taken, left, rfl, same, -, stop⟩ := collect_spec (Nat.zero_le limit) 0 digits
  cases left with
  | nil => simpa [extend, Number.ofDigits] using same
  | cons c cs =>
    have next := stop c rfl
    have grows := le_extend (10 * extend 0 taken + (c.toNat - 48)) cs
    have whole : Number.ofDigits (taken ++ c :: cs) =
        extend (10 * extend 0 taken + (c.toNat - 48)) cs := extend_append 0 taken (c :: cs)
    omega

/-! ### Whole numbers -/

theorem digitChar_digit {c : Char} (digit : c.isDigit) : Nat.digitChar (c.toNat - 48) = c := by
  have characters : ∀ d < 10, Nat.digitChar d = Char.ofNat (d + 48) := by decide
  have bounds := toNat_digit digit
  rw [characters _ (by omega), Nat.sub_add_cancel bounds.1, Char.ofNat_toNat]

theorem toDigits_digit {c : Char} (digit : c.isDigit) : Nat.toDigits 10 (c.toNat - 48) = [c] := by
  have bounds := toNat_digit digit
  rw [Nat.toDigits_of_lt_base (by omega), digitChar_digit digit]

theorem toDigits_extend {n : Nat} (pos : 0 < n) {digits : List Char}
    (all : ∀ c ∈ digits, c.isDigit) :
    Nat.toDigits 10 (extend n digits) = Nat.toDigits 10 n ++ digits := by
  induction digits generalizing n with
  | nil => simp [extend]
  | cons c cs ih =>
    have digit := all c (by simp)
    have bounds := toNat_digit digit
    have step : extend n (c :: cs) = extend (10 * n + (c.toNat - 48)) cs := rfl
    have next := Nat.toDigits_append_toDigits (b := 10) (n := n) (d := c.toNat - 48) (by decide)
      pos (by omega)
    rw [step, ih (by omega) fun d member => all d (by simp [member]), ← next, toDigits_digit digit,
      List.append_assoc, List.singleton_append]

theorem digitsText_ofDigits {digits : List Char} (number : IsDigits digits)
    (zero : digits.head? = some '0' → digits = ['0']) :
    Number.digitsText (Number.ofDigits digits) = String.ofList digits := by
  obtain ⟨c, cs, rfl⟩ := List.exists_cons_of_ne_nil number.1
  have digit := number.2 c (by simp)
  rw [Number.digitsText]
  congr 1
  by_cases leading : c = '0'
  · subst leading
    rw [zero rfl]
    decide
  · have pos : 0 < c.toNat - 48 := by
      have bounds := toNat_digit digit
      have other : c.toNat ≠ '0'.toNat := fun same => leading (Char.toNat_inj.1 same)
      simp only [Char.reduceToNat] at other
      omega
    have value : Number.ofDigits (c :: cs) = extend (c.toNat - 48) cs := by
      simp [Number.ofDigits, extend]
    rw [value, toDigits_extend pos fun d member => number.2 d (by simp [member]),
      toDigits_digit digit, List.singleton_append]

/-- A whole number within 64 bits, with or without a sign. -/
structure Numeral.Written.IsInteger (w : Written) : Prop where
  fraction : w.fraction = none
  exponent : w.exponent = none
  fits : Number.ofDigits w.whole ≤ if w.negative then 2 ^ 63 else 2 ^ 64 - 1

theorem ofWritten_of_isInteger {w : Written} (integer : w.IsInteger) :
    ∃ n, Numeral.ofWritten w = some n ∧
      n.text = (if w.negative then "-" else "") ++ Number.digitsText (Number.ofDigits w.whole) := by
  have fits := integer.fits
  have small : Number.ofDigits w.whole ≤ limit := by
    rw [limit]
    split_ifs at fits <;> omega
  simp only [Numeral.ofWritten, collect_eq_of_le small, integer.fraction, integer.exponent,
    ne_eq, not_true_eq_false, ↓reduceIte]
  cases negative : w.negative with
  | false => exact ⟨_, rfl, (String.empty_append ..).symm⟩
  | true =>
    rw [negative] at fits
    simp only [↓reduceIte] at fits
    simp only [Bool.not_true, Bool.false_eq_true, ↓reduceIte]
    by_cases zero : Number.ofDigits w.whole = 0
    · rw [if_pos (.inl zero), zero]
      exact ⟨_, rfl, by decide⟩
    · rw [if_neg (by omega)]
      exact ⟨_, rfl, rfl⟩

theorem decimal_of_isInteger {w : Written} {cs : List Char} (text : (Mark.number w).IsText cs)
    (integer : w.IsInteger) : w.decimal = String.ofList cs := by
  obtain ⟨unsigned, number, rfl⟩ := text
  obtain ⟨exponent, written, rfl⟩ := number.text
  rw [integer.exponent] at written
  obtain ⟨n, read, same⟩ := ofWritten_of_isInteger integer
  rw [Written.decimal, read, Option.map_some, Option.getD_some, same,
    digitsText_ofDigits number.whole number.zero]
  cases written
  apply String.toList_injective
  cases w.negative <;> simp [integer.fraction, fractionText]

/-! ### The range -/

theorem magnitude_of_half_le {num den : Nat} (pos : 0 < den) (half : den ≤ 2 * num) :
    -1 ≤ Number.magnitude num den := by
  have positive : 0 < num := by omega
  have high := (Number.magnitude_spec positive pos).2
  have denominator : (0 : ℚ) < den := by exact_mod_cast pos
  have low : (2 : ℚ) ^ (-1 : Int) ≤ num / den := by
    rw [le_div_iff₀ denominator]
    have : (den : ℚ) ≤ 2 * num := by exact_mod_cast half
    norm_num
    linarith
  have less := (zpow_lt_zpow_iff_right₀ (one_lt_two (α := ℚ))).1 (low.trans_lt high)
  omega

theorem rounds_ofRatio {num den : Nat} (pos : 0 < den) (half : den ≤ 2 * num) (s : Bool) :
    Format.double.Rounds (num / den) (Format.double.ofRatio s num den) := by
  have order := magnitude_of_half_le pos half
  refine Format.rounds_ofRatio (by decide) s (by omega) pos ?_
  simp only [Format.double]
  omega

theorem rounds_ofNat {n : Nat} (pos : 0 < n) :
    Format.double.Rounds n (Format.double.ofNat n) := by
  have rounds := rounds_ofRatio one_pos (by omega : 1 ≤ 2 * n) false
  rwa [Nat.cast_one, div_one] at rounds

theorem rounds_powerOfTen {k : Nat} (small : k ≤ 308) :
    Format.double.Rounds (10 ^ k) (Format.double.powerOfTen k) := by
  have some : 1 ≤ 2 * 10 ^ k := by
    have := Nat.one_le_pow k 10 (by decide)
    omega
  have rounds := rounds_ofRatio one_pos some false
  have cut : max (-400) (min (k : Int) 400) = k := by omega
  simp only [Format.powerOfTen, cut, Int.toNat_natCast, Int.toNat_neg_natCast, Nat.pow_eq,
    pow_zero]
  simpa using rounds

theorem rounds_mul {s t : Bool} {m n : Nat} {e k : Int}
    (half : (1 / 2 : ℚ) ≤ m * 2 ^ e * (n * 2 ^ k)) :
    Format.double.Rounds (m * 2 ^ e * (n * 2 ^ k))
      (Number.mul .double (.finite s m e) (.finite t n k)) := by
  have bottom := Number.scaled_pos (m * n) one_pos (e + k)
  have ratio := Number.scaled_ratio (m * n) one_pos (e + k)
  have same : ((Number.scaled (m * n) 1 (e + k)).1 : ℚ) / (Number.scaled (m * n) 1 (e + k)).2 =
      m * 2 ^ e * (n * 2 ^ k) := by
    rw [ratio, zpow_add₀ two_ne_zero]
    push_cast
    ring
  have half' : (Number.scaled (m * n) 1 (e + k)).2 ≤ 2 * (Number.scaled (m * n) 1 (e + k)).1 := by
    have denominator : (0 : ℚ) < (Number.scaled (m * n) 1 (e + k)).2 := by exact_mod_cast bottom
    rw [← same, le_div_iff₀ denominator] at half
    have : ((Number.scaled (m * n) 1 (e + k)).2 : ℚ) ≤ 2 * (Number.scaled (m * n) 1 (e + k)).1 := by
      linarith
    exact_mod_cast this
  have rounds := rounds_ofRatio bottom half' (s != t)
  rwa [same] at rounds

def roundoff : ℚ := 1 / 2 ^ 53

def overflow : ℚ := 2 ^ 1024

theorem roundoff_bounds : 0 < roundoff ∧ roundoff < 1 / 8 := by
  rw [roundoff]
  norm_num

theorem pow_ten_mul_lt {x : ℚ} (small : x ≤ 17 / 10) : 10 ^ 308 * x < overflow := by
  have whole : 10 ^ 308 * 17 < 2 ^ 1024 * 10 := by decide +kernel
  have cast := (Nat.cast_lt (α := ℚ)).2 whole
  simp only [Nat.cast_mul, Nat.cast_pow, Nat.cast_ofNat] at cast
  rw [← div_lt_iff₀ (by norm_num), mul_div_assoc] at cast
  exact (mul_le_mul_of_nonneg_left small (pow_nonneg (by norm_num) _)).trans_lt cast

theorem lt_pow_ten_mul {x : ℚ} (large : 2 ≤ x) : overflow < 10 ^ 308 * x := by
  have whole : 2 ^ 1024 < 10 ^ 308 * 2 := by decide +kernel
  have cast := (Nat.cast_lt (α := ℚ)).2 whole
  simp only [Nat.cast_mul, Nat.cast_pow, Nat.cast_ofNat] at cast
  exact cast.trans_le (mul_le_mul_of_nonneg_left large (pow_nonneg (by norm_num) _))

theorem pow_ten_lt : (10 : ℚ) ^ 308 < overflow := by
  rw [← mul_one ((10 : ℚ) ^ 308)]
  exact pow_ten_mul_lt (by norm_num)

theorem bounds_of_near {r x : ℚ} (near : |r - x| ≤ x / 2 ^ 53) :
    x * (1 - roundoff) ≤ r ∧ r ≤ x * (1 + roundoff) := by
  have ⟨low, high⟩ := abs_le.1 near
  rw [roundoff]
  constructor <;> linarith

theorem finite_of_rounds {x : ℚ} {y : Number} (rounds : Format.double.Rounds x y)
    (small : x ≤ 10 ^ 308) :
    ∃ s m e, y = .finite s m e ∧ x * (1 - roundoff) ≤ m * 2 ^ e ∧
      m * 2 ^ e ≤ x * (1 + roundoff) := by
  obtain ⟨r, near, outcome⟩ := rounds
  obtain ⟨low, high⟩ := bounds_of_near near
  have ⟨positive, tiny⟩ := roundoff_bounds
  have scaled := mul_le_mul_of_nonneg_right small (by linarith : 0 ≤ 1 + roundoff)
  have bound : 10 ^ 308 * (1 + roundoff) < overflow := pow_ten_mul_lt (by linarith)
  obtain ⟨large, -⟩ | ⟨-, s, m, e, rfl, rfl⟩ := outcome
  · have power : (2 : ℚ) ^ Format.double.bound = overflow := zpow_natCast 2 1024
    exact absurd (power ▸ large) (not_le.2 (high.trans_lt (scaled.trans_lt bound)))
  · exact ⟨s, m, e, rfl, low, high⟩

theorem ofNat_le_pow_ten {n : Nat} (small : n ≤ limit) : (n : ℚ) ≤ 10 ^ 308 := by
  have bound : (n : ℚ) ≤ 10 ^ 20 := by exact_mod_cast small.trans (by decide)
  exact bound.trans (pow_le_pow_right₀ (by norm_num) (by norm_num))

theorem scale_near {n k : Nat} (pos : 0 < n) (small : n ≤ limit) (low : k ≤ 308) :
    ∃ r : ℚ, n * 10 ^ k * (1 - roundoff) ^ 3 ≤ r ∧ r ≤ n * 10 ^ k * (1 + roundoff) ^ 3 ∧
      ((scale n k).isSome ↔ r < overflow) := by
  have ⟨positive, tiny⟩ := roundoff_bounds
  have one : (1 : ℚ) ≤ n := by exact_mod_cast pos
  have one' : (1 : ℚ) ≤ 10 ^ k := one_le_pow₀ (by norm_num)
  have complement : 0 ≤ 1 - roundoff := by linarith
  obtain ⟨s, m, e, integer, low₁, high₁⟩ :=
    finite_of_rounds (rounds_ofNat pos) (ofNat_le_pow_ten small)
  obtain ⟨t, m', e', power, low₂, high₂⟩ := finite_of_rounds (rounds_powerOfTen low)
    (pow_le_pow_right₀ (by norm_num) low)
  have below : (n : ℚ) * 10 ^ k * (1 - roundoff) ^ 2 ≤ m * 2 ^ e * (m' * 2 ^ e') := by
    calc (n : ℚ) * 10 ^ k * (1 - roundoff) ^ 2
        = (n * (1 - roundoff)) * (10 ^ k * (1 - roundoff)) := by ring
      _ ≤ (m * 2 ^ e) * (m' * 2 ^ e') := by gcongr
  have above : (m * 2 ^ e * (m' * 2 ^ e') : ℚ) ≤ n * 10 ^ k * (1 + roundoff) ^ 2 := by
    calc (m * 2 ^ e * (m' * 2 ^ e') : ℚ)
        ≤ (n * (1 + roundoff)) * (10 ^ k * (1 + roundoff)) := by gcongr
      _ = n * 10 ^ k * (1 + roundoff) ^ 2 := by ring
  have half : (1 / 2 : ℚ) ≤ m * 2 ^ e * (m' * 2 ^ e') := by
    calc (1 / 2 : ℚ) ≤ 1 * 1 * (1 - roundoff) ^ 2 := by nlinarith
      _ ≤ n * 10 ^ k * (1 - roundoff) ^ 2 := by gcongr
      _ ≤ _ := below
  obtain ⟨r, near, outcome⟩ := rounds_mul (s := s) (t := t) half
  obtain ⟨low₃, high₃⟩ := bounds_of_near near
  refine ⟨r, ?_, ?_, ?_⟩
  · calc _ = n * 10 ^ k * (1 - roundoff) ^ 2 * (1 - roundoff) := by ring
      _ ≤ m * 2 ^ e * (m' * 2 ^ e') * (1 - roundoff) := by gcongr
      _ ≤ r := low₃
  · calc r ≤ m * 2 ^ e * (m' * 2 ^ e') * (1 + roundoff) := high₃
      _ ≤ n * 10 ^ k * (1 + roundoff) ^ 2 * (1 + roundoff) := by gcongr
      _ = _ := by ring
  · have bound : (2 : ℚ) ^ Format.double.bound = overflow := zpow_natCast 2 1024
    rw [bound] at outcome
    unfold scale
    simp only [integer, power]
    rw [if_neg (by omega), if_neg (by omega)]
    obtain ⟨large, s', infinite⟩ | ⟨small, s', m'', e'', finite, -⟩ := outcome
    · simp [infinite, not_lt.2 large]
    · simp [finite, small]

theorem lt_pow_ten {k : Int} (large : 308 < k) : overflow < 10 ^ k := by
  have step : (10 : ℚ) ^ 308 * 10 = 10 ^ (309 : Int) := (pow_succ (10 : ℚ) 308).symm
  have bound : overflow < 10 ^ 308 * 10 := lt_pow_ten_mul (by norm_num)
  rw [step] at bound
  exact bound.trans_le (zpow_le_zpow_right₀ (by norm_num) (by omega))

theorem isSome_scale_of_neg {k : Int} (negative : k < 0) (c : Nat) : (scale c k).isSome := by
  unfold scale
  simp [negative]

theorem isSome_scale_zero (k : Int) : (scale 0 k).isSome := by
  have zero : Format.double.ofNat 0 = .finite false 0 (-1074) := rfl
  unfold scale
  simp only [zero, Number.isZero, beq_self_eq_true, ↓reduceIte]
  split_ifs
  · rfl
  · rfl
  · split
    · rename_i infinite
      -- a product with zero is never infinite, whatever the power was rounded to
      cases power : Format.double.powerOfTen k <;>
        simp [power, Number.mul, Number.scaled, Format.ofRatio] at infinite
    · rfl

theorem scale_of_large {c : Nat} (pos : 0 < c) (small : c ≤ limit) {k : Int} (large : 308 < k) :
    scale c k = none := by
  obtain ⟨s, m, e, integer, low, -⟩ :=
    finite_of_rounds (rounds_ofNat pos) (ofNat_le_pow_ten small)
  have solid : m ≠ 0 := by
    rintro rfl
    have tiny := roundoff_bounds.2
    have one : (1 : ℚ) ≤ c := by exact_mod_cast pos
    rw [Nat.cast_zero, zero_mul] at low
    nlinarith
  unfold scale
  simp only [integer]
  rw [if_neg (by omega), if_pos large]
  simp [Number.isZero, solid]

/-- A collected integer times a power of ten is in range if it is below the bound of the format,
whichever way the factors and the product are rounded. -/
theorem isSome_scale_of_lt {c : Nat} {k : Int} (small : c ≤ limit)
    (fits : (c * 10 ^ k : ℚ) * (1 + roundoff) ^ 3 < overflow) : (scale c k).isSome := by
  have positive := roundoff_bounds.1
  rcases Nat.eq_zero_or_pos c with rfl | pos
  · exact isSome_scale_zero k
  by_cases negative : k < 0
  · exact isSome_scale_of_neg negative c
  by_cases large : 308 < k
  · have one : (1 : ℚ) ≤ c := by exact_mod_cast pos
    have above : overflow < c * 10 ^ k * (1 + roundoff) ^ 3 := by
      calc overflow < 10 ^ k := lt_pow_ten large
        _ = 1 * 10 ^ k * 1 ^ 3 := by ring
        _ ≤ c * 10 ^ k * (1 + roundoff) ^ 3 := by gcongr; linarith
    exact absurd fits (not_lt.2 above.le)
  · lift k to Nat using by omega
    obtain ⟨r, -, below, range⟩ := scale_near pos small (by omega : k ≤ 308)
    rw [zpow_natCast] at fits
    exact range.2 (below.trans_lt fits)

theorem scale_eq_none_of_le {c : Nat} {k : Int} (small : c ≤ limit)
    (large : overflow ≤ c * 10 ^ k * (1 - roundoff) ^ 3) : scale c k = none := by
  have ⟨positive, tiny⟩ := roundoff_bounds
  have above : (10 : ℚ) ^ 308 < c * 10 ^ k := by
    have shrinks : (1 - roundoff) ^ 3 ≤ 1 := pow_le_one₀ (by linarith) (by linarith)
    calc (10 : ℚ) ^ 308 < overflow := pow_ten_lt
      _ ≤ c * 10 ^ k * (1 - roundoff) ^ 3 := large
      _ ≤ c * 10 ^ k := mul_le_of_le_one_right (by positivity) shrinks
  have bound := ofNat_le_pow_ten small
  have pos : 0 < c := by
    rcases Nat.eq_zero_or_pos c with rfl | pos
    · rw [Nat.cast_zero, zero_mul] at above
      exact absurd above (not_lt.2 (pow_nonneg (by norm_num) _))
    · exact pos
  by_cases huge : 308 < k
  · exact scale_of_large pos small huge
  by_cases negative : k < 0
  · have fraction : (10 : ℚ) ^ k ≤ 1 := zpow_le_one_of_nonpos₀ (by norm_num) negative.le
    have below : (c * 10 ^ k : ℚ) ≤ c := mul_le_of_le_one_right (by positivity) fraction
    exact absurd above (not_lt.2 (below.trans bound))
  · lift k to Nat using by omega
    obtain ⟨r, above, -, range⟩ := scale_near pos small (by omega : k ≤ 308)
    rw [zpow_natCast] at large
    rw [← Option.not_isSome_iff_eq_none, range]
    exact not_lt.2 (large.trans above)

/-! ### Written numbers -/

theorem near_of_same_digits {n : Nat} (many : 2 ^ 60 ≤ n) {x y z : ℚ} (unit : 0 < z)
    (low : n * z ≤ x) (high : x < (n + 1) * z) (low' : n * z ≤ y) (high' : y < (n + 1) * z) :
    |x - y| ≤ y / 2 ^ 60 := by
  have large : (2 : ℚ) ^ 60 ≤ n := by exact_mod_cast many
  have digit : z ≤ y / 2 ^ 60 := by
    rw [le_div_iff₀ (by positivity)]
    calc z * 2 ^ 60 ≤ z * n := by gcongr
      _ = n * z := mul_comm _ _
      _ ≤ y := low'
  rw [abs_le]
  constructor <;> linarith

theorem size_bounds {digits : List Char} (all : ∀ c ∈ digits, c.isDigit) (n : Nat) (k : Int) :
    (n * 10 ^ (k + digits.length) : ℚ) ≤ extend n digits * 10 ^ k ∧
      (extend n digits * 10 ^ k : ℚ) < (n + 1) * 10 ^ (k + digits.length) := by
  obtain ⟨low, high⟩ := extend_bounds all n
  have low : (n * 10 ^ digits.length : ℚ) ≤ extend n digits := by exact_mod_cast low
  have high : (extend n digits : ℚ) < (n + 1) * 10 ^ digits.length := by exact_mod_cast high
  have split : (10 : ℚ) ^ (k + digits.length) = 10 ^ digits.length * 10 ^ k := by
    rw [zpow_add₀ (by norm_num), zpow_natCast, mul_comm]
  rw [split, ← mul_assoc, ← mul_assoc]
  exact ⟨by gcongr, by gcongr⟩

theorem collected_near {whole left fraction rest : List Char}
    (all : ∀ c ∈ whole ++ left ++ (fraction ++ rest), c.isDigit)
    (wholeStops : left ≠ [] → 2 ^ 60 ≤ extend 0 whole)
    (fractionStops : rest ≠ [] → 2 ^ 60 ≤ extend (extend 0 whole) fraction) (k : Int) :
    |(extend 0 (whole ++ left ++ (fraction ++ rest)) * 10 ^ (k - (fraction ++ rest).length) : ℚ) -
        extend (extend 0 whole) fraction * 10 ^ (k + left.length - fraction.length)| ≤
      extend (extend 0 whole) fraction * 10 ^ (k + left.length - fraction.length) / 2 ^ 60 := by
  have fractionDigits : ∀ c ∈ fraction, c.isDigit := fun c member => all c (by simp [member])
  have restDigits : ∀ c ∈ rest, c.isDigit := fun c member => all c (by simp [member])
  have laterDigits : ∀ c ∈ left ++ (fraction ++ rest), c.isDigit := by
    intro c member
    exact all c (by rw [List.append_assoc]; exact List.mem_append_right whole member)
  have unit (e : Int) : (0 : ℚ) < 10 ^ e := zpow_pos (by norm_num) e
  by_cases full : left = []
  · subst full
    have size : extend 0 (whole ++ [] ++ (fraction ++ rest)) =
        extend (extend (extend 0 whole) fraction) rest := by
      rw [List.append_nil, extend_append, extend_append]
    rw [size]
    generalize extend (extend 0 whole) fraction = c at fractionStops ⊢
    by_cases exact' : rest = []
    · subst exact'
      have same : k - ((fraction ++ []).length : Int) =
          k + (([] : List Char).length : Int) - fraction.length := by simp
      rw [same, extend, List.foldl_nil, sub_self, abs_zero]
      have := unit (k + (([] : List Char).length : Int) - fraction.length)
      positivity
    · have bounds := size_bounds restDigits c (k - ((fraction ++ rest).length : Int))
      have order : k - ((fraction ++ rest).length : Int) + rest.length =
          k + (([] : List Char).length : Int) - fraction.length := by
        simp only [List.length_append, List.length_nil]
        omega
      rw [order] at bounds
      have z := unit (k + (([] : List Char).length : Int) - fraction.length)
      exact near_of_same_digits (fractionStops exact') z bounds.1 bounds.2 le_rfl (by linarith)
  · have size : extend 0 (whole ++ left ++ (fraction ++ rest)) =
        extend (extend 0 whole) (left ++ (fraction ++ rest)) := by
      rw [List.append_assoc, extend_append]
    rw [size]
    have whole' := wholeStops full
    have bounds := size_bounds laterDigits (extend 0 whole)
      (k - ((fraction ++ rest).length : Int))
    have bounds' := size_bounds fractionDigits (extend 0 whole)
      (k + left.length - fraction.length)
    have order : k - ((fraction ++ rest).length : Int) +
        ((left ++ (fraction ++ rest)).length : Int) = k + left.length := by
      simp only [List.length_append]
      omega
    rw [order] at bounds
    rw [sub_add_cancel] at bounds'
    exact near_of_same_digits whole' (unit _) bounds.1 bounds.2 bounds'.1 bounds'.2

theorem many_of_stop {n : Nat} {left : List Char} (digits : ∀ c ∈ left, c.isDigit)
    (stop : ∀ c ∈ left.head?, limit < 10 * n + (c.toNat - 48)) (some : left ≠ []) :
    2 ^ 60 ≤ n := by
  obtain ⟨c, cs, rfl⟩ := List.exists_cons_of_ne_nil some
  have next := stop c rfl
  have bounds := toNat_digit (digits c (by simp))
  rw [limit] at next
  omega

theorem inRange_iff_of_collect {w : Written} {n c count count' : Nat} {left rest : List Char}
    (same : collect 0 0 w.whole = (n, count, left))
    (same' : collect n 0 (w.fraction.getD []) = (c, count', rest))
    (scaled : left ≠ [] ∨ w.fraction ≠ none ∨ w.exponent ≠ none) :
    w.InRange ↔ (scale c (w.exponent.getD 0 + left.length - count')).isSome := by
  unfold Written.InRange Numeral.ofWritten
  rw [same]
  cases fraction : w.fraction with
  | some digits =>
    rw [fraction, Option.getD_some] at same'
    simp [same']
  | none =>
    rw [fraction, Option.getD_none, collect] at same'
    obtain ⟨rfl, rfl, rfl⟩ : n = c ∧ 0 = count' ∧ [] = rest := by simpa using same'
    cases exponent : w.exponent with
    | some k => simp [collect]
    | none =>
      have left : left ≠ [] := by simpa [fraction, exponent] using scaled
      simp [left]

/-- A whole number of which all digits are collected is one, or it is a negative one outside of 64
bits, or a negative zero. -/
theorem inRange_or_of_collect {w : Written} {n count : Nat}
    (same : collect 0 0 w.whole = (n, count, [])) (fraction : w.fraction = none)
    (exponent : w.exponent = none) : w.InRange ∨ (w.InRange ↔ (scale n 0).isSome) := by
  unfold Written.InRange Numeral.ofWritten
  simp only [same, fraction, exponent, ne_eq, not_true_eq_false, ↓reduceIte]
  cases w.negative with
  | false => exact .inl rfl
  | true =>
    by_cases outside : n = 0 ∨ 0x8000000000000000 < n
    · exact .inr (by simp [outside])
    · exact .inl (by simp [outside])

theorem exists_collected {w : Written} (whole : ∀ c ∈ w.whole, c.isDigit)
    (fraction : ∀ c ∈ w.fraction.getD [], c.isDigit) :
    (w.InRange ∧ w.size ≤ limit) ∨ ∃ c k, c ≤ limit ∧ (w.InRange ↔ (scale c k).isSome) ∧
      |w.size - c * 10 ^ k| ≤ c * 10 ^ k / 2 ^ 60 := by
  obtain ⟨taken, left, split, same, small, stop⟩ := collect_spec (Nat.zero_le limit) 0 w.whole
  obtain ⟨taken', left', split', same', small', stop'⟩ :=
    collect_spec small 0 (w.fraction.getD [])
  have digits : ∀ c ∈ taken ++ left ++ (taken' ++ left'), c.isDigit := by
    rw [← split, ← split']
    simpa [or_imp, forall_and] using ⟨whole, fraction⟩
  have near := collected_near digits
    (many_of_stop (fun c member => whole c (by simp [split, member])) stop)
    (many_of_stop (fun c member => fraction c (by simp [split', member])) stop')
    (w.exponent.getD 0)
  rw [← split, ← split'] at near
  rw [Nat.zero_add] at same'
  by_cases scaled : left ≠ [] ∨ w.fraction ≠ none ∨ w.exponent ≠ none
  · exact .inr ⟨_, _, small', inRange_iff_of_collect same same' scaled, near⟩
  · simp only [ne_eq, not_or, not_not] at scaled
    obtain ⟨rfl, noFraction, noExponent⟩ := scaled
    have size : w.size = extend 0 taken := by
      simp [Written.size, noFraction, noExponent, split, extend, Number.ofDigits]
    rcases inRange_or_of_collect same noFraction noExponent with range | range
    · exact .inl ⟨range, by rw [size]; exact_mod_cast small⟩
    · refine .inr ⟨_, 0, small, range, ?_⟩
      rw [size, zpow_zero, mul_one, sub_self, abs_zero]
      positivity

theorem spread_of_near {x z : ℚ} (near : |x - z| ≤ z / 2 ^ 60) :
    z * (1 + roundoff) ^ 3 ≤ x * (1 + 1 / 2 ^ 51) ∧
      x * (1 - 1 / 2 ^ 51) ≤ z * (1 - roundoff) ^ 3 := by
  have ⟨low, high⟩ := abs_le.1 near
  have positive : 0 ≤ z := by
    have := (abs_nonneg _).trans near
    linarith
  have up : (1 + roundoff) ^ 3 ≤ (1 - 1 / 2 ^ 60) * (1 + 1 / 2 ^ 51) := by
    rw [roundoff]
    norm_num
  have down : (1 + 1 / 2 ^ 60) * (1 - 1 / 2 ^ 51) ≤ (1 - roundoff) ^ 3 := by
    rw [roundoff]
    norm_num
  constructor
  · calc z * (1 + roundoff) ^ 3 ≤ z * ((1 - 1 / 2 ^ 60) * (1 + 1 / 2 ^ 51)) := by gcongr
      _ = z * (1 - 1 / 2 ^ 60) * (1 + 1 / 2 ^ 51) := by ring
      _ ≤ x * (1 + 1 / 2 ^ 51) := by gcongr; linarith
  · calc x * (1 - 1 / 2 ^ 51) ≤ z * (1 + 1 / 2 ^ 60) * (1 - 1 / 2 ^ 51) := by
          gcongr
          linarith
      _ = z * ((1 + 1 / 2 ^ 60) * (1 - 1 / 2 ^ 51)) := by ring
      _ ≤ z * (1 - roundoff) ^ 3 := by gcongr

section Range

variable {w : Written} (whole : ∀ c ∈ w.whole, c.isDigit)
  (fraction : ∀ c ∈ w.fraction.getD [], c.isDigit)

include whole fraction

theorem inRange_of_size_lt (fits : w.size * (1 + 1 / 2 ^ 51) < overflow) : w.InRange := by
  obtain ⟨range, -⟩ | ⟨c, k, small, range, near⟩ := exists_collected whole fraction
  · exact range
  · have spread := spread_of_near near
    exact range.2 (isSome_scale_of_lt small (spread.1.trans_lt fits))

theorem not_inRange_of_le_size (large : overflow ≤ w.size * (1 - 1 / 2 ^ 51)) : ¬ w.InRange := by
  obtain ⟨-, below⟩ | ⟨c, k, small, range, near⟩ := exists_collected whole fraction
  · have bound := ofNat_le_pow_ten le_rfl
    have shrinks : w.size * (1 - 1 / 2 ^ 51) ≤ w.size :=
      mul_le_of_le_one_right (by unfold Written.size; positivity) (by norm_num)
    have less := (shrinks.trans (below.trans bound)).trans_lt pow_ten_lt
    exact absurd large (not_le.2 less)
  · have spread := spread_of_near near
    rw [range, scale_eq_none_of_le small (large.trans spread.2)]
    exact Bool.false_ne_true

end Range

end CssOutline.Json
