import CssOutline.Number
import Mathlib.Algebra.Order.Field.Power
import Mathlib.Algebra.Order.Ring.Rat
import Mathlib.Algebra.Field.Rat
import Mathlib.Tactic.Linarith
import Mathlib.Tactic.FieldSimp
import Mathlib.Tactic.Ring
import Mathlib.Tactic.NormNum
import Mathlib.Tactic.Positivity

/-! How far a number is from what it was rounded from. A ratio that is not too small keeps as many
binary digits as the format has, so it changes by at most one part in `2 ^ precision`; it becomes
infinite just if what it is rounded to is out of the format's range. -/

namespace CssOutline.Number

theorem pow_toNat {a : ℚ} (nonzero : a ≠ 0) (e : Int) : a ^ e.toNat = a ^ e * a ^ (-e).toNat := by
  rw [← zpow_natCast, ← zpow_natCast, ← zpow_add₀ nonzero]
  congr 1
  omega

theorem scaled_pos (num : Nat) {den : Nat} (pos : 0 < den) (e : Int) :
    0 < (scaled num den e).2 :=
  Nat.mul_pos pos (Nat.pow_pos (by decide))

theorem scaled_ratio (num : Nat) {den : Nat} (pos : 0 < den) (e : Int) :
    ((scaled num den e).1 : ℚ) / (scaled num den e).2 = num / den * 2 ^ e := by
  have denominator : (den : ℚ) ≠ 0 := by exact_mod_cast pos.ne'
  simp only [scaled, Nat.pow_eq, Nat.cast_mul, Nat.cast_pow, Nat.cast_ofNat, pow_toNat two_ne_zero e]
  field_simp

theorem nearest_near (num : Nat) {den : Nat} (pos : 0 < den) :
    |(nearest num den : ℚ) - num / den| ≤ 1 / 2 := by
  have small : num % den < den := Nat.mod_lt num pos
  have denominator : (0 : ℚ) < den := by exact_mod_cast pos
  have ratio : (num / den : ℚ) = (num / den : Nat) + (num % den : Nat) / (den : ℚ) := by
    have parts : (num : ℚ) = den * (num / den : Nat) + (num % den : Nat) := by
      exact_mod_cast (Nat.div_add_mod num den).symm
    field_simp
    linarith
  rw [ratio, abs_le]
  unfold nearest
  dsimp only
  split_ifs with up
  · have half : (1 / 2 : ℚ) ≤ (num % den : Nat) / (den : ℚ) := by
      rw [le_div_iff₀ denominator]
      have : (den : ℚ) ≤ 2 * (num % den : Nat) := by exact_mod_cast (by omega)
      linarith
    have whole : ((num % den : Nat) : ℚ) / den ≤ 1 := by
      rw [div_le_one denominator]
      exact_mod_cast small.le
    push_cast
    constructor <;> linarith
  · have half : ((num % den : Nat) : ℚ) / den ≤ 1 / 2 := by
      rw [div_le_iff₀ denominator]
      have : 2 * ((num % den : Nat) : ℚ) ≤ den := by exact_mod_cast (by omega)
      linarith
    have positive : (0 : ℚ) ≤ ((num % den : Nat) : ℚ) / den := by positivity
    constructor <;> linarith

theorem le_log2 {n : Nat} (pos : 0 < n) : (2 : ℚ) ^ (n.log2 : Int) ≤ n := by
  rw [zpow_natCast]
  exact_mod_cast Nat.log2_self_le pos.ne'

theorem lt_log2 (n : Nat) : (n : ℚ) < 2 ^ ((n.log2 : Int) + 1) := by
  have below : n < 2 ^ (n.log2 + 1) := Nat.lt_log2_self
  exact_mod_cast below

theorem magnitude_spec {num den : Nat} (positive : 0 < num) (pos : 0 < den) :
    (2 : ℚ) ^ magnitude num den ≤ num / den ∧ (num / den : ℚ) < 2 ^ (magnitude num den + 1) := by
  have denominator : (0 : ℚ) < den := by exact_mod_cast pos
  have low := le_log2 positive
  have high := lt_log2 num
  have low' := le_log2 pos
  have high' := lt_log2 den
  set k : Int := (num.log2 : Int) - den.log2 with difference
  have above : (2 : ℚ) ^ (k - 1) ≤ num / den := by
    rw [le_div_iff₀ denominator]
    calc (2 : ℚ) ^ (k - 1) * den ≤ 2 ^ (k - 1) * 2 ^ ((den.log2 : Int) + 1) := by gcongr
      _ = 2 ^ (num.log2 : Int) := by rw [← zpow_add₀ two_ne_zero]; congr 1; omega
      _ ≤ num := low
  have below : (num / den : ℚ) < 2 ^ (k + 1) := by
    rw [div_lt_iff₀ denominator]
    calc (num : ℚ) < 2 ^ ((num.log2 : Int) + 1) := high
      _ = 2 ^ (k + 1) * 2 ^ (den.log2 : Int) := by
        rw [← zpow_add₀ two_ne_zero]; congr 1; omega
      _ ≤ 2 ^ (k + 1) * den := by gcongr
  have fits : (scaled num den (-k)).2 ≤ (scaled num den (-k)).1 ↔ (2 : ℚ) ^ k ≤ num / den := by
    have scaled := scaled_ratio num pos (-k)
    have bottom := scaled_pos num pos (-k)
    have bottom' : (0 : ℚ) < (Number.scaled num den (-k)).2 := by exact_mod_cast bottom
    rw [← Nat.cast_le (α := ℚ), ← one_le_div bottom', scaled, zpow_neg, ← div_eq_mul_inv,
      one_le_div (by positivity)]
  have unfolded : magnitude num den =
      if (scaled num den (-k)).2 ≤ (scaled num den (-k)).1 then k else k - 1 := rfl
  rw [unfolded]
  split_ifs with large
  · exact ⟨fits.1 large, below⟩
  · refine ⟨above, ?_⟩
    rw [sub_add_cancel]
    exact lt_of_not_ge fun le => large (fits.2 le)

theorem bound_le_iff {m : Nat} (pos : 0 < m) (bound e : Int) :
    bound ≤ m.log2 + e ↔ (2 : ℚ) ^ bound ≤ m * 2 ^ e := by
  have low : (2 : ℚ) ^ ((m.log2 : Int) + e) ≤ m * 2 ^ e := by
    rw [zpow_add₀ two_ne_zero]
    gcongr
    exact le_log2 pos
  have high : (m * 2 ^ e : ℚ) < 2 ^ ((m.log2 : Int) + e + 1) := by
    rw [add_right_comm, zpow_add₀ two_ne_zero]
    gcongr
    exact lt_log2 m
  constructor
  · intro le
    exact (zpow_le_zpow_right₀ one_le_two le).trans low
  · intro le
    have less := (zpow_lt_zpow_iff_right₀ one_lt_two).1 (le.trans_lt high)
    omega

/-- A significand that rounding carried to one digit too many is halved, and stands for the same. -/
theorem carry_spec {precision m : Nat} (precise : 0 < precision) (pos : 0 < m) (e : Int) :
    ∃ m' e', (if m = Nat.pow 2 precision then (m / 2, e + 1) else (m, e)) = (m', e') ∧
      (m' * 2 ^ e' : ℚ) = m * 2 ^ e ∧ 0 < m' := by
  split_ifs with full
  · obtain ⟨p, rfl⟩ : ∃ p, precision = p + 1 := ⟨precision - 1, by omega⟩
    have half : m / 2 = 2 ^ p := by
      rw [full, Nat.pow_eq, pow_succ, Nat.mul_div_cancel _ two_pos]
    refine ⟨_, _, rfl, ?_, by rw [half]; positivity⟩
    rw [half, full, Nat.pow_eq, zpow_add_one₀ two_ne_zero]
    push_cast
    ring
  · exact ⟨m, e, rfl, rfl, pos⟩

theorem Format.ofRatio_eq (f : Format) (s : Bool) {num : Nat} (nonzero : num ≠ 0) (den : Nat) :
    f.ofRatio s num den =
      let e := max (magnitude num den - (f.precision - 1)) f.least
      let m := nearest (scaled num den (-e)).1 (scaled num den (-e)).2
      let p := if m = Nat.pow 2 f.precision then (m / 2, e + 1) else (m, e)
      if f.bound ≤ p.1.log2 + p.2 then .infinite s else .finite s p.1 p.2 := by
  rw [Format.ofRatio, if_neg nonzero]

/-- A number of the format near `x`, or infinity if that is out of range. -/
def Format.Rounds (f : Format) (x : ℚ) (y : Number) : Prop :=
  ∃ r : ℚ, |r - x| ≤ x / 2 ^ f.precision ∧
    ((2 ^ f.bound ≤ r ∧ ∃ s, y = .infinite s) ∨
      (r < 2 ^ f.bound ∧ ∃ s m e, y = .finite s m e ∧ (m * 2 ^ e : ℚ) = r))

theorem Format.rounds_ofRatio {f : Format} (precise : 0 < f.precision) (s : Bool) {num den : Nat}
    (positive : 0 < num) (pos : 0 < den)
    (normal : f.least + f.precision ≤ magnitude num den + 1) :
    f.Rounds (num / den) (f.ofRatio s num den) := by
  set k := magnitude num den with order
  set e : Int := k - (f.precision - 1) with exponent
  have top : max (k - ((f.precision : Int) - 1)) f.least = e := by omega
  have ratio := scaled_ratio num pos (-e)
  have bottom := scaled_pos num pos (-e)
  set n := (scaled num den (-e)).1
  set d := (scaled num den (-e)).2
  have near := nearest_near n bottom
  rw [ratio] at near
  set m := nearest n d
  have lower : (2 : ℚ) ^ (f.precision - 1) ≤ num / den * 2 ^ (-e) := by
    have low := (magnitude_spec positive pos).1
    calc (2 : ℚ) ^ (f.precision - 1) = 2 ^ k * 2 ^ (-e) := by
          rw [← zpow_add₀ two_ne_zero, ← zpow_natCast]; congr 1; omega
      _ ≤ num / den * 2 ^ (-e) := by gcongr
  have double : (2 : ℚ) ^ f.precision = 2 * 2 ^ (f.precision - 1) := by
    rw [← pow_succ', Nat.sub_add_cancel precise]
  have one : (1 : ℚ) ≤ 2 ^ (f.precision - 1) := one_le_pow₀ one_le_two
  have some : 0 < m := by
    have := (abs_le.1 near).1
    have : (0 : ℚ) < m := by linarith
    exact_mod_cast this
  obtain ⟨m', e', same, value, some'⟩ := carry_spec precise some e
  have unfolded : f.ofRatio s num den =
      if f.bound ≤ m'.log2 + e' then .infinite s else .finite s m' e' := by
    rw [Format.ofRatio_eq f s positive.ne']
    simp only [← order, top]
    exact congrArg (fun p : Nat × Int => if f.bound ≤ p.1.log2 + p.2 then Number.infinite s
      else .finite s p.1 p.2) same
  have unit : (0 : ℚ) < 2 ^ e := by positivity
  have back : (num / den : ℚ) = num / den * 2 ^ (-e) * 2 ^ e := by
    rw [mul_assoc, ← zpow_add₀ two_ne_zero, neg_add_cancel, zpow_zero, mul_one]
  refine ⟨m * 2 ^ e, ?_, ?_⟩
  · have apart : |(m * 2 ^ e : ℚ) - num / den| = |(m : ℚ) - num / den * 2 ^ (-e)| * 2 ^ e := by
      conv_lhs => rw [back]
      rw [← sub_mul, abs_mul, abs_of_pos unit]
    rw [apart, le_div_iff₀ (by positivity), double]
    calc |(m : ℚ) - num / den * 2 ^ (-e)| * 2 ^ e * (2 * 2 ^ (f.precision - 1))
        ≤ 1 / 2 * 2 ^ e * (2 * 2 ^ (f.precision - 1)) := by gcongr
      _ = 2 ^ (f.precision - 1) * 2 ^ e := by ring
      _ ≤ num / den * 2 ^ (-e) * 2 ^ e := by gcongr
      _ = num / den := back.symm
  · rw [unfolded, ← value]
    have limit := bound_le_iff some' f.bound e'
    split_ifs with large
    · exact .inl ⟨limit.1 large, s, rfl⟩
    · exact .inr ⟨lt_of_not_ge fun le => large (limit.2 le), s, m', e', rfl, rfl⟩

end CssOutline.Number
