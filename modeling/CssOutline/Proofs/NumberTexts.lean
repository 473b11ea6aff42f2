import CssOutline.Proofs.HeldNumbers
import CssOutline.Proofs.JsonGrammar
import Mathlib.Data.Rat.Floor

/-! Texts of numbers. The digits of a number are those of the coarsest decimal grid with a point
that is rounded to it, so no text with fewer places reads back; and reading the text gives the
number. -/

namespace CssOutline.Number

theorem ten_pow_near : ∀ n < 1200,
    (10 ^ (n * 30103 / 100000) ≤ 2 ^ n ∧ 2 ^ n ≤ 10 ^ (n * 30103 / 100000 + 1)) ∧
      (n = 0 ∨ n * 30103 % 100000 ≠ 0) := by
  decide +kernel

theorem neg_div_eq {n : Nat} (uneven : n * 30103 % 100000 ≠ 0) :
    -(n : Int) * 30103 / 100000 = -((n * 30103 / 100000 : Nat) + 1 : Int) := by
  omega

/-- In the range of double precision `30103 / 100000` is as good as the logarithm of two. -/
theorem digits_bounds {n : Int} (low : -1200 < n) (high : n < 1200) :
    (10 : ℚ) ^ (n * 30103).fdiv 100000 ≤ 2 ^ n ∧
      (2 : ℚ) ^ n ≤ 10 ^ ((n * 30103).fdiv 100000 + 1) := by
  rw [Int.fdiv_eq_ediv_of_nonneg _ (by norm_num)]
  obtain ⟨n, rfl⟩ | ⟨n, rfl⟩ : (∃ i : Nat, n = i) ∨ ∃ i : Nat, n = -(i + 1 : Nat) := by
    cases n with
    | ofNat i => exact .inl ⟨i, rfl⟩
    | negSucc i => exact .inr ⟨i, rfl⟩
  · obtain ⟨⟨down, up⟩, _⟩ := ten_pow_near n (Int.ofNat_lt.1 high)
    exact ⟨by exact_mod_cast down, by exact_mod_cast up⟩
  · have small : n + 1 < 1200 := by omega
    obtain ⟨⟨down, up⟩, uneven⟩ := ten_pow_near (n + 1) small
    have down : (10 : ℚ) ^ ((n + 1) * 30103 / 100000) ≤ 2 ^ (n + 1) := by exact_mod_cast down
    have up : (2 : ℚ) ^ (n + 1) ≤ 10 ^ ((n + 1) * 30103 / 100000 + 1) := by exact_mod_cast up
    rw [neg_div_eq (uneven.resolve_left n.succ_ne_zero), neg_add, neg_add_cancel_right, ← neg_add,
      ← Nat.cast_add_one, zpow_neg, zpow_neg, zpow_neg, zpow_natCast, zpow_natCast, zpow_natCast]
    exact ⟨inv_anti₀ (by positivity) up, inv_anti₀ (by positivity) down⟩

namespace Format

variable {f : Format} {m : Nat} {e : Int}

theorem ReadsBack.of_between {x y : ℚ} (back : f.ReadsBack m e x)
    (between : x ≤ y ∧ y ≤ m * 2 ^ e ∨ m * 2 ^ e ≤ y ∧ y ≤ x) : f.ReadsBack m e y := by
  have unit : (0 : ℚ) < 2 ^ e := by positivity
  have below : (m - f.reach m e) * 2 ^ e < m * 2 ^ e := by
    gcongr
    linarith [(reach_le f m e).1]
  have above : (m * 2 ^ e : ℚ) < (m + 1 / 2) * 2 ^ e := by
    gcongr
    linarith
  obtain ⟨low, high, odd⟩ := back
  rcases between with ⟨less, most⟩ | ⟨least, greater⟩
  · exact ⟨low.trans less, most.trans above.le,
      fun uneven => ⟨(odd uneven).1.trans_le less, most.trans_lt above⟩⟩
  · exact ⟨below.le.trans least, greater.trans high,
      fun uneven => ⟨below.trans_le least, greater.trans_lt (odd uneven).2⟩⟩

/-- What `gridPoint?` computes with, in quarters of the unit of the last place. -/
def readsBackAt (m below factor unit c : Nat) : Bool :=
  if m % 2 = 0 then
    decide ((4 * m - below) * factor ≤ c * unit) && decide (c * unit ≤ (4 * m + 2) * factor)
  else decide ((4 * m - below) * factor < c * unit) && decide (c * unit < (4 * m + 2) * factor)

def pointAt? (m below factor unit : Nat) : Option Nat :=
  let value := 4 * m * factor
  let q := value / unit
  match readsBackAt m below factor unit q, readsBackAt m below factor unit (q + 1) with
  | true, true => if (q + 1) * unit - value ≤ value - q * unit then some (q + 1) else some q
  | true, false => some q
  | false, true => some (q + 1)
  | false, false => none

theorem gridPoint?_eq (f : Format) (m : Nat) (e k : Int) :
    gridPoint? f m e k =
      pointAt? m (if m = 2 ^ (f.precision - 1) ∧ f.least < e then 1 else 2)
        (2 ^ (e - 2).toNat * 10 ^ (-k).toNat) (2 ^ (2 - e).toNat * 10 ^ k.toNat) :=
  rfl

theorem quarters (e : Int) : (2 : ℚ) ^ e = 4 * 2 ^ (e - 2) := by
  rw [show (4 : ℚ) = 2 ^ (2 : Int) by norm_num, ← zpow_add₀ two_ne_zero, add_sub_cancel]

theorem compare_scaled {a b : Nat} {x y grid unit : ℚ} (grid' : 0 < grid) (unit' : 0 < unit)
    (left : a * grid = x * unit) (right : b * grid = y * unit) :
    (a ≤ b ↔ x ≤ y) ∧ (a < b ↔ x < y) := by
  have le : a ≤ b ↔ x ≤ y := by
    rw [← Nat.cast_le (α := ℚ), ← mul_le_mul_iff_left₀ grid', left, right,
      mul_le_mul_iff_left₀ unit']
  have lt : a < b ↔ x < y := by
    rw [← Nat.cast_lt (α := ℚ), ← mul_lt_mul_iff_left₀ grid', left, right,
      mul_lt_mul_iff_left₀ unit']
  exact ⟨le, lt⟩

theorem scaled_point (unit c : Nat) (k : Int) :
    ((c * unit : Nat) : ℚ) * 10 ^ k = c * 10 ^ k * unit := by
  push_cast
  ring

theorem closer_iff {v q unit : Nat} {k : Int} {x : ℚ} (some : 0 < unit)
    (value : (v * 10 ^ k : ℚ) = x * unit) (below : q * unit ≤ v) :
    (q + 1) * unit - v ≤ v - q * unit ↔
      ((q + 1 : Nat) * 10 ^ k - x : ℚ) ≤ x - q * 10 ^ k := by
  have both : (((q + 1) * unit + q * unit : Nat) : ℚ) * 10 ^ k =
      ((q + 1 : Nat) * 10 ^ k + q * 10 ^ k) * unit := by
    rw [Nat.cast_add, add_mul, scaled_point, scaled_point, add_mul]
  have twice : ((2 * v : Nat) : ℚ) * 10 ^ k = 2 * x * unit := by
    rw [Nat.cast_mul, mul_assoc, value, Nat.cast_ofNat, mul_assoc]
  have same := (compare_scaled (by positivity) (by exact_mod_cast some) both twice).1
  constructor
  · intro le
    linarith [same.1 (by omega)]
  · intro le
    have := same.2 (by linarith)
    omega

theorem readsBackAt_iff {below factor unit : Nat} {k : Int} (some : 0 < unit)
    (ratio : (factor * 10 ^ k : ℚ) = unit * 2 ^ (e - 2)) (fits : below ≤ 4 * m)
    (reach : f.reach m e = below / 4) (c : Nat) :
    readsBackAt m below factor unit c ↔ f.ReadsBack m e (c * 10 ^ k) := by
  have unit' : (0 : ℚ) < unit := by exact_mod_cast some
  have grid : (0 : ℚ) < 10 ^ k := by positivity
  have low : (((4 * m - below) * factor : Nat) : ℚ) * 10 ^ k =
      (m - f.reach m e) * 2 ^ e * unit := by
    rw [reach, quarters]
    push_cast [fits]
    rw [mul_assoc, ratio]
    ring
  have point := scaled_point unit c k
  have high : (((4 * m + 2) * factor : Nat) : ℚ) * 10 ^ k = (m + 1 / 2) * 2 ^ e * unit := by
    rw [quarters]
    push_cast
    rw [mul_assoc, ratio]
    ring
  obtain ⟨le_low, lt_low⟩ := compare_scaled grid unit' low point
  obtain ⟨le_high, lt_high⟩ := compare_scaled grid unit' point high
  rw [readsBackAt]
  split_ifs with even
  · rw [Bool.and_eq_true, decide_eq_true_iff, decide_eq_true_iff, le_low, le_high]
    exact ⟨fun ⟨low, high⟩ => ⟨low, high, fun uneven => by omega⟩,
      fun back => ⟨back.low, back.high⟩⟩
  · rw [Bool.and_eq_true, decide_eq_true_iff, decide_eq_true_iff, lt_low, lt_high]
    exact ⟨fun ⟨low, high⟩ => ⟨low.le, high.le, fun _ => ⟨low, high⟩⟩,
      fun back => back.odd (by omega)⟩

/-- The point of the grid that is nearest to the number, of those that read back. -/
structure IsGridPoint (f : Format) (m : Nat) (e k : Int) (c : Nat) : Prop where
  back : f.ReadsBack m e (c * 10 ^ k)
  nearest : ∀ c' : Nat, f.ReadsBack m e (c' * 10 ^ k) →
    |(c * 10 ^ k - m * 2 ^ e : ℚ)| ≤ |(c' * 10 ^ k - m * 2 ^ e : ℚ)|

section Grid

variable {k : Int} {q : Nat} (floor : (q * 10 ^ k : ℚ) ≤ m * 2 ^ e)
  (ceiling : (m * 2 ^ e : ℚ) < (q + 1 : Nat) * 10 ^ k)

include floor ceiling

theorem floor_or_ceiling {c : Nat} (back : f.ReadsBack m e (c * 10 ^ k)) :
    (f.ReadsBack m e (q * 10 ^ k) ∧
        |(q * 10 ^ k - m * 2 ^ e : ℚ)| ≤ |(c * 10 ^ k - m * 2 ^ e : ℚ)|) ∨
      f.ReadsBack m e ((q + 1 : Nat) * 10 ^ k) ∧
        |((q + 1 : Nat) * 10 ^ k - m * 2 ^ e : ℚ)| ≤ |(c * 10 ^ k - m * 2 ^ e : ℚ)| := by
  obtain below | above := Nat.lt_or_ge q c
  · have order : ((q + 1 : Nat) * 10 ^ k : ℚ) ≤ c * 10 ^ k := by gcongr; omega
    refine .inr ⟨back.of_between (.inr ⟨ceiling.le, order⟩), ?_⟩
    rw [abs_of_pos (by linarith), abs_of_pos (by linarith)]
    linarith
  · have order : (c * 10 ^ k : ℚ) ≤ q * 10 ^ k := by gcongr
    refine .inl ⟨back.of_between (.inl ⟨order, floor⟩), ?_⟩
    rw [abs_of_nonpos (by linarith), abs_of_nonpos (by linarith)]
    linarith

theorem isGridPoint_floor (back : f.ReadsBack m e (q * 10 ^ k))
    (best : f.ReadsBack m e ((q + 1 : Nat) * 10 ^ k) →
      (m * 2 ^ e - q * 10 ^ k : ℚ) ≤ (q + 1 : Nat) * 10 ^ k - m * 2 ^ e) :
    f.IsGridPoint m e k q := by
  refine ⟨back, fun c back' => ?_⟩
  rcases floor_or_ceiling floor ceiling back' with ⟨_, near⟩ | ⟨next, near⟩
  · exact near
  · refine le_trans ?_ near
    rw [abs_of_nonpos (by linarith), abs_of_pos (by linarith)]
    linarith [best next]

theorem isGridPoint_ceiling (back : f.ReadsBack m e ((q + 1 : Nat) * 10 ^ k))
    (best : f.ReadsBack m e (q * 10 ^ k) →
      ((q + 1 : Nat) * 10 ^ k - m * 2 ^ e : ℚ) ≤ m * 2 ^ e - q * 10 ^ k) :
    f.IsGridPoint m e k (q + 1) := by
  refine ⟨back, fun c back' => ?_⟩
  rcases floor_or_ceiling floor ceiling back' with ⟨last, near⟩ | ⟨_, near⟩
  · refine le_trans ?_ near
    rw [abs_of_pos (by linarith), abs_of_nonpos (by linarith)]
    linarith [best last]
  · exact near

end Grid

theorem pointAt?_spec {below factor unit : Nat} {k : Int} (some : 0 < unit)
    (ratio : (factor * 10 ^ k : ℚ) = unit * 2 ^ (e - 2)) (fits : below ≤ 4 * m)
    (reach : f.reach m e = below / 4) :
    (∃ c, pointAt? m below factor unit = .some c ∧ f.IsGridPoint m e k c) ∨
      pointAt? m below factor unit = none ∧ ∀ c : Nat, ¬ f.ReadsBack m e (c * 10 ^ k) := by
  have tested (c : Nat) := readsBackAt_iff some ratio fits reach c
  have failed {c : Nat} (away : ¬ f.ReadsBack m e (c * 10 ^ k)) :
      readsBackAt m below factor unit c = false :=
    Bool.eq_false_iff.2 fun test => away ((tested c).1 test)
  have unit' : (0 : ℚ) < unit := by exact_mod_cast some
  have grid : (0 : ℚ) < 10 ^ k := by positivity
  have value : ((4 * m * factor : Nat) : ℚ) * 10 ^ k = m * 2 ^ e * unit := by
    rw [quarters]
    push_cast
    rw [mul_assoc, ratio]
    ring
  rw [pointAt?]
  generalize 4 * m * factor = v at value ⊢
  have below' : v / unit * unit ≤ v := Nat.div_mul_le_self v unit
  have above : v < (v / unit + 1) * unit :=
    (Nat.div_lt_iff_lt_mul some).1 (Nat.lt_succ_self _)
  generalize v / unit = q at below' above ⊢
  have floor : (q * 10 ^ k : ℚ) ≤ m * 2 ^ e :=
    (compare_scaled grid unit' (scaled_point unit q k) value).1.1 below'
  have ceiling : (m * 2 ^ e : ℚ) < (q + 1 : Nat) * 10 ^ k :=
    (compare_scaled grid unit' value (scaled_point unit (q + 1) k)).2.1 above
  have closer := closer_iff (q := q) some value below'
  -- Any other point that reads back is beyond one of these two, which then reads back as well.
  by_cases last : f.ReadsBack m e (q * 10 ^ k) <;>
    by_cases next : f.ReadsBack m e ((q + 1 : Nat) * 10 ^ k)
  · rw [(tested q).2 last, (tested (q + 1)).2 next]
    dsimp only
    split_ifs with up
    · exact .inl ⟨_, rfl, isGridPoint_ceiling floor ceiling next fun _ => closer.1 up⟩
    · refine .inl ⟨_, rfl, isGridPoint_floor floor ceiling last fun _ => ?_⟩
      linarith [not_le.1 fun le => up (closer.2 le)]
  · rw [(tested q).2 last, failed next]
    exact .inl ⟨_, rfl, isGridPoint_floor floor ceiling last fun back => absurd back next⟩
  · rw [failed last, (tested (q + 1)).2 next]
    exact .inl ⟨_, rfl, isGridPoint_ceiling floor ceiling next fun back => absurd back last⟩
  · rw [failed last, failed next]
    refine .inr ⟨rfl, fun c back => ?_⟩
    rcases floor_or_ceiling floor ceiling back with ⟨back, _⟩ | ⟨back, _⟩
    · exact last back
    · exact next back

/-- A grid is given up only if none of its points reads back. -/
theorem gridPoint?_spec (f : Format) (pos : 0 < m) (e k : Int) :
    (∃ c, gridPoint? f m e k = some c ∧ f.IsGridPoint m e k c) ∨
      gridPoint? f m e k = none ∧ ∀ c : Nat, ¬ f.ReadsBack m e (c * 10 ^ k) := by
  rw [gridPoint?_eq]
  refine pointAt?_spec (Nat.mul_pos (Nat.pow_pos two_pos) (Nat.pow_pos (by decide))) ?_ ?_ ?_
  · push_cast
    rw [pow_toNat two_ne_zero (e - 2), pow_toNat (by norm_num : (10 : ℚ) ≠ 0) k, neg_sub]
    ring
  · split_ifs <;> omega
  · rw [Format.reach]
    split_ifs <;> norm_num

/-- What the coarsest grid with a point has: no decimal with a greater exponent reads back, and of
those with this exponent it is the nearest. -/
structure IsShortest (f : Format) (m : Nat) (e : Int) (d : Decimal) : Prop where
  point : f.IsGridPoint m e d.exponent d.digits
  coarsest : ∀ k, d.exponent < k → ∀ c : Nat, ¬ f.ReadsBack m e (c * 10 ^ k)

theorem shortestFrom_spec (pos : 0 < m) {steps : Nat} {k j : Int} (before : j ≤ k)
    (near : k < j + steps) {c : Nat} (back : f.ReadsBack m e (c * 10 ^ j))
    (coarser : ∀ i, k < i → ∀ c : Nat, ¬ f.ReadsBack m e (c * 10 ^ i)) :
    f.IsShortest m e (shortestFrom f m e steps k) := by
  induction steps generalizing k with
  | zero => omega
  | succ steps ih =>
    rw [shortestFrom]
    rcases gridPoint?_spec f pos e k with ⟨c', found, point⟩ | ⟨none, away⟩
    · rw [found]
      exact ⟨point, coarser⟩
    · rw [none]
      have other : j ≠ k := by
        rintro rfl
        exact away c back
      refine ih (by omega) (by omega) fun i after => ?_
      obtain rfl | after : i = k ∨ k < i := by omega
      · exact away
      · exact coarser i after

/-- A format of at most double precision and range. -/
structure IsUsual (f : Format) : Prop where
  precise : 0 < f.precision
  fine : f.precision ≤ 53
  low : -1100 ≤ f.least
  high : f.bound ≤ 1100

theorem isUsual : Format.single.IsUsual ∧ Format.double.IsUsual := by
  constructor <;> constructor <;> decide

theorem Fits.log2_bounds (fits : f.Fits m e) :
    f.least ≤ m.log2 + e ∧ m.log2 + e < f.bound ∧ m.log2 < f.precision := by
  have bounded : ¬ f.bound ≤ m.log2 + e := by
    rw [bound_le_iff fits.pos, not_le]
    exact fits.bounded
  have := fits.least
  exact ⟨by omega, by omega, (Nat.log2_lt fits.pos.ne').2 fits.small⟩

theorem lt_log2_half (m : Nat) (e : Int) :
    (m + 1 / 2 : ℚ) * 2 ^ e < 2 ^ ((m.log2 : Int) + e + 1) := by
  have below : m < 2 ^ (m.log2 + 1) := Nat.lt_log2_self
  have : (m + 1 : ℚ) ≤ 2 ^ (m.log2 + 1) := by exact_mod_cast below
  rw [add_right_comm, zpow_add₀ two_ne_zero, ← Nat.cast_add_one, zpow_natCast]
  gcongr
  linarith

theorem exists_fine_point (m : Nat) {k : Int} (fine : (10 : ℚ) ^ k < 2 ^ e / 2) :
    ∃ c : Nat, f.ReadsBack m e (c * 10 ^ k) := by
  have grid : (0 : ℚ) < 10 ^ k := by positivity
  have reach : 0 < f.reach m e * 2 ^ e := mul_pos (reach_le f m e).1 (by positivity)
  have value : (0 : ℚ) ≤ m * 2 ^ e / 10 ^ k := by positivity
  have above : (m * 2 ^ e : ℚ) < (⌊(m * 2 ^ e / 10 ^ k : ℚ)⌋₊ + 1 : Nat) * 10 ^ k := by
    rw [← div_lt_iff₀ grid]
    exact_mod_cast Nat.lt_floor_add_one _
  have below : ((⌊(m * 2 ^ e / 10 ^ k : ℚ)⌋₊ + 1 : Nat) * 10 ^ k : ℚ) ≤ m * 2 ^ e + 10 ^ k := by
    have := (le_div_iff₀ grid).1 (Nat.floor_le value)
    push_cast
    linarith
  exact ⟨_, by linarith, by linarith, fun _ => ⟨by linarith, by linarith⟩⟩

theorem isShortest_shortest (usual : f.IsUsual) (fits : f.Fits m e) :
    f.IsShortest m e (shortest f m e) := by
  obtain ⟨least, most, precise⟩ := fits.log2_bounds
  have { fine, low, high, .. } := usual
  rw [shortest]
  set l : Int := m.log2 + e with order
  obtain ⟨down, up⟩ := digits_bounds (n := l + 1) (by omega) (by omega)
  set q : Int := ((l + 1) * 30103).fdiv 100000
  -- The last grid is finer than half a unit, so it has a point; the ones before the first are
  -- coarser than the number is large.
  have point : (10 : ℚ) ^ (q + 1 - 19) < 2 ^ e / 2 := by
    have digits : (2 : ℚ) ^ (l + 1) ≤ 2 ^ 53 * 2 ^ e := by
      rw [← zpow_natCast, ← zpow_add₀ two_ne_zero]
      exact zpow_le_zpow_right₀ one_le_two (by push_cast; omega)
    have unit : (0 : ℚ) < 2 ^ e := by positivity
    calc (10 : ℚ) ^ (q + 1 - 19) = 10 ^ q / 10 ^ 18 := by
          rw [show q + 1 - 19 = q - 18 by ring, zpow_sub₀ (by norm_num)]
          norm_num
      _ ≤ 2 ^ 53 * 2 ^ e / 10 ^ 18 := by gcongr; exact down.trans digits
      _ < 2 ^ e / 2 := by linarith
  obtain ⟨c, back⟩ := exists_fine_point m point
  refine shortestFrom_spec fits.pos (by omega) (by omega) back fun k after c back => ?_
  have some : c ≠ 0 := by
    rintro rfl
    simpa using back.pos fits
  have one : (1 : ℚ) ≤ c := by exact_mod_cast Nat.one_le_iff_ne_zero.2 some
  have large : (10 : ℚ) ^ (q + 1) ≤ c * 10 ^ k :=
    calc (10 : ℚ) ^ (q + 1) ≤ 1 * 10 ^ k := by
          rw [one_mul]
          exact zpow_le_zpow_right₀ (by norm_num) (by omega)
      _ ≤ c * 10 ^ k := by gcongr
  exact absurd (back.high.trans_lt (lt_log2_half m e)) (not_lt.2 (up.trans large))

end Format

open Json (IsDigits isDigits_toDigits ofDigits_toDigits)

theorem takeSign_sign (s : Bool) {cs : List Char} (head : ∀ c ∈ cs.head?, c.isDigit) :
    takeSign ((sign s).toList ++ cs) = (s, cs) := by
  cases s with
  | true => rfl
  | false =>
    show takeSign cs = _
    unfold takeSign
    split
    · exact absurd (head '-' rfl) (by decide)
    · exact absurd (head '+' rfl) (by decide)
    · rfl

theorem parse?_written (f : Format) (s : Bool) {ds es tail : List Char} (number : IsDigits ds)
    (part : ∀ c ∈ es, c.isDigit) (point : tail = [] ∧ es = [] ∨ tail = '.' :: es) :
    parse? f (sign s ++ String.ofList (ds ++ tail)) =
      some (f.ofDecimal s (ofDigits (ds ++ es)) (-es.length)) := by
  have stop : ∀ c ∈ tail.head?, c.isDigit = false := by
    rcases point with ⟨rfl, _⟩ | rfl <;> simp
  obtain ⟨taken, dropped⟩ := number.split stop
  obtain ⟨d, rest, rfl⟩ := List.exists_cons_of_ne_nil number.1
  have digit : d.isDigit := number.2 d (by simp)
  have other (letter : Char) (cs : List Char) (no : letter.isDigit = false) :
      (d :: rest) ++ tail ≠ letter :: cs := by
    intro same
    rw [(List.cons_eq_cons.1 same).1, no] at digit
    exact Bool.false_ne_true digit
  rw [parse?, String.toList_append, String.toList_ofList, takeSign_sign s (by simpa using digit)]
  simp only [if_neg (other 'N' _ rfl), if_neg (other 'i' _ rfl), taken, dropped]
  rcases point with ⟨rfl, rfl⟩ | rfl
  · simp
  · have all : es.takeWhile Char.isDigit = es ∧ es.dropWhile Char.isDigit = [] := by
      simpa [List.takeWhile_eq_self_iff, List.dropWhile_eq_nil_iff] using part
    simp [all]

theorem ofDigits_zeros (k : Nat) (ds : List Char) :
    ofDigits (List.replicate k '0' ++ ds) = ofDigits ds := by
  have := Nat.ofDigitChars_append (b := 10) (l := List.replicate k '0') (m := ds) 0
  rwa [Nat.ofDigitChars_replicate_zero, mul_zero] at this

theorem ofDigits_append_zeros (n k : Nat) :
    ofDigits (Nat.toDigits 10 n ++ List.replicate k '0') = n * 10 ^ k := by
  have := Nat.ofDigitChars_append (b := 10) (l := Nat.toDigits 10 n)
    (m := List.replicate k '0') 0
  rw [Nat.ofDigitChars_replicate_zero, Nat.ofDigitChars_ten_toDigits, mul_comm] at this
  exact this

theorem length_toDigits_eq_iff {n l : Nat} (pos : 0 < n) :
    (Nat.toDigits 10 n).length = l + 1 ↔ 10 ^ l ≤ n ∧ n < 10 ^ (l + 1) := by
  have above := Nat.length_toDigits_le_iff (b := 10) (n := n) (k := l + 1) (by decide) l.succ_pos
  have below : (Nat.toDigits 10 n).length ≤ l ↔ n < 10 ^ l := by
    obtain rfl | some := Nat.eq_zero_or_pos l
    · have := Nat.length_toDigits_pos (b := 10) (n := n)
      simp only [pow_zero]
      omega
    · exact Nat.length_toDigits_le_iff (by decide) some
  omega

theorem length_toDigits_mul {n : Nat} (pos : 0 < n) (k : Nat) :
    (Nat.toDigits 10 (n * 10 ^ k)).length = (Nat.toDigits 10 n).length + k := by
  obtain ⟨l, length⟩ : ∃ l, (Nat.toDigits 10 n).length = l + 1 :=
    Nat.exists_eq_add_one.2 Nat.length_toDigits_pos
  obtain ⟨low, high⟩ := (length_toDigits_eq_iff pos).1 length
  rw [length, add_right_comm, length_toDigits_eq_iff (Nat.mul_pos pos (by positivity)), pow_add,
    add_right_comm, pow_add _ (l + 1)]
  exact ⟨by gcongr, by gcongr⟩

theorem Format.ofDecimal_shift (f : Format) (s : Bool) (n k : Nat) :
    f.ofDecimal s (n * 10 ^ k) 0 = f.ofDecimal s n k := by
  obtain rfl | pos := Nat.eq_zero_or_pos n
  · simp [Format.ofDecimal]
  · have some : n * 10 ^ k ≠ 0 := (Nat.mul_pos pos (by positivity)).ne'
    have size : (0 : Int) + (Nat.toDigits 10 (n * 10 ^ k)).length =
        k + (Nat.toDigits 10 n).length := by
      rw [length_toDigits_mul pos]
      push_cast
      ring
    simp only [Format.ofDecimal, size, some, pos.ne']
    simp

theorem parse?_plain (f : Format) (s : Bool) (d : Decimal) :
    parse? f (sign s ++ d.plain) = some (f.ofDecimal s d.digits d.exponent) := by
  obtain ⟨n, k⟩ := d
  have number := isDigits_toDigits n
  have zero (l : Nat) : ∀ c ∈ List.replicate l '0', c.isDigit := by
    intro c member
    rw [List.eq_of_mem_replicate member]
    rfl
  rw [Decimal.plain]
  dsimp only
  split_ifs with whole short
  · obtain ⟨k, rfl⟩ := Int.eq_ofNat_of_zero_le whole
    have all : IsDigits (Nat.toDigits 10 n ++ List.replicate k '0') :=
      ⟨by simp [number.1], List.forall_mem_append.2 ⟨number.2, zero k⟩⟩
    have read := parse?_written f s all (List.forall_mem_nil _) (.inl ⟨rfl, rfl⟩)
    rw [List.append_nil, ofDigits_append_zeros] at read
    rw [← f.ofDecimal_shift]
    simpa [digitsText, zeros] using read
  · generalize width : (-k).toNat - (Nat.toDigits 10 n).length = gap
    have part : ∀ c ∈ List.replicate gap '0' ++ Nat.toDigits 10 n, c.isDigit :=
      List.forall_mem_append.2 ⟨zero gap, number.2⟩
    have places : ((List.replicate gap '0' ++ Nat.toDigits 10 n).length : Int) = -k := by
      rw [List.length_append, List.length_replicate]
      omega
    have text : "0." ++ zeros gap ++ digitsText n =
        String.ofList (['0'] ++ '.' :: (List.replicate gap '0' ++ Nat.toDigits 10 n)) := by
      rw [← String.toList_inj]
      simp [digitsText, zeros]
    have value : ofDigits (['0'] ++ (List.replicate gap '0' ++ Nat.toDigits 10 n)) = n :=
      calc ofDigits (['0'] ++ (List.replicate gap '0' ++ Nat.toDigits 10 n))
          = ofDigits (List.replicate gap '0' ++ Nat.toDigits 10 n) := ofDigits_zeros 1 _
        _ = ofDigits (Nat.toDigits 10 n) := ofDigits_zeros gap _
        _ = n := ofDigits_toDigits n
    have whole : IsDigits ['0'] := by decide
    rw [text, parse?_written f s whole part (.inr rfl), value, places, neg_neg]
  · generalize width : (Nat.toDigits 10 n).length - (-k).toNat = cut
    have some : (Nat.toDigits 10 n).take cut ≠ [] := by
      rw [ne_eq, List.take_eq_nil_iff, not_or]
      exact ⟨by omega, number.1⟩
    have places : (((Nat.toDigits 10 n).drop cut).length : Int) = -k := by
      rw [List.length_drop]
      omega
    have text : String.ofList ((Nat.toDigits 10 n).take cut) ++ "." ++
        String.ofList ((Nat.toDigits 10 n).drop cut) =
        String.ofList ((Nat.toDigits 10 n).take cut ++ '.' :: (Nat.toDigits 10 n).drop cut) := by
      rw [← String.toList_inj]
      simp
    have whole : ∀ c ∈ (Nat.toDigits 10 n).take cut, c.isDigit :=
      fun c member => number.2 c (List.mem_of_mem_take member)
    have part : ∀ c ∈ (Nat.toDigits 10 n).drop cut, c.isDigit :=
      fun c member => number.2 c (List.mem_of_mem_drop member)
    rw [text, parse?_written f s ⟨some, whole⟩ part (.inr rfl), List.take_append_drop,
      ofDigits_toDigits, places, neg_neg]

namespace Format

variable {f : Format} {m : Nat} {e : Int}

theorem ReadsBack.digits_pos (fits : f.Fits m e) {n : Nat} {k : Int}
    (back : f.ReadsBack m e (n * 10 ^ k)) : 0 < n := by
  have grid : (0 : ℚ) < 10 ^ k := by positivity
  exact_mod_cast (mul_pos_iff_of_pos_right grid).1 (back.pos fits)

/-- Reading does not cut the exponents of what reads back. -/
theorem ReadsBack.size_bounds (usual : f.IsUsual) (fits : f.Fits m e) {n : Nat} {k : Int}
    (back : f.ReadsBack m e (n * 10 ^ k)) :
    -400 ≤ k + (Nat.toDigits 10 n).length ∧ k + (Nat.toDigits 10 n).length ≤ 400 := by
  obtain ⟨l, length⟩ : ∃ l, (Nat.toDigits 10 n).length = l + 1 :=
    Nat.exists_eq_add_one.2 Nat.length_toDigits_pos
  obtain ⟨low, high⟩ := (length_toDigits_eq_iff (back.digits_pos fits)).1 length
  obtain ⟨_, most, _⟩ := fits.log2_bounds
  have grid : (0 : ℚ) < 10 ^ k := by positivity
  have range : (2 : ℚ) ^ (1101 : Int) ≤ 10 ^ (400 : Int) :=
    calc (2 : ℚ) ^ (1101 : Int) ≤ 2 ^ (3 * 400 : Int) :=
          zpow_le_zpow_right₀ one_le_two (by norm_num)
      _ = (2 ^ (3 : Int)) ^ (400 : Int) := zpow_mul 2 3 400
      _ ≤ 10 ^ (400 : Int) := zpow_le_zpow_left₀ (by norm_num) (by norm_num) (by norm_num)
  rw [length]
  constructor
  · refine ((zpow_lt_zpow_iff_right₀ (by norm_num : (1 : ℚ) < 10)).1 ?_).le
    calc (10 : ℚ) ^ (-400 : Int) ≤ 2 ^ (-1101 : Int) := by
          rw [zpow_neg, zpow_neg]
          exact inv_anti₀ (by positivity) range
      _ ≤ 2 ^ (e - 1) :=
          zpow_le_zpow_right₀ one_le_two (by have := fits.least; have := usual.low; omega)
      _ ≤ n * 10 ^ k := fits.half_le.trans back.low
      _ < 10 ^ (l + 1) * 10 ^ k := by gcongr; exact_mod_cast high
      _ = 10 ^ (k + (l + 1 : Nat)) := by rw [zpow_add₀ (by norm_num), zpow_natCast, mul_comm]
  · have less : k + l < 400 := by
      refine (zpow_lt_zpow_iff_right₀ (by norm_num : (1 : ℚ) < 10)).1 ?_
      calc (10 : ℚ) ^ (k + l) = 10 ^ l * 10 ^ k := by
            rw [zpow_add₀ (by norm_num), zpow_natCast, mul_comm]
        _ ≤ n * 10 ^ k := by gcongr; exact_mod_cast low
        _ < 2 ^ ((m.log2 : Int) + e + 1) := back.high.trans_lt (lt_log2_half m e)
        _ ≤ 2 ^ (1101 : Int) := zpow_le_zpow_right₀ one_le_two (by have := usual.high; omega)
        _ ≤ 10 ^ (400 : Int) := range
    omega

theorem ofDecimal_of_readsBack (usual : f.IsUsual) (fits : f.Fits m e) (s : Bool) {n : Nat}
    {k : Int} (back : f.ReadsBack m e (n * 10 ^ k)) : f.ofDecimal s n k = .finite s m e := by
  have some : n ≠ 0 := (back.digits_pos fits).ne'
  obtain ⟨small, large⟩ := back.size_bounds usual fits
  rw [ofDecimal, if_neg (not_or.2 ⟨some, not_lt.2 small⟩), if_neg (not_lt.2 large)]
  refine ofRatio_of_readsBack usual.precise s fits (Nat.pow_pos (by decide)) ?_
  have ratio : ((n * 10 ^ k.toNat : Nat) : ℚ) / (10 ^ (-k).toNat : Nat) = n * 10 ^ k := by
    push_cast
    rw [pow_toNat (by norm_num : (10 : ℚ) ≠ 0) k, ← mul_assoc]
    exact mul_div_cancel_right₀ _ (by positivity)
  exact ratio ▸ back

theorem holds_ofDecimal (precise : 0 < f.precision) (s : Bool) (n : Nat) (k : Int) :
    f.Holds (f.ofDecimal s n k) := by
  rw [ofDecimal]
  split_ifs
  · exact holds_ofRatio precise s 0 one_pos
  · exact .infinite s
  · exact holds_ofRatio precise s _ (Nat.pow_pos (by decide))

end Format

/-- The text of a number of the format reads back as it. -/
theorem parse?_text {f : Format} (usual : f.IsUsual) {x : Number} (held : f.Holds x) :
    parse? f (x.text f) = some x := by
  cases held with
  | nan => simp [parse?, text, takeSign]
  | infinite s => cases s <;> simp [parse?, text, sign, takeSign]
  | zero s =>
    have zero : "0" = (⟨0, 0⟩ : Decimal).plain := by decide
    rw [text, if_pos rfl, zero, parse?_plain]
    simp [Format.ofDecimal, Format.ofRatio]
  | finite s fits =>
    rw [text, if_neg fits.pos.ne', parse?_plain]
    exact congrArg some (Format.ofDecimal_of_readsBack usual fits s
      (Format.isShortest_shortest usual fits).point.back)

theorem parse?_format {x : Number} (held : Format.single.Holds x) :
    parse? .single x.format = some (if x.isZero then zero else x) := by
  rw [format]
  split_ifs
  · decide
  · exact parse?_text Format.isUsual.1 held

theorem holds_parse? {f : Format} (precise : 0 < f.precision) {s : String} {x : Number}
    (read : parse? f s = some x) : f.Holds x := by
  unfold parse? at read
  generalize takeSign s.toList = signed at read
  dsimp only at read
  split at read
  · cases read
    exact .nan
  split at read
  · cases read
    exact .infinite _
  -- With a point and without one the digits are rounded once.
  split at read
  all_goals
    split at read
    · cases read
    · obtain ⟨k, _, rfl⟩ := Option.map_eq_some_iff.1 read
      exact Format.holds_ofDecimal precise _ _ _

/-- The numbers that a format holds are those that its texts stand for. -/
theorem holds_iff_exists_text {f : Format} (usual : f.IsUsual) {x : Number} :
    f.Holds x ↔ ∃ s, parse? f s = some x :=
  ⟨fun held => ⟨x.text f, parse?_text usual held⟩, fun ⟨_, read⟩ => holds_parse? usual.precise read⟩

end CssOutline.Number
