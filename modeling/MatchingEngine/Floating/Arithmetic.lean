import Mathlib
import MatchingEngine.Lib.Rounding
import MatchingEngine.Common

/-!
# Prices in floating point

The comparisons and the rounding of `common.h` in the arithmetic that rounds every result of an
operation on `double` to the nearest one.  Where the exact prices are multiples of `0.01`
and the computed ones are near them, the comparisons answer the same, since they are further apart
or nearer than `EPS`, and rounding to two decimals answers the `double` nearest to the exact answer.

## Main definitions

* `double` — the nearest `double`.
* `arithmetic` — what the operations on `double` and on `int` compute.
* `priceEq_near`, `priceLe_near`, `cmp_near` — the comparisons answer as the exact ones.
* `highPrecisionRound2_near` — rounding answers the `double` nearest to the exact answer.
-/

namespace MatchingEngine.Floating

open Rounding

/-- The nearest `double`, where the numbers are not too large for one. -/
def double (x : ℚ) : ℚ := binary64.round x

/-- What the operations compute: a price is rounded, and what has more than 32 bits wraps
around. -/
@[reducible] def arithmetic : Arithmetic where
  double := double
  int := toInt

@[simp] theorem double_arithmetic (x : ℚ) : arithmetic.double x = double x := rfl

@[simp] theorem int_arithmetic (n : ℤ) : arithmetic.int n = toInt n := rfl

/-! ## How far away a computed number is -/

theorem abs_double_sub_le {x B : ℚ} (hx : |x| ≤ B) (hB : 1 ≤ B) :
    |double x - x| ≤ B / 2 ^ 53 := by
  refine binary64.abs_round_sub_le hx (le_trans ?_ hB)
  exact zpow_le_one_of_nonpos₀ one_le_two (by decide)

theorem double_intCast {n : ℤ} (hn : |n| < 2 ^ 53) : double n = n :=
  binary64.round_of_represents (binary64.represents_intCast (by decide) hn)

@[simp] theorem double_zero : double 0 = 0 := binary64.round_zero

theorem double_neg (x : ℚ) : double (-x) = -double x := binary64.round_neg x

/-- The exact number is `x`, and the computed one is `x'`. -/
def Near (δ x x' : ℚ) : Prop := |x' - x| ≤ δ

section near
variable {δ ε x x' y y' : ℚ}

theorem Near.mono (h : Near δ x x') (hle : δ ≤ ε) : Near ε x x' := h.trans hle

theorem near_refl (hδ : 0 ≤ δ) (x : ℚ) : Near δ x x := by rwa [Near, sub_self, abs_zero]

theorem Near.nonneg (h : Near δ x x') : 0 ≤ δ := (abs_nonneg _).trans h

theorem Near.neg (h : Near δ x x') : Near δ (-x) (-x') := by
  rwa [Near, neg_sub_neg, abs_sub_comm]

theorem Near.abs_le {B : ℚ} (h : Near δ x x') (hx : |x| ≤ B) : |x'| ≤ B + δ := by
  have hsplit : x' = x + (x' - x) := by ring
  rw [hsplit]
  exact (abs_add_le _ _).trans (add_le_add hx h)

theorem Near.add (h : Near δ x x') (h' : Near ε y y') : Near (δ + ε) (x + y) (x' + y') := by
  rw [Near, add_sub_add_comm]
  exact (abs_add_le _ _).trans (add_le_add h h')

theorem Near.sub (h : Near δ x x') (h' : Near ε y y') : Near (δ + ε) (x - y) (x' - y') := by
  rw [sub_eq_add_neg, sub_eq_add_neg]
  exact h.add h'.neg

theorem Near.mul {X Y : ℚ} (h : Near δ x x') (h' : Near ε y y') (hx : |x| ≤ X) (hy : |y'| ≤ Y) :
    Near (δ * Y + X * ε) (x * y) (x' * y') := by
  have hsplit : x' * y' - x * y = (x' - x) * y' + x * (y' - y) := by ring
  rw [Near, hsplit]
  refine (abs_add_le _ _).trans ?_
  rw [abs_mul, abs_mul]
  have hX : 0 ≤ X := (abs_nonneg _).trans hx
  have hδ := h.nonneg
  exact add_le_add (mul_le_mul h hy (abs_nonneg _) hδ) (mul_le_mul hx h' (abs_nonneg _) hX)

/-- What is computed is rounded. -/
theorem Near.double {B : ℚ} (h : Near δ x x') (hx : |x| ≤ B) (hB : 1 ≤ B + δ) :
    Near (δ + (B + δ) / 2 ^ 53) x (double x') := by
  have hsplit : Floating.double x' - x = (Floating.double x' - x') + (x' - x) := by ring
  rw [Near, hsplit, add_comm δ]
  exact (abs_add_le _ _).trans (add_le_add (abs_double_sub_le (h.abs_le hx) hB) h)

theorem near_double {B : ℚ} (hx : |x| ≤ B) (hB : 1 ≤ B) : Near (B / 2 ^ 53) x (Floating.double x) :=
  abs_double_sub_le hx hB

theorem Near.max (h : Near δ x x') (h' : Near δ y y') : Near δ (max x y) (max x' y') :=
  (abs_max_sub_max_le_max x' y' x y).trans (max_le h h')

theorem Near.min (h : Near δ x x') (h' : Near δ y y') : Near δ (min x y) (min x' y') :=
  (abs_min_sub_min_le_max x' y' x y).trans (max_le h h')

end near

/-! ## Comparisons -/

theorem near_eps : Near (1 / 2 ^ 53) eps (double eps) :=
  near_double (by norm_num [eps]) le_rfl

theorem ite_neg_eq_abs (z : ℚ) : (if z < 0 then -z else z) = |z| := by
  split
  · next h => rw [abs_of_neg h]
  · next h => rw [abs_of_nonneg (not_lt.mp h)]

/-- How near to the exact prices the computed ones are for the comparisons to answer the same. -/
def tolerance : ℚ := 1 / 2 ^ 25

/-- How large prices may be. -/
def bound : ℚ := 2 ^ 22

section compare
variable {x x' y y' : ℚ} (hx : OnGrid x) (hy : OnGrid y) (hxB : |x| ≤ bound) (hyB : |y| ≤ bound)
  (hx' : Near tolerance x x') (hy' : Near tolerance y y')
include hx hy hxB hyB hx' hy'

/-- The computed prices are within `EPS` just if the exact ones are equal. -/
theorem priceEq_iff_of_near : priceEq (A := arithmetic) x' y' ↔ x = y := by
  have heps := abs_le.mp near_eps
  unfold priceEq
  rw [ite_neg_eq_abs, double_arithmetic, double_arithmetic]
  have hsub := hx'.sub hy'
  constructor
  · intro h
    by_contra hne
    have hfar := hx.le_abs_sub hy hne
    have hsize : |x - y| ≤ bound + bound := (abs_sub _ _).trans (add_le_add hxB hyB)
    have hdiff := hsub.double hsize (by norm_num [bound, tolerance])
    have hback : |x - y| - |double (x' - y')| ≤ |double (x' - y') - (x - y)| := by
      rw [abs_sub_comm (double (x' - y'))]
      exact abs_sub_abs_le_abs_sub _ _
    rw [Near] at hdiff
    norm_num [bound, tolerance, eps] at heps h hdiff
    linarith
  · rintro rfl
    have hzero : |x' - y'| ≤ tolerance + tolerance := by simpa [Near] using hsub
    have hround := abs_double_sub_le (hzero.trans (by norm_num [tolerance])) le_rfl
    have hle := (abs_sub_abs_le_abs_sub (double (x' - y')) (x' - y')).trans hround
    norm_num [tolerance, eps] at heps hzero hle ⊢
    linarith

theorem priceEq_near : priceEq (A := arithmetic) x' y' ↔ priceEq x y := by
  rw [priceEq_iff_of_near hx hy hxB hyB hx' hy', priceEq_iff hx hy]

theorem priceNeq_near : priceNeq (A := arithmetic) x' y' ↔ priceNeq x y := by
  rw [priceNeq_iff_not (A := arithmetic), priceNeq_iff_not, priceEq_near hx hy hxB hyB hx' hy']

omit hxB hyB in
/-- Prices that are different are in the same order. -/
theorem lt_iff_of_near (hne : x ≠ y) : x' < y' ↔ x < y := by
  have hfar := hx.le_abs_sub hy hne
  have hleft := abs_le.mp hx'
  have hright := abs_le.mp hy'
  norm_num [tolerance] at hleft hright
  rcases le_abs.mp hfar with h | h
  · constructor
    · intro hlt
      linarith
    · intro hlt
      linarith
  · constructor
    · intro _
      linarith
    · intro _
      linarith

theorem priceLe_near : priceLe (A := arithmetic) x' y' ↔ priceLe x y := by
  unfold priceLe
  rw [priceNeq_near hx hy hxB hyB hx' hy', priceNeq_iff hx hy]
  exact and_congr_left fun hne => lt_iff_of_near hx hy hx' hy' hne

theorem priceGt_near : priceGt (A := arithmetic) x' y' ↔ priceGt x y := by
  unfold priceGt
  rw [priceNeq_near hx hy hxB hyB hx' hy', priceNeq_iff hx hy]
  exact and_congr_left fun hne => lt_iff_of_near hy hx hy' hx' hne.symm

end compare

/-- The comparators read the prices of the orders as the exact ones do, and the other fields. -/
theorem cmp_near (d : Direction) {a a' b b' : CompactOrderLog} (ha : OnGrid a.price)
    (hb : OnGrid b.price) (haB : |a.price| ≤ bound) (hbB : |b.price| ≤ bound)
    (ha' : Near tolerance a.price a'.price) (hb' : Near tolerance b.price b'.price)
    (hatime : a'.timestamp = a.timestamp) (hbtime : b'.timestamp = b.timestamp)
    (hatype : a'.type = a.type) (hbtype : b'.type = b.type) :
    d.cmp (A := arithmetic) a' b' = d.cmp a b := by
  have hneq := priceNeq_near ha hb haB hbB ha' hb'
  by_cases hne : a.price = b.price
  · have hnot : ¬ priceNeq a.price b.price := by
      rw [priceNeq_iff ha hb]
      exact not_not_intro hne
    cases d with
    | Sale =>
      simp only [Direction.cmp, minBinaryHeapCmp, hneq, hnot, if_false, hatime, hbtime, hatype,
        hbtype]
    | Buy =>
      simp only [Direction.cmp, maxBinaryHeapCmp, hneq, hnot, if_false, hatime, hbtime, hatype,
        hbtype]
  · have hfar : priceNeq a.price b.price :=
      (priceNeq_iff ha hb).mpr hne
    cases d with
    | Sale =>
      simp only [Direction.cmp, minBinaryHeapCmp, hneq, hfar, if_true,
        lt_iff_of_near ha hb ha' hb' hne]
    | Buy =>
      simp only [Direction.cmp, maxBinaryHeapCmp, hneq, hfar, if_true, gt_iff_lt,
        lt_iff_of_near hb ha hb' ha' (Ne.symm hne)]

/-! ## Rounding to two decimals -/

/-- Between two integers the fraction does not matter. -/
theorem toLongLong_of_between {n : ℤ} {x : ℚ} (hlow : n < x) (hhigh : x < n + 1) :
    toLongLong x = if 0 ≤ n then n else n + 1 := by
  by_cases hn : 0 ≤ n
  · have hcast : (0 : ℚ) ≤ n := by exact_mod_cast hn
    rw [if_pos hn, toLongLong_of_nonneg (hcast.trans hlow.le), Int.floor_eq_iff]
    exact ⟨hlow.le, hhigh⟩
  · have hcast : (n : ℚ) + 1 ≤ 0 := by exact_mod_cast not_le.mp hn
    have hfloor : ⌊-x⌋ = -n - 1 := by
      rw [Int.floor_eq_iff]
      push_cast
      constructor <;> linarith
    have hneg := toLongLong_neg x
    rw [toLongLong_of_nonneg (by linarith), hfloor] at hneg
    rw [if_neg hn]
    omega

theorem near_half : Near (3 / 2 ^ 53) (1 / 2 + eps) (half (A := arithmetic)) := by
  have hsum := (near_refl le_rfl (1 / 2)).add near_eps
  refine (hsum.double (B := 1) (by norm_num [eps, abs_of_nonneg]) (by norm_num)).mono ?_
  norm_num

theorem hundredths_eq {n : ℤ} (hn : |n| < 2 ^ 53) :
    hundredths (A := arithmetic) n = double (n / 100) := by
  unfold hundredths
  rw [double_arithmetic, double_arithmetic, double_intCast hn]

/-- A computed number that lies between the same integers as the exact one is cut to the same. -/
theorem hundredths_toLongLong {n : ℤ} {m e y y' : ℚ} (hlow : n + m ≤ y) (hhigh : y ≤ n + 1 - m)
    (hy : Near e y y') (hlt : e < m) (hn : |n| < 2 ^ 52) :
    hundredths (A := arithmetic) (toLongLong y') = double (toLongLong y / 100) := by
  have he := hy.nonneg
  have hnear := abs_le.mp hy
  rw [toLongLong_of_between (by linarith : (n : ℚ) < y') (by linarith),
    toLongLong_of_between (by linarith : (n : ℚ) < y) (by linarith), hundredths_eq]
  have habs := abs_lt.mp hn
  split
  · exact hn.trans (by norm_num)
  · rw [abs_lt]
    constructor <;> linarith

section round
variable {n : ℤ} {δ m x x' B : ℚ} (hx : Near δ x x') (hxB : |x| ≤ B) (hB : 1 ≤ B)
include hx hxB hB

/-- **Rounding to two decimals** answers the `double` nearest to the exact answer, if the exact
number is far enough from where rounding goes the other way. -/
theorem highPrecisionRound2_near (hlow : n + m ≤ x * 100 + (1 / 2 + eps))
    (hhigh : x * 100 + (1 / 2 + eps) ≤ n + 1 - m)
    (hm : 100 * δ + 260 * (B + δ) / 2 ^ 53 < m) (hn : |n| < 2 ^ 52) :
    highPrecisionRound2 (A := arithmetic) x' = double (highPrecisionRound2 x) := by
  have hδ := hx.nonneg
  have hmul : Near (δ * 100 + B * 0) (x * 100) (x' * 100) :=
    hx.mul (near_refl le_rfl 100) hxB (by norm_num [abs_of_nonneg])
  have hsize : |x * 100| ≤ B * 100 := by
    rw [abs_mul, abs_of_pos (by norm_num : (0 : ℚ) < 100)]
    linarith
  have hsum := (hmul.double hsize (by linarith)).add near_half
  have hsize' : |x * 100 + (1 / 2 + eps)| ≤ B * 100 + 1 :=
    (abs_add_le _ _).trans (add_le_add hsize (by norm_num [eps, abs_of_nonneg]))
  refine hundredths_toLongLong hlow hhigh (hsum.double hsize' (by linarith)) ?_ hn
  norm_num at hm ⊢
  linarith

/-- A number that is a multiple of `0.0002` is far enough by `EPS`. -/
theorem highPrecisionRound2_of_fine (hB' : B ≤ 2 ^ 40) (hfine : ∃ j : ℤ, x = j / 5000)
    (hm : 100 * δ + 260 * (B + δ) / 2 ^ 53 < eps) :
    highPrecisionRound2 (A := arithmetic) x' = double (highPrecisionRound2 x) := by
  obtain ⟨j, rfl⟩ := hfine
  have hsplit : (j + 25) / 50 * 50 + (j + 25) % 50 = j + 25 := Int.ediv_mul_add_emod _ _
  have hlow : 0 ≤ (j + 25) % 50 := Int.emod_nonneg _ (by decide)
  have hhigh : (j + 25) % 50 ≤ 49 := Int.le_of_lt_add_one (Int.emod_lt_of_pos _ (by decide))
  generalize (j + 25) / 50 = n at hsplit
  generalize (j + 25) % 50 = r at hsplit hlow hhigh
  have hj : (j : ℚ) = n * 50 + r - 25 := by
    have hcast : ((n * 50 + r : ℤ) : ℚ) = ((j + 25 : ℤ) : ℚ) := by rw [hsplit]
    push_cast at hcast
    linarith
  have hlow' : (0 : ℚ) ≤ r := by exact_mod_cast hlow
  have hhigh' : (r : ℚ) ≤ 49 := by exact_mod_cast hhigh
  have hsize := abs_le.mp hxB
  refine highPrecisionRound2_near (n := n) hx hxB hB ?_ ?_ hm ?_
  · rw [hj]
    norm_num [eps]
    linarith
  · rw [hj]
    norm_num [eps]
    linarith
  · have hn : |(n : ℚ)| < 2 ^ 52 := by
      rw [hj] at hsize
      rw [abs_lt]
      norm_num at hsize hB' ⊢
      constructor <;> linarith
    exact_mod_cast hn

/-- A price of the grid is far enough by almost `0.5`. -/
theorem highPrecisionRound2_of_grid (hB' : B ≤ 2 ^ 42) (hgrid : OnGrid x)
    (hm : 100 * δ + 260 * (B + δ) / 2 ^ 53 < 49 / 100) :
    highPrecisionRound2 (A := arithmetic) x' = double (highPrecisionRound2 x) := by
  obtain ⟨k, rfl⟩ := hgrid
  have hsize := abs_le.mp hxB
  refine highPrecisionRound2_near (n := k) hx hxB hB ?_ ?_ hm ?_
  · norm_num [eps]
  · norm_num [eps]
    linarith
  · have hk : |(k : ℚ)| < 2 ^ 52 := by
      rw [abs_lt]
      norm_num at hsize hB' ⊢
      constructor <;> linarith
    exact_mod_cast hk

/-- With either sign the computed number is near the exact one. -/
theorem near_signed {s : ℚ} (hs : s = 1 ∨ s = -1) :
    Near (100 * δ + 260 * (B + δ) / 2 ^ 53) (x * 100 + (1 / 2 + eps) * s)
      (double (double (x' * 100) + double (half (A := arithmetic) * s))) := by
  have hδ := hx.nonneg
  have hmul : Near (δ * 100 + B * 0) (x * 100) (x' * 100) :=
    hx.mul (near_refl le_rfl 100) hxB (by norm_num [abs_of_nonneg])
  have hsize : |x * 100| ≤ B * 100 := by
    rw [abs_mul, abs_of_pos (by norm_num : (0 : ℚ) < 100)]
    linarith
  have hhalf : double (half (A := arithmetic)) = half (A := arithmetic) :=
    binary64.round_of_represents (binary64.represents_round (by decide) _)
  have hsign : Near (3 / 2 ^ 53) ((1 / 2 + eps) * s) (double (half (A := arithmetic) * s)) := by
    rcases hs with rfl | rfl
    · rw [mul_one, mul_one, hhalf]
      exact near_half
    · rw [mul_neg_one, mul_neg_one, double_neg, hhalf]
      exact near_half.neg
  have hsize' : |x * 100 + (1 / 2 + eps) * s| ≤ B * 100 + 1 := by
    refine (abs_add_le _ _).trans (add_le_add hsize ?_)
    rcases hs with rfl | rfl <;> norm_num [eps, abs_of_nonneg]
  refine (((hmul.double hsize (by linarith)).add hsign).double hsize' (by linarith)).mono ?_
  norm_num
  linarith

/-- **Rounding away from zero** answers the `double` nearest to a number of the grid. -/
theorem highPrecisionRound2CoverNegative_of_grid (hB' : B ≤ 2 ^ 42) (hgrid : OnGrid x)
    (hm : 100 * δ + 260 * (B + δ) / 2 ^ 53 < 49 / 100) :
    highPrecisionRound2CoverNegative (A := arithmetic) x' = double x := by
  obtain ⟨k, rfl⟩ := hgrid
  have hδ := hx.nonneg
  have hsize := abs_le.mp hxB
  have hnear := abs_le.mp hx
  have hsmall : δ < 1 / 100 := by
    norm_num at hm
    linarith
  have hk : |(k : ℚ)| < 2 ^ 50 := by
    rw [abs_lt]
    norm_num at hsize hB' ⊢
    constructor <;> linarith
  have hk' := abs_lt.mp hk
  -- the same sign, or both signs where the number is zero
  have hcut : ∀ (n : ℤ) (s : ℚ), s = 1 ∨ s = -1 → n + 49 / 100 ≤ k + (1 / 2 + eps) * s →
      k + (1 / 2 + eps) * s ≤ n + 1 - 49 / 100 → (if 0 ≤ n then n else n + 1) = k →
      hundredths (A := arithmetic)
          (toLongLong (double (double (x' * 100) + double (half (A := arithmetic) * s)))) =
        double (k / 100) := by
    intro n s hs hlow hhigh hvalue
    have hy := near_signed hx hxB hB hs
    rw [div_mul_cancel₀ _ (by norm_num : (100 : ℚ) ≠ 0)] at hy
    have hsign : |(1 / 2 + eps) * s| ≤ 1 := by
      rcases hs with rfl | rfl <;> norm_num [eps, abs_of_nonneg]
    have hsign' := abs_le.mp hsign
    have hn : |(n : ℚ)| < 2 ^ 52 := by
      rw [abs_lt]
      constructor <;> linarith
    rw [hundredths_toLongLong hlow hhigh hy hm (by exact_mod_cast hn),
      toLongLong_of_between (by linarith : (n : ℚ) < _) (by linarith), hvalue]
  unfold highPrecisionRound2CoverNegative
  rcases lt_trichotomy k 0 with hneg | rfl | hpos
  · have hcast : (k : ℚ) ≤ -1 := by exact_mod_cast Int.le_sub_one_of_lt hneg
    rw [if_pos (by linarith)]
    refine hcut (k - 1) (-1) (.inr rfl) ?_ ?_ ?_
    · push_cast
      norm_num [eps]
      linarith
    · push_cast
      norm_num [eps]
      linarith
    · rw [if_neg (by omega)]
      omega
  · by_cases hx' : x' < 0
    · rw [if_pos hx']
      exact hcut (-1) (-1) (.inr rfl) (by norm_num [eps]) (by norm_num [eps]) (by decide)
    · rw [if_neg hx']
      exact hcut 0 1 (.inl rfl) (by norm_num [eps]) (by norm_num [eps]) (by decide)
  · have hcast : (1 : ℚ) ≤ k := by exact_mod_cast hpos
    rw [if_neg (by linarith)]
    refine hcut k 1 (.inl rfl) ?_ ?_ (if_pos hpos.le)
    · norm_num [eps]
    · norm_num [eps]
      linarith

end round

end MatchingEngine.Floating
